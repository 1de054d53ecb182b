import VelaNetwork.NodeSteps
import VelaNetwork.Library.OrderedMaps
import VelaNetwork.Library.Logs

namespace VelaNetwork

open Library.Logs Library.OrderedMaps

variable (P : Primitives)

namespace BlockDb

def Contains (db : BlockDb) (block : Block) : Prop :=
  ∃ item ∈ db.tree.toList, P.deserializeBlock item.2 = some block

variable {P} {db db' : BlockDb} {block b : Block}

theorem contains_saveBlock (hP : P.BincodeRoundTrips) {saved : Bool}
    (h : db.saveBlock P saved block = some db') (hb : db'.Contains P b) : b = block ∨ db.Contains P b := by
  obtain ⟨_, val, hback, rfl⟩ := saveBlock_cases hP h
  obtain ⟨item, hitem, hdecode⟩ := hb
  rcases mem_toList_insert hitem with rfl | hold
  · exact Or.inl (Option.some.inj (hdecode.symm.trans hback))
  · exact Or.inr ⟨item, hold, hdecode⟩

theorem contains_saveAll (hP : P.BincodeRoundTrips) {blocks : List Block}
    (hb : (db.saveAll P blocks).Contains P b) :
    b ∈ blocks ∨ db.Contains P b := by
  have hall : ∀ b, (db.saveAll P blocks).Contains P b → b ∈ blocks ∨ db.Contains P b := by
    refine saveAll_invariant P (p := fun db' => ∀ b, db'.Contains P b → b ∈ blocks ∨ db.Contains P b) ?_
      fun b => Or.inr
    intro block hblock db₁ db₂ hsave h b hb
    rcases contains_saveBlock hP hsave hb with rfl | hold
    · exact Or.inl hblock
    · exact h b hold
  exact hall b hb

theorem contains_of_load {blocks : List Block} (h : db.loadAllBlocks P = some blocks) (hb : b ∈ blocks) :
    db.Contains P b := by
  unfold loadAllBlocks at h
  split at h
  · rename_i decoded hdecoded
    obtain rfl := Option.some.inj h
    rw [List.mem_mergeSort] at hb
    exact mem_of_mapM_some hdecoded hb
  · cases h

theorem not_contains_empty : ¬ BlockDb.empty.Contains P b := by
  rintro ⟨item, hitem, _⟩
  rw [show BlockDb.empty.tree.toList = [] from Std.ExtTreeMap.toList_eq_nil_iff.mpr rfl] at hitem
  exact absurd hitem List.not_mem_nil

end BlockDb

def NetworkMessage.blocks : NetworkMessage → List Block
  | .newBlock block => [block]
  | .syncResponse blocks => blocks
  | _ => []

namespace Node

variable {P} {n : Node}

theorem accepted_sublist (tip : UInt64) (blocks : List Block) : (accepted tip blocks).Sublist blocks := by
  induction blocks generalizing tip with
  | nil => exact List.Sublist.refl _
  | cons block rest ih =>
    rw [accepted]
    split
    · exact (ih _).cons_cons _
    · exact (ih _).cons _

theorem imported_subset {msg : NetworkMessage} {order : IterOrder} {saves : ℕ → Bool} :
    n.imported (.message msg order saves) ⊆ msg.blocks := by
  cases msg with
  | newBlock block => exact (accepted_sublist _ _).subset
  | syncResponse blocks => exact (accepted_sublist _ _).subset
  | _ => exact fun b hb => absurd hb List.not_mem_nil

structure HoldsOnly (P : Primitives) (K : Block → Prop) (n : Node) : Prop where
  chain : ∀ b ∈ n.state.blocks, K b
  database : ∀ b, n.blockDb.Contains P b → K b

variable {K K' : Block → Prop}

theorem HoldsOnly.mono (h : HoldsOnly P K n) (hK : ∀ b, K b → K' b) : HoldsOnly P K' n :=
  ⟨fun b hb => hK b (h.chain b hb), fun b hb => hK b (h.database b hb)⟩

theorem HoldsOnly.step (hP : P.BincodeRoundTrips) (h : HoldsOnly P K n) (hgenesis : K Block.genesis)
    {e : Event} (happended : ∀ b ∈ n.appended P e, K b) : HoldsOnly P K (n.step P e) := by
  cases he : e.isRestart with
  | false =>
    have hgrows := step_grows P n he
    obtain ⟨kept, hsub, _, hdb⟩ := hgrows.database
    constructor
    · intro b hb
      rw [hgrows.chain] at hb
      rcases List.mem_append.mp hb with hold | hnew
      · exact h.chain b hold
      · exact happended b hnew
    · intro b hb
      rw [hdb] at hb
      rcases BlockDb.contains_saveAll hP hb with hnew | hold
      · exact happended b (hsub.subset hnew)
      · exact h.database b hold
  | true =>
    obtain ⟨saved, rfl⟩ := Event.eq_restart he
    rcases restart_cases (P := P) n saved with hsame | hstart
    · rwa [hsame]
    · obtain ⟨db', hsave, hboot⟩ | ⟨blocks, hload, hboot⟩ := start_cases hstart
      · rw [hboot]
        constructor
        · intro b hb
          rw [List.mem_singleton.mp hb]
          exact hgenesis
        · intro b hb
          rcases BlockDb.contains_saveBlock hP hsave hb with rfl | hold
          · exact hgenesis
          · exact h.database b hold
      · rw [hboot]
        exact ⟨fun b hb => h.database b (BlockDb.contains_of_load hload hb), h.database⟩

theorem fresh_holdsOnly (hP : P.BincodeRoundTrips) (hgenesis : K Block.genesis) (i : Fin 3) :
    HoldsOnly P K (fresh P i) := by
  constructor
  · intro b hb
    rw [List.mem_singleton.mp hb]
    exact hgenesis
  · intro b hb
    rcases BlockDb.contains_saveAll hP hb with hnew | hold
    · rw [List.mem_singleton.mp hnew]
      exact hgenesis
    · exact absurd hold BlockDb.not_contains_empty

theorem sends_blocks {e : Event} {msg : NetworkMessage} (h : msg ∈ n.sends P e) :
    ∀ b ∈ msg.blocks, b = Block.genesis ∨ n.produced P e = some b ∨ b ∈ n.state.blocks := by
  intro b hb
  cases e with
  | message inc order saves =>
    change msg ∈ (n.handleMessage P order saves inc).2 at h
    cases inc with
    | newBlock block =>
      change msg ∈ (n.handleNewBlock P (saves 0) block).2 at h
      unfold handleNewBlock at h
      split at h
      · rw [List.mem_singleton.mp h] at hb
        exact absurd hb List.not_mem_nil
      · exact absurd h List.not_mem_nil
    | newTransaction tx => exact absurd h List.not_mem_nil
    | consensusVote vote =>
      change msg ∈ (n.handleConsensusVote P order vote).2 at h
      unfold handleConsensusVote at h
      split at h
      · rw [List.mem_singleton.mp h] at hb
        exact Or.inl (List.mem_singleton.mp hb)
      · exact absurd h List.not_mem_nil
    | consensusPropose block =>
      change msg ∈ (n.handleConsensusPropose P block).2 at h
      unfold handleConsensusPropose at h
      split at h
      · rw [List.mem_singleton.mp h] at hb
        exact absurd hb List.not_mem_nil
      · exact absurd h List.not_mem_nil
    | syncRequest fromHeight =>
      change msg ∈ (n.handleSyncRequest fromHeight).2 at h
      unfold handleSyncRequest at h
      dsimp only at h
      split at h
      · exact absurd h List.not_mem_nil
      · rw [List.mem_singleton.mp h] at hb
        exact Or.inr (Or.inr (List.mem_of_mem_filter hb))
    | syncResponse blocks => exact absurd h List.not_mem_nil
  | requestSync =>
    change msg ∈ n.requestSync.2 at h
    unfold requestSync at h
    split at h
    · rw [List.mem_singleton.mp h] at hb
      exact absurd hb List.not_mem_nil
    · exact absurd h List.not_mem_nil
  | startProducer => exact absurd h List.not_mem_nil
  | tick now saved =>
    change msg ∈ (n.tick P now saved).2 at h
    obtain ⟨_, round, htick⟩ | ⟨round, tip, _, _, _, hsome, htick⟩ := tick_cases P n now saved
    · rw [htick] at h
      exact absurd h List.not_mem_nil
    · rw [htick] at h
      rcases List.mem_cons.mp h with rfl | h
      · exact absurd hb List.not_mem_nil
      · rw [List.mem_singleton.mp h] at hb
        rw [List.mem_singleton.mp hb]
        exact Or.inr (Or.inl hsome)
  | request req => exact absurd h List.not_mem_nil
  | rpc i now =>
    change msg ∈ (n.advanceRpc P now i).2 at h
    unfold advanceRpc at h
    split at h
    · exact absurd h List.not_mem_nil
    · split at h <;>
      · obtain ⟨tx, _, rfl⟩ := List.mem_map.mp h
        exact absurd hb List.not_mem_nil
  | restart saved => exact absurd h List.not_mem_nil

end Node

end VelaNetwork
