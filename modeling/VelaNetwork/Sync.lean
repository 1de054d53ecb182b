import VelaNetwork.Replay

namespace VelaNetwork

open Library.Runs

variable (P : Primitives)

def Delivers (chain : List Block) : Event → Prop
  | .message (.newBlock block) _ _ => block ∈ chain
  | .message (.syncResponse blocks) _ _ => ∀ block ∈ blocks, block ∈ chain
  | _ => False

variable {P} {chain : List Block}

section Chain

theorem Contiguous.height (h : Contiguous chain) (hlen : chain.length < 2 ^ 64) {k : ℕ}
    (hk : k < chain.length) :
    chain[k].header.height = UInt64.ofNat k := by
  rw [← UInt64.toNat_inj, h k hk, UInt64.toNat_ofNat_of_lt' (Nat.lt_trans hk hlen)]

theorem Contiguous.eq_next (h : Contiguous chain) (hlen : chain.length < 2 ^ 64) {k : ℕ}
    (hk : k < chain.length) {block : Block} (hblock : block ∈ chain) :
    block.header.height = UInt64.ofNat k + 1 ↔ ∃ hnext : k + 1 < chain.length, block = chain[k + 1] := by
  obtain ⟨i, hi, rfl⟩ := List.mem_iff_getElem.mp hblock
  have hnat : (UInt64.ofNat k + 1).toNat = k + 1 := by
    rw [UInt64.toNat_add, UInt64.toNat_ofNat_of_lt' (Nat.lt_trans hk hlen), UInt64.toNat_one]
    omega
  rw [← UInt64.toNat_inj, h i hi, hnat]
  constructor
  · rintro rfl
    exact ⟨hi, rfl⟩
  · rintro ⟨hnext, hsame⟩
    rw [← h i hi, hsame, h (k + 1) hnext]

theorem Contiguous.accepted (h : Contiguous chain) (hlen : chain.length < 2 ^ 64) {k : ℕ}
    (hk : k < chain.length) {blocks : List Block} (hblocks : ∀ block ∈ blocks, block ∈ chain) :
    chain.take (k + 1) ++ Node.accepted (UInt64.ofNat k) blocks <+: chain := by
  induction blocks generalizing k with
  | nil =>
    rw [Node.accepted, List.append_nil]
    exact List.take_prefix (k + 1) chain
  | cons block rest ih =>
    have hrest : ∀ block ∈ rest, block ∈ chain := fun b hb => hblocks b (List.mem_cons_of_mem _ hb)
    rw [Node.accepted]
    split
    · rename_i hheight
      obtain ⟨hnext, rfl⟩ := (h.eq_next hlen hk (hblocks block List.mem_cons_self)).mp hheight
      rw [List.append_cons, List.take_concat_get' chain (k + 1) hnext, h.height hlen hnext]
      exact ih hnext hrest
    · exact ih hk hrest

theorem Contiguous.accepted_drop (h : Contiguous chain) (hlen : chain.length < 2 ^ 64) {j k : ℕ}
    (hk : k < chain.length) (hj : j ≤ k + 1) :
    Node.accepted (UInt64.ofNat k) (chain.drop j) = chain.drop (k + 1) := by
  by_cases hend : j < chain.length
  · rw [List.drop_eq_getElem_cons hend, Node.accepted]
    by_cases hnext : j = k + 1
    · subst hnext
      rw [if_pos ((h.eq_next hlen hk (List.getElem_mem hend)).mpr ⟨hend, rfl⟩), h.height hlen hend,
        h.accepted_drop hlen hend (Nat.le_refl (k + 2)), ← List.drop_eq_getElem_cons hend]
    · have hskip : ¬ chain[j].header.height = UInt64.ofNat k + 1 := by
        intro hheight
        obtain ⟨hlt, hsame⟩ := (h.eq_next hlen hk (List.getElem_mem hend)).mp hheight
        have hindex := h j hend
        rw [hsame, h (k + 1) hlt] at hindex
        exact hnext hindex.symm
      rw [if_neg hskip]
      exact h.accepted_drop hlen hk (by omega)
  · rw [List.drop_eq_nil_of_le (Nat.not_lt.mp hend), List.drop_eq_nil_of_le (by omega), Node.accepted]
termination_by chain.length - j

theorem Contiguous.filter_above (h : Contiguous chain) (fromHeight : UInt64) :
    chain.filter (fun b => fromHeight < b.header.height) = chain.drop (fromHeight.toNat + 1) := by
  have hbelow : ∀ b ∈ chain.take (fromHeight.toNat + 1),
      ¬ (decide (fromHeight < b.header.height) = true) := by
    intro b hb
    obtain ⟨i, hi, rfl⟩ := List.mem_take_iff_getElem.mp hb
    rw [decide_eq_true_iff, UInt64.lt_iff_toNat_lt, h i (by omega)]
    omega
  have habove : ∀ b ∈ chain.drop (fromHeight.toNat + 1), decide (fromHeight < b.header.height) = true := by
    intro b hb
    obtain ⟨i, hi, rfl⟩ := List.mem_drop_iff_getElem.mp hb
    rw [decide_eq_true_iff, UInt64.lt_iff_toNat_lt, h (fromHeight.toNat + 1 + i) (by omega)]
    omega
  conv_lhs => rw [← List.take_append_drop (fromHeight.toNat + 1) chain]
  rw [List.filter_append, List.filter_eq_nil_iff.mpr hbelow, List.filter_eq_self.mpr habove, List.nil_append]

end Chain

namespace Node

structure OnChain (P : Primitives) (chain : List Block) (n : Node) : Prop where
  nonempty : n.state.blocks ≠ []
  blocks : n.state.blocks <+: chain
  worldState : n.state.worldState = WorldState.new.applyBlocks P n.state.blocks

theorem importBlocks_worldState (saves : ℕ → Bool) (n : Node) (blocks : List Block) :
    (n.importBlocks P saves blocks).state.worldState =
      n.state.worldState.applyBlocks P (accepted n.tipHeight blocks) := by
  induction blocks generalizing n saves with
  | nil => rfl
  | cons block rest ih =>
    rw [importBlocks, accepted]
    split
    · rw [ih, append_tipHeight]
      rfl
    · exact ih _ n

theorem OnChain.tip {n : Node} (h : OnChain P chain n) (hchain : Contiguous chain)
    (hlen : chain.length < 2 ^ 64) :
    ∃ k, k < chain.length ∧ n.state.blocks = chain.take (k + 1) ∧ n.tipHeight = UInt64.ofNat k := by
  have hpos : 0 < n.state.blocks.length := List.length_pos_iff.mpr h.nonempty
  have hle := h.blocks.length_le
  have htake := List.prefix_iff_eq_take.mp h.blocks
  have hk : n.state.blocks.length - 1 < chain.length := by omega
  refine ⟨n.state.blocks.length - 1, hk, ?_, ?_⟩
  · rwa [Nat.sub_add_cancel hpos]
  · have hlast : n.state.blocks.getLast? = some chain[n.state.blocks.length - 1] := by
      rw [List.getLast?_eq_getElem?, List.getElem?_eq_some_iff]
      exact ⟨by omega, h.blocks.getElem _⟩
    rw [tipHeight_eq hlast, hchain.height hlen hk]

theorem OnChain.importBlocks {n : Node} (h : OnChain P chain n) (hchain : Contiguous chain)
    (hlen : chain.length < 2 ^ 64) {blocks : List Block} (hblocks : ∀ block ∈ blocks, block ∈ chain)
    (saves : ℕ → Bool) :
    OnChain P chain (n.importBlocks P saves blocks) ∧
      n.state.blocks <+: (n.importBlocks P saves blocks).state.blocks := by
  have hgrown := (importBlocks_grows P saves n blocks).chain
  obtain ⟨k, hk, htake, htip⟩ := h.tip hchain hlen
  have hnext := hchain.accepted hlen hk hblocks
  rw [← htake, ← htip, ← hgrown] at hnext
  have hlonger : n.state.blocks <+: (n.importBlocks P saves blocks).state.blocks := ⟨_, hgrown.symm⟩
  refine ⟨⟨?_, hnext, ?_⟩, hlonger⟩
  · intro hnil
    rw [hnil] at hlonger
    exact h.nonempty (List.prefix_nil.mp hlonger)
  · rw [importBlocks_worldState, hgrown, h.worldState, WorldState.applyBlocks_append]

theorem step_delivered {n : Node} {e : Event} (he : Delivers chain e) :
    ∃ saves, ∃ blocks, (∀ block ∈ blocks, block ∈ chain) ∧ n.step P e = n.importBlocks P saves blocks := by
  unfold Delivers at he
  split at he
  · refine ⟨_, [_], ?_, step_newBlock P n _ _ _⟩
    intro b hb
    rwa [List.mem_singleton.mp hb]
  · exact ⟨_, _, he, rfl⟩
  · exact False.elim he

theorem OnChain.step {n : Node} (h : OnChain P chain n) (hchain : Contiguous chain)
    (hlen : chain.length < 2 ^ 64) {e : Event} (he : Delivers chain e) :
    OnChain P chain (n.step P e) ∧ n.state.blocks <+: (n.step P e).state.blocks := by
  obtain ⟨saves, blocks, hblocks, hstep⟩ := step_delivered (P := P) (n := n) he
  rw [hstep]
  exact h.importBlocks hchain hlen hblocks saves

theorem handleSyncRequest_of_holds (hchain : Contiguous chain) {responder : Node}
    (hholds : responder.state.blocks = chain) (fromHeight : UInt64) :
    (responder.handleSyncRequest fromHeight).2 = if (chain.drop (fromHeight.toNat + 1)).isEmpty then []
      else [.syncResponse (chain.drop (fromHeight.toNat + 1))] := by
  rw [handleSyncRequest, hholds, hchain.filter_above]

theorem handleSyncRequest_answers (hchain : Contiguous chain) {responder : Node}
    (hholds : responder.state.blocks = chain) {fromHeight : UInt64}
    (hlower : fromHeight.toNat + 1 < chain.length) :
    (responder.handleSyncRequest fromHeight).2 = [.syncResponse (chain.drop (fromHeight.toNat + 1))] := by
  have hsome : ¬ (chain.drop (fromHeight.toNat + 1)).isEmpty = true := by
    rw [List.isEmpty_iff, List.drop_eq_nil_iff]
    omega
  rw [handleSyncRequest_of_holds hchain hholds, if_neg hsome]

theorem OnChain.completes {n : Node} (h : OnChain P chain n) (hchain : Contiguous chain)
    (hlen : chain.length < 2 ^ 64) {responder : Node} (hholds : responder.state.blocks = chain)
    {fromHeight : UInt64} (hfrom : fromHeight ≤ n.tipHeight) {msg : NetworkMessage}
    (hmsg : msg ∈ (responder.handleSyncRequest fromHeight).2) (order : IterOrder) (saves : ℕ → Bool) :
    (n.step P (.message msg order saves)).state.blocks = chain := by
  have hresponse : msg = .syncResponse (chain.drop (fromHeight.toNat + 1)) := by
    rw [handleSyncRequest_of_holds hchain hholds] at hmsg
    split at hmsg
    · exact absurd hmsg List.not_mem_nil
    · exact List.mem_singleton.mp hmsg
  obtain ⟨k, hk, htake, htip⟩ := h.tip hchain hlen
  have hbelow : fromHeight.toNat + 1 ≤ k + 1 := by
    have hnat := UInt64.le_iff_toNat_le.mp hfrom
    rw [htip, UInt64.toNat_ofNat_of_lt' (Nat.lt_trans hk hlen)] at hnat
    omega
  have hgrown := (importBlocks_grows P saves n (chain.drop (fromHeight.toNat + 1))).chain
  rw [hresponse]
  change (n.importBlocks P saves _).state.blocks = chain
  rw [hgrown, htip, hchain.accepted_drop hlen hk hbelow, htake, List.take_append_drop]

theorem sync_converges (P : Primitives) (chain : List Block) (hchain : Contiguous chain)
    (hlen : chain.length < 2 ^ 64) (n : Node) (hn : OnChain P chain n) (es : List Event)
    (hes : ∀ e ∈ es, Delivers chain e) :
    AllStates (step P) (OnChain P chain) n es ∧
      AllSteps (step P) (fun n e => n.state.blocks <+: (n.step P e).state.blocks) n es ∧
      (∀ responder : Node, responder.state.blocks = chain → ∀ fromHeight ≤ (run (step P) n es).tipHeight,
        ∀ msg ∈ (responder.handleSyncRequest fromHeight).2, ∀ order saves,
          ((run (step P) n es).step P (.message msg order saves)).state.blocks = chain) ∧
      ∀ responder : Node, responder.state.blocks = chain →
        ∀ fromHeight : UInt64, fromHeight.toNat + 1 < chain.length →
        (responder.handleSyncRequest fromHeight).2 = [.syncResponse (chain.drop (fromHeight.toNat + 1))] := by
  have hrun : AllSteps (step P) (fun _ e => Delivers chain e) n es := allSteps_of_forall hes
  have hstates : AllStates (step P) (OnChain P chain) n es :=
    invariant (fun n e h he => (h.step hchain hlen he).1) hn hrun
  refine ⟨hstates, ?_, ?_, ?_⟩
  · exact allSteps_of_invariant (fun n e h he => (h.step hchain hlen he).1)
      (fun n e h he => (h.step hchain hlen he).2)
      hn hrun
  · intro responder hholds fromHeight hfrom msg hmsg order saves
    exact hstates.last.completes hchain hlen hholds hfrom hmsg order saves
  · intro responder hholds fromHeight hlower
    exact handleSyncRequest_answers hchain hholds hlower

section Runs

noncomputable def shortChain : List Block :=
  [Block.genesis, Block.new .sample 1 1 (Block.genesis.hash .sample) [] (sampleAddr 0) 0,
   Block.new .sample 2 2 (Block.genesis.hash .sample) [] (sampleAddr 0) 1]

noncomputable def outOfOrder : List Event :=
  [.message (.newBlock (shortChain.getD 2 Block.genesis)) .insertion fun _ => true,
   .message (.syncResponse shortChain.tail) .insertion fun _ => true,
   .message (.newBlock (shortChain.getD 1 Block.genesis)) .insertion fun _ => true]

noncomputable def holder : Node := run (step .sample) (fresh .sample 1) outOfOrder

theorem sync_converges_outOfOrder :
    AllStates (step .sample) (OnChain .sample shortChain) (fresh .sample 0) outOfOrder ∧
      ∀ order saves, ((run (step .sample) (fresh .sample 0) (outOfOrder.take 1)).step .sample
        (.message (.syncResponse (shortChain.drop 1)) order saves)).state.blocks = shortChain := by
  have hchain : Contiguous shortChain := by
    intro i hi
    revert i
    decide +kernel
  have hstart : OnChain .sample shortChain (fresh .sample 0) := ⟨by decide, ⟨shortChain.tail, rfl⟩, rfl⟩
  have hdelivers : ∀ e ∈ outOfOrder, Delivers shortChain e := by
    have hmem : ∀ i ∈ [1, 2], shortChain.getD i Block.genesis ∈ shortChain := by decide +kernel
    intro e he
    simp only [outOfOrder, List.mem_cons, List.not_mem_nil, or_false] at he
    rcases he with rfl | rfl | rfl
    · exact hmem 2 (by decide)
    · exact fun block hblock => List.mem_of_mem_tail hblock
    · exact hmem 1 (by decide)
  have hholds : holder.state.blocks = shortChain := by decide +kernel
  constructor
  · exact (sync_converges .sample shortChain hchain (by decide)
      (fresh .sample 0) hstart outOfOrder hdelivers).1
  · have hconverges :=
      sync_converges .sample shortChain hchain (by decide) (fresh .sample 0) hstart (outOfOrder.take 1)
      fun e he => hdelivers e (List.mem_of_mem_take he)
    have hanswer : (holder.handleSyncRequest 0).2 = [.syncResponse (shortChain.drop 1)] :=
      hconverges.2.2.2 holder hholds 0 (by decide)
    intro order saves
    apply hconverges.2.2.1 holder hholds 0 (by decide +kernel) _ _ order saves
    rw [hanswer]
    exact List.mem_singleton_self _

end Runs

end Node

end VelaNetwork
