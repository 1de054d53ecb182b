import VelaNetwork.NodeSteps
import VelaNetwork.Sample
import VelaNetwork.Library.OrderedMaps

namespace VelaNetwork

open Library.ByteStrings Library.OrderedMaps Library.Runs

variable (P : Primitives)

def Contiguous (blocks : List Block) : Prop :=
  ∀ i (h : i < blocks.length), blocks[i].header.height.toNat = i

def Ascending (blocks : List Block) : Prop := blocks.Pairwise fun a b => a.header.height < b.header.height

section Heights

theorem Contiguous.ascending {blocks : List Block} (h : Contiguous blocks) : Ascending blocks := by
  rw [Ascending, List.pairwise_iff_getElem]
  intro i j hi hj hij
  rwa [UInt64.lt_iff_toNat_lt, h i hi, h j hj]

theorem contiguous_concat {blocks : List Block} {block : Block} :
    Contiguous (blocks ++ [block]) ↔ Contiguous blocks ∧ block.header.height.toNat = blocks.length := by
  constructor
  · intro h
    constructor
    · intro i hi
      have hat := h i (by rw [List.length_append]; omega)
      rwa [List.getElem_append_left hi] at hat
    · have hat := h blocks.length (by simp)
      rwa [List.getElem_concat_length rfl] at hat
  · rintro ⟨h, hblock⟩ i hi
    by_cases hlt : i < blocks.length
    · rw [List.getElem_append_left hlt]
      exact h i hlt
    · have hi' : i = blocks.length := by
        rw [List.length_append, List.length_singleton] at hi
        omega
      rw [List.getElem_concat_length hi', hblock, hi']

theorem Contiguous.last {blocks : List Block} (h : Contiguous blocks) {tip : Block}
    (htip : blocks.getLast? = some tip) :
    tip.header.height.toNat + 1 = blocks.length := by
  obtain ⟨init, rfl⟩ := List.getLast?_eq_some_iff.mp htip
  rw [(contiguous_concat.mp h).2, List.length_append, List.length_singleton]

theorem contiguous_genesis : Contiguous [Block.genesis] := by
  intro i hi
  obtain rfl := Nat.lt_one_iff.mp hi
  rfl

theorem contiguous_next {blocks : List Block} {block tip : Block} (h : Contiguous blocks)
    (htip : blocks.getLast? = some tip) (hheight : block.header.height = tip.header.height + 1)
    (hnonzero : block.header.height ≠ 0) :
    Contiguous (blocks ++ [block]) := by
  rw [contiguous_concat]
  refine ⟨h, ?_⟩
  obtain ⟨init, rfl⟩ := List.getLast?_eq_some_iff.mp htip
  have htop := (contiguous_concat.mp h).2
  have hlt := tip.header.height.toNat_lt
  have hnat : block.header.height.toNat ≠ 0 := fun hzero => hnonzero (UInt64.toNat_inj.mp hzero)
  rw [hheight, UInt64.toNat_add, UInt64.toNat_one] at hnat ⊢
  rw [List.length_append, List.length_singleton]
  omega

/-- Heights follow each other modulo `2 ^ 64`, so a block of height zero is the first to break the count. -/
theorem contiguous_append_of_nonzero {blocks blocks' : List Block} {tip : Block} (h : Contiguous blocks)
    (htip : blocks.getLast? = some tip) (hfollows : Follows tip.header.height blocks')
    (hnonzero : ∀ block ∈ blocks', block.header.height ≠ 0) : Contiguous (blocks ++ blocks') := by
  induction blocks' generalizing blocks tip with
  | nil => rwa [List.append_nil]
  | cons block rest ih =>
    rw [List.append_cons]
    obtain ⟨hheight, hrest⟩ := hfollows
    have hnext := contiguous_next h htip hheight (hnonzero block List.mem_cons_self)
    exact ih hnext List.getLast?_concat hrest fun b hb => hnonzero b (List.mem_cons_of_mem _ hb)

theorem contiguous_append {blocks blocks' : List Block} {tip : Block} (h : Contiguous blocks)
    (htip : blocks.getLast? = some tip) (hfollows : Follows tip.header.height blocks')
    (hlen : (blocks ++ blocks').length ≤ 2 ^ 64) : Contiguous (blocks ++ blocks') := by
  induction blocks' generalizing blocks tip with
  | nil => rwa [List.append_nil]
  | cons block rest ih =>
    rw [List.append_cons] at hlen ⊢
    obtain ⟨hheight, hrest⟩ := hfollows
    apply ih _ List.getLast?_concat hrest hlen
    apply contiguous_next h htip hheight
    obtain ⟨init, rfl⟩ := List.getLast?_eq_some_iff.mp htip
    have htop := (contiguous_concat.mp h).2
    simp only [List.length_append, List.length_cons, List.length_nil] at hlen
    rw [hheight, ← UInt64.toNat_inj.ne, UInt64.toNat_add, htop, UInt64.toNat_one, UInt64.toNat_zero]
    omega

end Heights

namespace BlockDb

variable {P}

def entry (P : Primitives) (block : Block) : Bytes × Bytes :=
  (u64BeBytes block.header.height, (P.serializeBlock block).getD [])

def Holds (P : Primitives) (db : BlockDb) (blocks : List Block) : Prop :=
  db.tree.toList = blocks.map (entry P)

theorem saveBlock_true (hP : P.BincodeRoundTrips) (db : BlockDb) (block : Block) :
    db.saveBlock P true block = some ⟨db.tree.insert (entry P block).1 (entry P block).2⟩ := by
  obtain ⟨val, hval, _⟩ := hP block
  simp [saveBlock, entry, hval]

theorem deserialize_entry (hP : P.BincodeRoundTrips) (block : Block) :
    P.deserializeBlock (entry P block).2 = some block := by
  obtain ⟨val, hval, hback⟩ := hP block
  simp [entry, hval, hback]

theorem compare_entry (a b : Block) : compare (entry P a).1 (entry P b).1 =
    compare a.header.height.toNat b.header.height.toNat :=
  compare_beBytes (w := 8) (by simpa using a.header.height.toNat_lt) (by simpa using b.header.height.toNat_lt)

theorem holds_saveBlock (hP : P.BincodeRoundTrips) {db : BlockDb} {blocks : List Block} {block : Block}
    (h : db.Holds P blocks) (habove : ∀ b ∈ blocks, b.header.height < block.header.height) :
    ((db.saveBlock P true block).getD db).Holds P (blocks ++ [block]) := by
  rw [saveBlock_true hP, Option.getD_some, Holds, List.map_append, ← h]
  apply toList_insert_last
  intro e he
  rw [h, List.mem_map] at he
  obtain ⟨b, hb, rfl⟩ := he
  rw [compare_entry]
  exact compare_lt_iff_lt.mpr (UInt64.lt_iff_toNat_lt.mp (habove b hb))

theorem holds_genesis (hP : P.BincodeRoundTrips) :
    (BlockDb.empty.saveAll P [Block.genesis]).Holds P [Block.genesis] := by
  have hempty : BlockDb.empty.Holds P [] := Std.ExtTreeMap.toList_eq_nil_iff.mpr rfl
  exact holds_saveBlock hP hempty fun b hb => absurd hb List.not_mem_nil

theorem holds_saveAll (hP : P.BincodeRoundTrips) {db : BlockDb} {blocks blocks' : List Block}
    (h : db.Holds P blocks) (hheights : Ascending (blocks ++ blocks')) :
    (db.saveAll P blocks').Holds P (blocks ++ blocks') := by
  induction blocks' generalizing db blocks with
  | nil => rwa [List.append_nil]
  | cons block rest ih =>
    have habove := (List.pairwise_append.mp hheights).2.2
    rw [List.append_cons] at hheights ⊢
    apply ih _ hheights
    exact holds_saveBlock hP h fun b hb => habove b hb block List.mem_cons_self

theorem decode_of_holds (hP : P.BincodeRoundTrips) {db : BlockDb} {blocks : List Block}
    (h : db.Holds P blocks) :
    db.tree.toList.mapM (fun item => P.deserializeBlock item.2) = some blocks := by
  rw [h]
  clear h
  induction blocks with
  | nil => rfl
  | cons block rest ih =>
    rw [List.map_cons, List.mapM_cons, deserialize_entry hP, ih]
    rfl

theorem loadAllBlocks_of_holds (hP : P.BincodeRoundTrips) {db : BlockDb} {blocks : List Block}
    (h : db.Holds P blocks) (hheights : Ascending blocks) : db.loadAllBlocks P = some blocks := by
  have hsorted : blocks.Pairwise fun a b => decide (a.header.height ≤ b.header.height) = true := by
    apply hheights.imp
    intro a b hab
    exact decide_eq_true (UInt64.le_of_lt hab)
  rw [loadAllBlocks, decode_of_holds hP h]
  exact congrArg some (List.mergeSort_of_pairwise hsorted)

end BlockDb

namespace Node

def appends : Node → List Event → List Block
  | _, [] => []
  | n, e :: es => n.appended P e ++ appends (n.step P e) es

structure LiveEqReplay (n : Node) : Prop where
  heights : ∀ i (h : i < n.state.blocks.length), n.state.blocks[i].header.height.toNat = i
  database : n.blockDb.loadAllBlocks P = some n.state.blocks
  ledger : n.state.worldState.ledger = (WorldState.new.applyBlocks P n.state.blocks).ledger
  restart : ∀ saved, (n.step P (.restart saved)).state.blocks = n.state.blocks ∧
    (n.step P (.restart saved)).state.worldState.ledger = n.state.worldState.ledger

structure Consistent (n : Node) : Prop where
  nonempty : n.state.blocks ≠ []
  heights : Contiguous n.state.blocks
  database : n.blockDb.Holds P n.state.blocks
  ledger : n.state.worldState.ledger = (WorldState.new.applyBlocks P n.state.blocks).ledger

variable {P}

theorem restart_of_load {n : Node} {blocks : List Block} (hne : blocks ≠ [])
    (hload : n.blockDb.loadAllBlocks P = some blocks) (saved : Bool) :
    n.step P (.restart saved) = boot P n.validatorIndex n.blockDb blocks := by
  change (start P saved n.validatorIndex n.blockDb).getD n = _
  rw [start, hload]
  cases blocks with
  | nil => exact absurd rfl hne
  | cons block rest => rfl

theorem restart_of_holds (hP : P.BincodeRoundTrips) {n : Node} {blocks : List Block} (hne : blocks ≠ [])
    (h : n.blockDb.Holds P blocks) (hheights : Ascending blocks) (saved : Bool) :
    n.step P (.restart saved) = boot P n.validatorIndex n.blockDb blocks :=
  restart_of_load hne (BlockDb.loadAllBlocks_of_holds hP h hheights) saved

theorem restart_of_consistent (hP : P.BincodeRoundTrips) {n : Node} (h : Consistent P n) (saved : Bool) :
    n.step P (.restart saved) = boot P n.validatorIndex n.blockDb n.state.blocks :=
  restart_of_holds hP h.nonempty h.database h.heights.ascending saved

theorem Consistent.liveEqReplay (hP : P.BincodeRoundTrips) {n : Node} (h : Consistent P n) :
    LiveEqReplay P n where
  heights := h.heights
  database := BlockDb.loadAllBlocks_of_holds hP h.database h.heights.ascending
  ledger := h.ledger
  restart := by
    intro saved
    rw [restart_of_consistent hP h]
    exact ⟨rfl, h.ledger.symm⟩

theorem Consistent.chain (hP : P.BincodeRoundTrips) {n : Node} (h : Consistent P n) (e : Event) :
    (n.step P e).state.blocks = n.state.blocks ++ n.appended P e := by
  cases hr : e.isRestart with
  | true =>
    obtain ⟨saved, rfl⟩ := Event.eq_restart hr
    rw [restart_of_consistent hP h]
    exact (List.append_nil _).symm
  | false => exact (step_grows P n hr).chain

theorem Consistent.contiguous_appended {n : Node} (h : Consistent P n) {e : Event}
    (hlen : (n.state.blocks ++ n.appended P e).length ≤ 2 ^ 64) :
    Contiguous (n.state.blocks ++ n.appended P e) := by
  obtain ⟨tip, htip, hfollows⟩ := tip_follows P h.nonempty e
  exact contiguous_append h.heights htip hfollows hlen

theorem Consistent.step (hP : P.BincodeRoundTrips) {n : Node} {e : Event} (h : Consistent P n)
    (he : e.savesOk) (hlen : (n.state.blocks ++ n.appended P e).length ≤ 2 ^ 64) :
    Consistent P (n.step P e) := by
  have hchain := h.chain hP e
  have hheights := h.contiguous_appended hlen
  refine ⟨?_, ?_, ?_, step_replay h.ledger e⟩
  · rw [hchain]
    exact List.append_ne_nil_of_left_ne_nil h.nonempty _
  · rw [hchain]
    exact hheights
  · cases hr : e.isRestart with
    | true =>
      obtain ⟨saved, rfl⟩ := Event.eq_restart hr
      rw [restart_of_consistent hP h]
      exact h.database
    | false =>
      obtain ⟨kept, _, hall, hdb⟩ := (step_grows P n hr).database
      rw [hchain, hdb, hall he]
      exact BlockDb.holds_saveAll hP h.database hheights.ascending

theorem start_consistent (hP : P.BincodeRoundTrips) {i : Fin 3} {n : Node}
    (h : start P true i .empty = some n) :
    Consistent P n ∧ n.state.blocks.length = 1 := by
  obtain rfl := Option.some.inj (h.symm.trans (start_fresh hP i))
  have hgenesis : Contiguous ([] ++ [Block.genesis]) := by
    rw [contiguous_concat]
    exact ⟨fun i hi => absurd hi (Nat.not_lt_zero i), rfl⟩
  exact ⟨⟨List.cons_ne_nil _ _, hgenesis, BlockDb.holds_genesis hP, rfl⟩, rfl⟩

theorem consistent_run (hP : P.BincodeRoundTrips) {n : Node} {es : List Event} (h : Consistent P n)
    (hsaves : ∀ e ∈ es, e.savesOk) (hlen : n.state.blocks.length + (appends P n es).length ≤ 2 ^ 64) :
    AllStates (step P) (Consistent P) n es := by
  induction es generalizing n with
  | nil => rwa [allStates_nil]
  | cons e es ih =>
    rw [allStates_cons]
    rw [appends, List.length_append] at hlen
    have hnext := h.step hP (hsaves e List.mem_cons_self) (by rw [List.length_append]; omega)
    refine ⟨h, ih hnext (fun e' he' => hsaves e' (List.mem_cons_of_mem _ he')) ?_⟩
    rw [h.chain hP, List.length_append]
    omega

theorem live_eq_replay (hP : P.BincodeRoundTrips) {i : Fin 3} {n : Node}
    (hstart : start P true i .empty = some n) {es : List Event} (hsaves : ∀ e ∈ es, e.savesOk)
    (hcount : (appends P n es).length < 2 ^ 64) :
    AllStates (step P) (LiveEqReplay P) n es := by
  obtain ⟨hn, hlen⟩ := start_consistent hP hstart
  have hrun : AllStates (step P) (Consistent P) n es := consistent_run hP hn hsaves (by omega)
  exact hrun.mono fun _ => Consistent.liveEqReplay hP

section Runs

noncomputable def importRun : List Event :=
  [.message (.newBlock (Block.new .sample 5 1 (Block.genesis.hash .sample) [] Address.zero 1)) .insertion
   fun _ => true, .startProducer, .tick 10 true, .tick 20 true, .restart true]

theorem live_eq_replay_importRun :
    AllStates (step .sample) (LiveEqReplay .sample) (fresh .sample 0) importRun :=
  live_eq_replay sample_roundTrips (start_fresh sample_roundTrips 0)
    (by simp [importRun, Event.savesOk]) (by decide +kernel)

end Runs

end Node

end VelaNetwork
