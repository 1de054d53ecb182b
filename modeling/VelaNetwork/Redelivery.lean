import VelaNetwork.Holdings
import VelaNetwork.Replay

namespace VelaNetwork

open Library.Runs

variable (P : Primitives)

def Numbered (first : ℕ) (blocks : List Block) : Prop :=
  ∀ k (h : k < blocks.length), blocks[k].header.height.toNat = first + k

theorem Numbered.tail {first : ℕ} {block : Block} {rest : List Block} (h : Numbered first (block :: rest)) :
    Numbered (first + 1) rest := by
  intro k hk
  have hnext := h (k + 1) (Nat.succ_lt_succ hk)
  rw [List.getElem_cons_succ] at hnext
  omega

namespace Node

structure Reaches (n : Node) (msg : NetworkMessage) : Prop where
  carries : msg.blocks ≠ []
  numbered : ∃ first ≤ n.state.blocks.length, Numbered first msg.blocks

structure Roomy (n : Node) (e : Event) : Prop where
  saves : e.savesOk
  room : (n.state.blocks ++ n.appended P e).length < 2 ^ 64

structure Covers (count : ℕ) (n : Node) : Prop extends Consistent P n where
  count : count ≤ n.state.blocks.length
  spare : n.state.blocks.length < 2 ^ 64

variable {P} {n : Node} {count : ℕ}

theorem Covers.next_height (h : Covers P count n) : (n.tipHeight + 1).toNat = n.state.blocks.length := by
  obtain ⟨tip, htip⟩ := Option.isSome_iff_exists.mp (List.getLast?_isSome.mpr h.nonempty)
  have hlast := h.heights.last htip
  have hspare := h.spare
  rw [tipHeight_eq htip, UInt64.toNat_add, UInt64.toNat_one]
  omega

theorem Covers.step (hP : P.BincodeRoundTrips) (h : Covers P count n) {e : Event} (he : n.Roomy P e) :
    Covers P count (n.step P e) := by
  have hchain := h.chain hP e
  have hcount := h.count
  have hroom := he.room
  refine ⟨h.toConsistent.step hP he.saves (Nat.le_of_lt hroom), ?_, ?_⟩
  · rw [hchain, List.length_append]
    omega
  · rwa [hchain]

theorem importBlocks_old (saves : ℕ → Bool) {blocks : List Block}
    (h : ∀ block ∈ blocks, block.header.height ≠ n.tipHeight + 1) :
    n.importBlocks P saves blocks = n := by
  induction blocks generalizing saves with
  | nil => rfl
  | cons block rest ih =>
    rw [importBlocks, if_neg (h block List.mem_cons_self)]
    exact ih _ fun b hb => h b (List.mem_cons_of_mem block hb)

theorem Covers.ignores (h : Covers P count n) {msg : NetworkMessage} (hcarries : msg.blocks ≠ [])
    (hold : ∀ block ∈ msg.blocks, block.header.height.toNat < count) (order : IterOrder) (saves : ℕ → Bool) :
    n.step P (.message msg order saves) = n ∧ n.sends P (.message msg order saves) = [] := by
  have hnext : ∀ block ∈ msg.blocks, block.header.height ≠ n.tipHeight + 1 := by
    intro block hblock hheight
    have hlt := hold block hblock
    have hcount := h.count
    rw [hheight, h.next_height] at hlt
    omega
  cases msg with
  | newBlock block =>
    constructor
    · rw [step_newBlock]
      exact importBlocks_old saves hnext
    · change (n.handleNewBlock P (saves 0) block).2 = []
      unfold handleNewBlock
      rw [if_neg (hnext block (List.mem_singleton_self block))]
  | syncResponse blocks => exact ⟨importBlocks_old saves hnext, rfl⟩
  | _ => exact absurd rfl hcarries

theorem accepted_reaches {tip : UInt64} {first length : ℕ} {blocks : List Block}
    (htip : (tip + 1).toNat = length) (hnumbered : Numbered first blocks) (hfirst : first ≤ length)
    (hroom : length + (accepted tip blocks).length < 2 ^ 64) :
    first + blocks.length ≤ length + (accepted tip blocks).length := by
  induction blocks generalizing tip first length with
  | nil => exact Nat.le_trans hfirst (Nat.le_add_right _ _)
  | cons block rest ih =>
    have hheight : block.header.height.toNat = first := hnumbered 0 (Nat.succ_pos _)
    rw [accepted] at hroom ⊢
    by_cases hnext : block.header.height = tip + 1
    · rw [if_pos hnext, List.length_cons] at hroom
      rw [if_pos hnext, List.length_cons, List.length_cons]
      have hsame : first = length := by
        rw [← hheight, hnext, htip]
      have hbehind : (block.header.height + 1).toNat = length + 1 := by
        rw [UInt64.toNat_add, UInt64.toNat_one]
        omega
      have hrest := ih hbehind hnumbered.tail (by omega) (by omega)
      omega
    · rw [if_neg hnext] at hroom
      rw [if_neg hnext, List.length_cons]
      have hbefore : first ≠ length := by
        intro hsame
        apply hnext
        rw [← UInt64.toNat_inj, hheight, hsame, htip]
      have hrest := ih htip hnumbered.tail (by omega) hroom
      omega

theorem imported_blocks (msg : NetworkMessage) (order : IterOrder) (saves : ℕ → Bool) :
    n.imported (.message msg order saves) = accepted n.tipHeight msg.blocks := by
  cases msg <;> rfl

theorem Covers.reached (hP : P.BincodeRoundTrips) (h : Covers P count n) {msg : NetworkMessage}
    {order : IterOrder} {saves : ℕ → Bool} (he : n.Roomy P (.message msg order saves)) {first : ℕ}
    (hfirst : first ≤ n.state.blocks.length) (hnumbered : Numbered first msg.blocks) :
    Covers P (first + msg.blocks.length) (n.step P (.message msg order saves)) := by
  have hstep := h.step hP he
  have happended : n.appended P (.message msg order saves) = accepted n.tipHeight msg.blocks :=
    (List.append_nil _).trans (imported_blocks msg order saves)
  have hroom := he.room
  rw [happended, List.length_append] at hroom
  refine ⟨hstep.toConsistent, ?_, hstep.spare⟩
  rw [h.chain hP, happended, List.length_append]
  exact accepted_reaches h.next_height hnumbered hfirst hroom

theorem late_copies_ignored (P : Primitives) (hP : P.BincodeRoundTrips) {i : Fin 3} {n : Node}
    (hstart : start P true i .empty = some n) {before after : List Event} {msg : NetworkMessage}
    {order : IterOrder} {saves : ℕ → Bool}
    (hrecorded : AllSteps (step P) (Roomy P) n (before ++ .message msg order saves :: after))
    (hreaches : (run (step P) n before).Reaches msg) :
    AllStates (step P) (fun n' => ∀ order' saves', n'.step P (.message msg order' saves') = n' ∧
      n'.sends P (.message msg order' saves') = [])
        ((run (step P) n before).step P (.message msg order saves)) after := by
  obtain ⟨hconsistent, hlength⟩ := start_consistent hP hstart
  have hfirst : Covers P 0 n := ⟨hconsistent, Nat.zero_le _, by omega⟩
  obtain ⟨hbefore, hmsg, hafter⟩ := allSteps_append.mp hrecorded
  obtain ⟨first, hbegins, hnumbered⟩ := hreaches.numbered
  have hhandled :=
    (invariant (fun _ _ h he => h.step hP he) hfirst hbefore).last.reached hP hmsg hbegins hnumbered
  refine (invariant (fun _ _ h he => h.step hP he) hhandled hafter).mono fun n' h order' saves' => ?_
  apply h.ignores hreaches.carries
  intro block hblock
  obtain ⟨k, hk, rfl⟩ := List.mem_iff_getElem.mp hblock
  rw [hnumbered k hk]
  omega

section Runs

noncomputable def blockAbove : NetworkMessage :=
  .newBlock (Block.new .sample 5 1 (Block.genesis.hash .sample) [] Address.zero 1)

theorem late_copies_ignored_blockAbove : AllStates (step .sample) (fun n' => ∀ order' saves',
      n'.step .sample (.message blockAbove order' saves') = n' ∧
        n'.sends .sample (.message blockAbove order' saves') = [])
    ((fresh .sample 0).step .sample (.message blockAbove .insertion fun _ => true))
    [.startProducer, .tick 10 true, .tick 20 true, .restart true] := by
  have hrecorded : AllSteps (step .sample) (Roomy .sample) (fresh .sample 0)
      ([] ++ .message blockAbove .insertion (fun _ => true) ::
        [.startProducer, .tick 10 true, .tick 20 true, .restart true]) := by
    refine ⟨?_, ?_, ?_, ?_, ?_, trivial⟩ <;> exact ⟨by simp [Event.savesOk], by decide +kernel⟩
  have hreaches : (run (step .sample) (fresh .sample 0) []).Reaches blockAbove := by
    refine ⟨List.cons_ne_nil _ _, 1, by decide +kernel, fun k hk => ?_⟩
    obtain rfl := Nat.lt_one_iff.mp hk
    rfl
  exact late_copies_ignored .sample sample_roundTrips (start_fresh sample_roundTrips 0) hrecorded hreaches

end Runs

end Node

end VelaNetwork
