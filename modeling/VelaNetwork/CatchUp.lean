import VelaNetwork.InTurn
import VelaNetwork.Sync
import VelaNetwork.Sending

namespace VelaNetwork

open Library.Runs

variable (P : Primitives)

theorem Contiguous.take {blocks : List Block} (h : Contiguous blocks) (k : ℕ) :
    Contiguous (blocks.take k) := by
  intro i hi
  rw [List.getElem_take]
  exact h i _

namespace Cluster

def slice (c : Cluster) (first last : ℕ) : List Block := (c.known.take last).drop first

def SlicesSent (c : Cluster) : Prop := ∀ blocks, .syncResponse blocks ∈ c.sent → ∃ first last,
  last ≤ c.known.length ∧ blocks = c.slice first last

structure SyncsOneLog (c : Cluster) (x : Fin 3 × Event) : Prop where
  asks : ∀ fromHeight, .syncRequest fromHeight ∈ (c.node x.1).sends P x.2 →
    fromHeight.toNat + 1 = (c.node x.1).state.blocks.length
  answers : ∀ fromHeight order saves, x.2 = .message (.syncRequest fromHeight) order saves →
    (c.node x.1).sends P x.2 =
    if fromHeight.toNat + 1 < (c.node x.1).state.blocks.length
    then [.syncResponse (c.slice (fromHeight.toNat + 1) (c.node x.1).state.blocks.length)] else []
  imports : ∀ blocks order saves, x.2 = .message (.syncResponse blocks) order saves → ∃ first last,
    last ≤ c.known.length ∧ blocks = c.slice first last ∧ ((c.step P x).node x.1).state.blocks =
      if first ≤ (c.node x.1).state.blocks.length then c.known.take
        (max (c.node x.1).state.blocks.length last)
      else (c.node x.1).state.blocks

end Cluster

namespace Node

variable {P}

theorem accepted_eq_nil {tip : UInt64} {blocks : List Block}
    (h : ∀ block ∈ blocks, block.header.height ≠ tip + 1) :
    accepted tip blocks = [] := by
  induction blocks with
  | nil => rfl
  | cons block rest ih =>
    rw [accepted, if_neg (h block List.mem_cons_self)]
    exact ih fun b hb => h b (List.mem_cons_of_mem _ hb)

end Node

namespace Cluster

variable {P} {c : Cluster} {x : Fin 3 × Event}

theorem TookTurns.tipHeight (h : TookTurns P c) (i : Fin 3) :
    (c.node i).tipHeight = UInt64.ofNat ((c.node i).state.blocks.length - 1) := by
  obtain ⟨tip, htip⟩ := Option.isSome_iff_exists.mp (List.getLast?_isSome.mpr (h.consistent i).nonempty)
  rw [Node.tipHeight_eq htip, ← (h.consistent i).heights.last htip, Nat.add_sub_cancel, UInt64.ofNat_toNat]

theorem mem_slice_height (h : TookTurns P c) {first last : ℕ} {block : Block}
    (hblock : block ∈ c.slice first last) :
    first ≤ block.header.height.toNat ∧ block.header.height.toNat < last := by
  obtain ⟨i, hi, rfl⟩ := List.mem_drop_iff_getElem.mp hblock
  have hlength := hi
  rw [List.length_take] at hlength
  rw [h.contiguous.take last (first + i) (by omega)]
  omega

theorem TookTurns.accepted_slice (h : TookTurns P c) (i : Fin 3) {first last : ℕ}
    (hlast : last ≤ c.known.length) :
    (c.node i).state.blocks ++ Node.accepted (c.node i).tipHeight (c.slice first last) =
      if first ≤ (c.node i).state.blocks.length then c.known.take (max (c.node i).state.blocks.length last)
      else (c.node i).state.blocks := by
  have hpos : 0 < (c.node i).state.blocks.length := List.length_pos_iff.mpr (h.consistent i).nonempty
  have hle := h.length_le i
  have hbound := h.bounded
  have hchain : (c.node i).state.blocks = c.known.take (c.node i).state.blocks.length := h.chain_eq i
  have htip : ((c.node i).tipHeight + 1).toNat = (c.node i).state.blocks.length := by
    have hlt : (c.node i).state.blocks.length - 1 < c.known.length := by omega
    rw [h.tipHeight i, UInt64.toNat_add, UInt64.toNat_one,
      UInt64.toNat_ofNat_of_lt' (Nat.lt_trans hlt hbound)]
    omega
  have hnone : ((c.node i).state.blocks.length < first ∨ last ≤ (c.node i).state.blocks.length) →
      Node.accepted (c.node i).tipHeight (c.slice first last) = [] := by
    intro hout
    apply Node.accepted_eq_nil
    intro block hblock hnext
    have hheight := mem_slice_height h hblock
    rw [hnext, htip] at hheight
    omega
  by_cases hfirst : first ≤ (c.node i).state.blocks.length
  · rw [if_pos hfirst]
    by_cases hbeyond : (c.node i).state.blocks.length < last
    · have hlength : (c.known.take last).length = last := by
        rw [List.length_take]
        omega
      have hslice := (h.contiguous.take last).accepted_drop (by omega)
        (show (c.node i).state.blocks.length - 1 < (c.known.take last).length by omega)
        (show first ≤ (c.node i).state.blocks.length - 1 + 1 by omega)
      rw [slice, h.tipHeight i, hslice, Nat.sub_add_cancel hpos, Nat.max_eq_right (Nat.le_of_lt hbeyond)]
      conv_lhs => rw [hchain]
      rw [List.length_take, Nat.min_eq_left hle]
      conv_rhs => rw [← List.take_append_drop (c.node i).state.blocks.length (c.known.take last)]
      rw [List.take_take, Nat.min_eq_left (Nat.le_of_lt hbeyond)]
    · rw [hnone (Or.inr (Nat.le_of_not_lt hbeyond)), List.append_nil,
        Nat.max_eq_left (Nat.le_of_not_lt hbeyond)]
      exact hchain
  · rw [if_neg hfirst, hnone (Or.inl (Nat.lt_of_not_le hfirst)), List.append_nil]

theorem TookTurns.filter_above (h : TookTurns P c) (i : Fin 3) (fromHeight : UInt64) :
    (c.node i).state.blocks.filter (fun b => fromHeight < b.header.height) =
      c.slice (fromHeight.toNat + 1) (c.node i).state.blocks.length := by
  rw [(h.consistent i).heights.filter_above]
  exact congrArg (List.drop (fromHeight.toNat + 1)) (h.chain_eq i)

theorem TookTurns.answers (h : TookTurns P c) (i : Fin 3) (fromHeight : UInt64) (order : IterOrder)
    (saves : ℕ → Bool) :
    (c.node i).sends P (.message (.syncRequest fromHeight) order saves) =
      if fromHeight.toNat + 1 < (c.node i).state.blocks.length
      then [.syncResponse (c.slice (fromHeight.toNat + 1) (c.node i).state.blocks.length)] else [] := by
  change ((c.node i).handleSyncRequest fromHeight).2 = _
  unfold Node.handleSyncRequest
  rw [h.filter_above i fromHeight]
  dsimp only
  have hle := h.length_le i
  have hempty : (c.slice (fromHeight.toNat + 1) (c.node i).state.blocks.length).isEmpty = true ↔
      ¬ fromHeight.toNat + 1 < (c.node i).state.blocks.length := by
    rw [List.isEmpty_iff, slice, List.drop_eq_nil_iff, List.length_take, Nat.min_eq_left hle, Nat.not_lt]
  by_cases hmore : fromHeight.toNat + 1 < (c.node i).state.blocks.length
  · rw [if_pos hmore, if_neg fun hnone => hempty.mp hnone hmore]
  · rw [if_neg hmore, if_pos (hempty.mpr hmore)]

theorem slice_step {first last : ℕ} (hlast : last ≤ c.known.length) :
    (c.step P x).slice first last = c.slice first last := by
  rw [slice, known_step, List.take_append_of_le_length hlast]
  rfl

theorem SlicesSent.step (h : TookTurns P c) (hslices : c.SlicesSent) : (c.step P x).SlicesSent := by
  intro blocks hsent
  have hgrown : c.known.length ≤ (c.step P x).known.length := by
    rw [known_step, List.length_append]
    exact Nat.le_add_right _ _
  rcases List.mem_append.mp hsent with hold | hnew
  · obtain ⟨first, last, hlast, hblocks⟩ := hslices blocks hold
    exact ⟨first, last, Nat.le_trans hlast hgrown, by rw [slice_step hlast, hblocks]⟩
  · obtain ⟨i, e⟩ := x
    cases Node.sends_cases hnew with
    | responds fromHeight order saves =>
      have hle := h.length_le i
      refine ⟨fromHeight.toNat + 1, (c.node i).state.blocks.length, Nat.le_trans hle hgrown, ?_⟩
      rw [slice_step hle]
      exact h.filter_above i fromHeight

theorem TookTurns.asks (h : TookTurns P c) {fromHeight : UInt64}
    (hsent : .syncRequest fromHeight ∈ (c.node x.1).sends P x.2) :
    fromHeight.toNat + 1 = (c.node x.1).state.blocks.length := by
  have hpos : 0 < (c.node x.1).state.blocks.length := List.length_pos_iff.mpr (h.consistent x.1).nonempty
  have hle := h.length_le x.1
  have hlt : (c.node x.1).state.blocks.length - 1 < c.known.length := by omega
  obtain ⟨i, e⟩ := x
  cases Node.sends_cases hsent with
  | requests hdue =>
    rw [h.tipHeight i, UInt64.toNat_ofNat_of_lt' (Nat.lt_trans hlt h.bounded)]
    exact Nat.sub_add_cancel hpos

theorem TookTurns.syncs (hP : P.BincodeRoundTrips) (h : TookTurns P c) (hslices : c.SlicesSent)
    (hx : c.Gossiped x) :
    c.SyncsOneLog P x := by
  refine ⟨fun fromHeight hsent => h.asks hsent,
    fun fromHeight order saves he => ?_, fun blocks order saves he => ?_⟩
  · rw [he]
    exact h.answers x.1 fromHeight order saves
  · obtain ⟨i, e⟩ := x
    obtain rfl : e = _ := he
    obtain ⟨first, last, hlast, rfl⟩ := hslices blocks hx
    refine ⟨first, last, hlast, rfl, ?_⟩
    rw [← h.accepted_slice i hlast, step_node_self, (h.consistent i).chain hP]
    exact congrArg _ (List.append_nil _)

theorem sync_reads_one_log (P : Primitives) (hP : P.BincodeRoundTrips) (xs : List (Fin 3 × Event))
    (hgossip : AllSteps (step P) Gossiped (init P) xs)
    (hrecorded : AllSteps (step P) (Recorded P) (init P) xs)
    (hturns : AllSteps (step P) (TakesItsTurn P) (init P) xs) :
    AllSteps (step P) (SyncsOneLog P) (init P) xs := by
  have hall : AllSteps (step P) (fun c x => c.Gossiped x ∧ Recorded P c x ∧ c.TakesItsTurn P x) (init P) xs :=
    allSteps_and.mpr ⟨hgossip, allSteps_and.mpr ⟨hrecorded, hturns⟩⟩
  have hkeep : ∀ c x, TookTurns P c ∧ c.SlicesSent → (c.Gossiped x ∧ Recorded P c x ∧ c.TakesItsTurn P x) →
      TookTurns P (c.step P x) ∧ (c.step P x).SlicesSent := by
    rintro c x ⟨h, hslices⟩ ⟨hx, hr, ht⟩
    exact ⟨h.step hP hx hr ht, hslices.step h⟩
  have hinit : TookTurns P (init P) ∧ (init P).SlicesSent :=
    ⟨init_tookTurns hP, fun _ hsent => absurd hsent List.not_mem_nil⟩
  exact allSteps_of_invariant hkeep (fun _ _ h hx => h.1.syncs hP h.2 hx.1) hinit hall

section Runs

noncomputable def lateNode : List (Fin 3 × Event) :=
  [(1, .startProducer), (1, .tick 10 true), (0, .requestSync),
   (1, .message (.syncRequest 0) .insertion fun _ => true),
   (0, .message (.syncResponse [blockOfOne]) .insertion fun _ => true)]

theorem lateNode_recorded : AllSteps (step .sample) (Recorded .sample) (init .sample) lateNode := by
  refine ⟨?_, ?_, ?_, ?_, ?_, trivial⟩ <;> exact ⟨by simp [Event.savesOk], by decide +kernel⟩

theorem sync_reads_one_log_lateNode : AllSteps (step .sample) (SyncsOneLog .sample) (init .sample) lateNode :=
  sync_reads_one_log .sample sample_roundTrips lateNode (by decide +kernel)
    lateNode_recorded (by decide +kernel)

example : ((run (step .sample) (init .sample) lateNode).node 0).state.blocks =
    [Block.genesis, blockOfOne] := by decide +kernel

end Runs

end Cluster

end VelaNetwork
