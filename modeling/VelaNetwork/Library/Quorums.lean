import Mathlib.Data.Finset.Card
import Mathlib.Data.Fintype.Card

namespace Library.Quorums

variable {V : Type*} [DecidableEq V]

def Intersecting (U : Finset V) (q k : ℕ) : Prop :=
  ∀ A ⊆ U, ∀ B ⊆ U, q ≤ A.card → q ≤ B.card → k ≤ (A ∩ B).card

theorem card_add_card_le {U A B : Finset V} (hA : A ⊆ U) (hB : B ⊆ U) :
    A.card + B.card ≤ U.card + (A ∩ B).card := by
  have hunion := Finset.card_le_card (Finset.union_subset hA hB)
  have hsum := Finset.card_union_add_card_inter A B
  omega

theorem intersecting_of_le {U : Finset V} {q k : ℕ} (h : U.card + k ≤ 2 * q) : Intersecting U q k := by
  intro A hA B hB hqA hqB
  have hsum := card_add_card_le hA hB
  omega

theorem exists_least_overlap {U : Finset V} {q : ℕ} (hq : q ≤ U.card) :
    ∃ A ⊆ U, ∃ B ⊆ U, A.card = q ∧ B.card = q ∧ (A ∩ B).card = 2 * q - U.card := by
  obtain ⟨A, hA, hcard⟩ := Finset.exists_subset_card_eq hq
  have hrest : (U \ A).card = U.card - q := by rw [Finset.card_sdiff_of_subset hA, hcard]
  by_cases hhalf : q ≤ U.card - q
  · obtain ⟨B, hB, hcardB⟩ := Finset.exists_subset_card_eq (hrest ▸ hhalf)
    refine ⟨A, hA, B, hB.trans Finset.sdiff_subset, hcard, hcardB, ?_⟩
    have hdisj : A ∩ B = ∅ :=
      Finset.disjoint_iff_inter_eq_empty.mp (Finset.disjoint_of_subset_right hB Finset.disjoint_sdiff)
    rw [hdisj, Finset.card_empty]
    omega
  · obtain ⟨B, hsub, hB, hcardB⟩ :=
      Finset.exists_subsuperset_card_eq (Finset.sdiff_subset (s := U) (t := A)) (n := q) (by omega) hq
    refine ⟨A, hA, B, hB, hcard, hcardB, ?_⟩
    have hunion : A ∪ B = U := by
      apply Finset.Subset.antisymm (Finset.union_subset hA hB)
      intro x hx
      by_cases hxA : x ∈ A
      · exact Finset.mem_union_left _ hxA
      · exact Finset.mem_union_right _ (hsub (Finset.mem_sdiff.mpr ⟨hx, hxA⟩))
    have hsum := Finset.card_union_add_card_inter A B
    rw [hunion] at hsum
    omega

theorem intersecting_iff {U : Finset V} {q k : ℕ} (hq : q ≤ U.card) (hk : 0 < k) :
    Intersecting U q k ↔ U.card + k ≤ 2 * q := by
  constructor
  · intro h
    obtain ⟨A, hA, B, hB, hcardA, hcardB, hinter⟩ := exists_least_overlap hq
    have hle := h A hA B hB hcardA.ge hcardB.ge
    omega
  · exact intersecting_of_le

theorem Intersecting.exists_correct {U A B faulty : Finset V} {q k : ℕ} (h : Intersecting U q k)
    (hA : A ⊆ U) (hB : B ⊆ U) (hqA : q ≤ A.card) (hqB : q ≤ B.card) (hf : faulty.card < k) :
    ∃ p, p ∈ A ∧ p ∈ B ∧ p ∉ faulty := by
  have hlt : faulty.card < (A ∩ B).card := hf.trans_le (h A hA B hB hqA hqB)
  obtain ⟨p, hp, hpf⟩ := Finset.exists_mem_notMem_of_card_lt_card hlt
  exact ⟨p, (Finset.mem_inter.mp hp).1, (Finset.mem_inter.mp hp).2, hpf⟩

section Voting

variable {X : Type*} (U faulty : Finset V)

/-- A quorum of members stands behind `x`: each of them that is correct has voted for it. -/
def Certified (q : ℕ) (voted : V → X → Prop) (x : X) : Prop :=
  ∃ Q ⊆ U, q ≤ Q.card ∧ ∀ p ∈ Q, p ∉ faulty → voted p x

variable {U faulty} {voted voted' : V → X → Prop}

omit [DecidableEq V] in
theorem Certified.imp {q : ℕ} {x : X} (hv : ∀ p ∉ faulty, voted p x → voted' p x)
    (h : Certified U faulty q voted x) : Certified U faulty q voted' x := by
  obtain ⟨Q, hQ, hcard, hvotes⟩ := h
  exact ⟨Q, hQ, hcard, fun p hp hpf => hv p hpf (hvotes p hp hpf)⟩

theorem certified_unique {q k : ℕ} (hq : Intersecting U q k) (hf : faulty.card < k)
    (hsingle : ∀ p ∉ faulty, ∀ x y, voted p x → voted p y → x = y) {x y : X}
    (hx : Certified U faulty q voted x) (hy : Certified U faulty q voted y) : x = y := by
  obtain ⟨A, hA, hcardA, hvotesA⟩ := hx
  obtain ⟨B, hB, hcardB, hvotesB⟩ := hy
  obtain ⟨p, hpA, hpB, hpf⟩ := hq.exists_correct hA hB hcardA hcardB hf
  exact hsingle p hpf x y (hvotesA p hpA hpf) (hvotesB p hpB hpf)

end Voting

end Library.Quorums
