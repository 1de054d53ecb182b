import Mathlib.Data.Finset.Card
import Mathlib.Data.Finset.Insert
import Mathlib.Data.List.Infix

namespace Library.Ballots

variable {V : Type*} [DecidableEq V]

/-- The voters of the list, in order, can be cut in two so that each part has `q` different ones. -/
def TwoQuorums (q : ℕ) (as : List V) : Prop :=
  ∃ pre post, as = pre ++ post ∧ q ≤ pre.toFinset.card ∧ q ≤ post.toFinset.card

structure FirstQuorum (q : ℕ) (pre : List V) : Prop where
  reached : q ≤ pre.toFinset.card
  first : ∀ p, p <+: pre → p ≠ pre → p.toFinset.card < q

variable {q : ℕ} {as bs pre post : List V}

theorem card_toFinset_mono (h : as ⊆ bs) : as.toFinset.card ≤ bs.toFinset.card := by
  apply Finset.card_le_card
  intro a ha
  exact List.mem_toFinset.mpr (h (List.mem_toFinset.mp ha))

theorem toFinset_concat (as : List V) (a : V) : (as ++ [a]).toFinset = insert a as.toFinset := by
  ext x
  simp

instance (q : ℕ) (as : List V) : Decidable (TwoQuorums q as) :=
  decidable_of_iff (∃ k < as.length + 1, q ≤ (as.take k).toFinset.card ∧ q ≤ (as.drop k).toFinset.card) (by
    constructor
    · rintro ⟨k, _, hpre, hpost⟩
      exact ⟨as.take k, as.drop k, (List.take_append_drop k as).symm, hpre, hpost⟩
    · rintro ⟨pre, post, rfl, hpre, hpost⟩
      refine ⟨pre.length, by rw [List.length_append]; omega, ?_, ?_⟩
      · rwa [List.take_left]
      · rwa [List.drop_left])

theorem not_twoQuorums_of_card_lt (h : as.toFinset.card < q) : ¬ TwoQuorums q as := by
  rintro ⟨pre, post, rfl, hpre, _⟩
  exact absurd (hpre.trans (card_toFinset_mono (List.subset_append_left pre post))) (Nat.not_le.mpr h)

theorem firstQuorum_concat {a : V} (h : as.toFinset.card < q) (hreached : q ≤ (as ++ [a]).toFinset.card) :
    FirstQuorum q (as ++ [a]) := by
  refine ⟨hreached, ?_⟩
  intro p hp hne
  have hshort : p <+: as := (List.prefix_concat_iff.mp hp).resolve_left hne
  exact Nat.lt_of_le_of_lt (card_toFinset_mono hshort.subset) h

theorem not_twoQuorums_of_first (hpre : FirstQuorum q pre) (hpost : post.toFinset.card < q) :
    ¬ TwoQuorums q (pre ++ post) := by
  rintro ⟨p, s, heq, hp, hs⟩
  have hlong : pre <+: p := by
    rcases List.prefix_or_prefix_of_prefix (List.prefix_append pre post)
      (heq ▸ List.prefix_append p s) with h | h
    · exact h
    · by_cases hsame : p = pre
      · rw [hsame]
      · exact absurd hp (Nat.not_le.mpr (hpre.first p h hsame))
  obtain ⟨more, rfl⟩ := hlong
  rw [List.append_assoc, List.append_cancel_left_eq] at heq
  rw [heq] at hpost
  exact absurd (hs.trans (card_toFinset_mono (List.subset_append_right more s))) (Nat.not_le.mpr hpost)

theorem FirstQuorum.unique {more more' : List V} (h : FirstQuorum q pre) (h' : FirstQuorum q post)
    (heq : pre ++ more = post ++ more') : pre = post := by
  have hshorter : ∀ {p s : List V}, FirstQuorum q p → FirstQuorum q s → p <+: s → p = s := by
    intro p s hp hs hle
    by_contra hne
    have hfew := hs.first p hle hne
    have := hp.reached
    omega
  rcases List.prefix_or_prefix_of_prefix (List.prefix_append pre more)
    (heq ▸ List.prefix_append post more') with hle | hle
  · exact hshorter h h' hle
  · exact (hshorter h' h hle).symm

section Keyed

variable {α : Type*} (key : α → V)

/-- The list is cut into the shortest segments with `q` different keys each; what is left has fewer. -/
structure Cut (q : ℕ) (xs : List α) (segments : List (List α)) (rest : List α) : Prop where
  whole : xs = segments.flatten ++ rest
  quorums : ∀ s ∈ segments, FirstQuorum q (s.map key)
  short : (rest.map key).toFinset.card < q

def LastOf (xs : List α) (x : α) : Prop :=
  ∃ before behind, xs = before ++ x :: behind ∧ ∀ y ∈ behind, key y ≠ key x

variable {key} {xs rest more : List α} {segments segments' : List (List α)}

theorem Cut.isPrefix (h : Cut key q xs segments rest) (hquorums : ∀ s ∈ segments', FirstQuorum q (s.map key))
    (hwhole : xs = segments'.flatten ++ more) : segments' <+: segments := by
  induction segments' generalizing xs segments with
  | nil => exact List.nil_prefix
  | cons s segments' ih =>
    have hs : FirstQuorum q (s.map key) := hquorums s List.mem_cons_self
    have heq := h.whole.symm.trans hwhole
    cases segments with
    | nil =>
      have hshort := h.short
      have hle : (s.map key).toFinset.card ≤ (rest.map key).toFinset.card := by
        apply card_toFinset_mono
        rw [show rest = _ from heq]
        simp
      have := hs.reached
      omega
    | cons s₀ segments =>
      have hs₀ : FirstQuorum q (s₀.map key) := h.quorums s₀ List.mem_cons_self
      simp only [List.flatten_cons, List.append_assoc] at heq
      have hlength : s₀.length = s.length := by
        have hkeys := congrArg (List.map key) heq
        simp only [List.map_append] at hkeys
        simpa using congrArg List.length (hs₀.unique hs hkeys)
      obtain ⟨rfl, htail⟩ := List.append_inj heq hlength
      have hcut : Cut key q (segments.flatten ++ rest) segments rest :=
        ⟨rfl, fun t ht => h.quorums t (List.mem_cons_of_mem _ ht), h.short⟩
      exact (List.prefix_cons_inj _).mpr (ih hcut (fun t ht => hquorums t (List.mem_cons_of_mem _ ht)) htail)

theorem cut_nil (hq : 0 < q) : Cut key q [] [] [] := ⟨rfl, by simp, by simpa⟩

theorem Cut.concat (h : Cut key q xs segments rest) (x : α) :
    (((rest ++ [x]).map key).toFinset.card < q ∧ Cut key q (xs ++ [x]) segments (rest ++ [x])) ∨
      (FirstQuorum q ((rest ++ [x]).map key) ∧ Cut key q (xs ++ [x]) (segments ++ [rest ++ [x]]) []) := by
  by_cases hfew : ((rest ++ [x]).map key).toFinset.card < q
  · refine Or.inl ⟨hfew, ?_, h.quorums, hfew⟩
    rw [h.whole, List.append_assoc]
  · have hfirst : FirstQuorum q ((rest ++ [x]).map key) := by
      rw [List.map_append] at hfew ⊢
      exact firstQuorum_concat h.short (Nat.not_lt.mp hfew)
    refine Or.inr ⟨hfirst, ?_, ?_, ?_⟩
    · rw [h.whole]
      simp
    · intro s hs
      rcases List.mem_append.mp hs with hold | hnew
      · exact h.quorums s hold
      · rwa [List.mem_singleton.mp hnew]
    · have := h.short
      simp only [List.map_nil, List.toFinset_nil, Finset.card_empty]
      omega

omit [DecidableEq V] in
theorem lastOf_nil (x : α) : ¬ LastOf key [] x := by
  rintro ⟨before, behind, h, _⟩
  simp at h

omit [DecidableEq V] in
theorem lastOf_concat (xs : List α) (a x : α) :
    LastOf key (xs ++ [a]) x ↔ x = a ∨ LastOf key xs x ∧ key a ≠ key x := by
  constructor
  · rintro ⟨before, behind, h, hbehind⟩
    rcases List.eq_nil_or_concat behind with rfl | ⟨init, last, rfl⟩
    · obtain ⟨rfl, hlast⟩ := List.append_inj' h rfl
      exact Or.inl (by simpa using hlast.symm)
    · rw [List.concat_eq_append, ← List.cons_append, ← List.append_assoc] at h
      obtain ⟨rfl, hlast⟩ := List.append_inj' h rfl
      obtain rfl : a = last := by simpa using hlast
      refine Or.inr ⟨⟨before, init, rfl, ?_⟩, hbehind _ (by simp)⟩
      intro y hy
      exact hbehind y (by simp [hy])
  · rintro (rfl | ⟨⟨before, behind, rfl, hbehind⟩, hne⟩)
    · exact ⟨xs, [], rfl, by simp⟩
    · refine ⟨before, behind ++ [a], by simp, ?_⟩
      intro y hy
      rcases List.mem_append.mp hy with hold | hnew
      · exact hbehind y hold
      · rwa [List.mem_singleton.mp hnew]

end Keyed

end Library.Ballots
