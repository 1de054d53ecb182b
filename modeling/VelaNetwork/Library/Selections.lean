import Mathlib.Data.List.Perm.Basic
import Mathlib.Order.Lattice

namespace Library.Selections

variable {α β : Type*} [DecidableEq α] [LinearOrder β]

def Prefers (key : α → β) (pool selected : List α) : Prop :=
  ∀ a ∈ selected, ∀ b ∈ pool.diff selected, key b ≤ key a

variable {key : α → β} {pool order selected rest : List α} {k : ℕ}

omit [LinearOrder β] in
theorem append_diff_cancel (selected rest : List α) : (selected ++ rest).diff selected = rest := by
  induction selected with
  | nil => rfl
  | cons a selected ih => rw [List.cons_append, List.diff_cons, List.erase_cons_head, ih]

theorem prefers_iff (h : pool.Perm (selected ++ rest)) :
    Prefers key pool selected ↔ ∀ a ∈ selected, ∀ b ∈ rest, key b ≤ key a := by
  have hleft : (pool.diff selected).Perm rest := by
    rw [← append_diff_cancel selected rest]
    exact h.diff_right selected
  apply forall₂_congr
  intro a _
  exact forall_congr' fun b => by rw [hleft.mem_iff]

theorem prefers_take_iff (h : order.Perm pool) :
    Prefers key pool (order.take k) ↔ ∀ a ∈ order.take k, ∀ b ∈ order.drop k, key b ≤ key a := by
  apply prefers_iff
  rw [List.take_append_drop]
  exact h.symm

omit [LinearOrder β] in
theorem exists_order {a b : α} (ha : a ∈ pool) (hb : b ∈ pool) (hne : a ≠ b) :
    ∃ between, (a :: between ++ [b]).Perm pool := by
  have hrest : b ∈ pool.erase a := (List.mem_erase_of_ne hne.symm).mpr hb
  refine ⟨(pool.erase a).erase b, ?_⟩
  calc
    (a :: (pool.erase a).erase b ++ [b]).Perm (a :: b :: (pool.erase a).erase b) :=
      (List.perm_append_singleton b _).cons a
    _ |>.Perm (a :: pool.erase a) := (List.perm_cons_erase hrest).symm.cons a
    _ |>.Perm pool := (List.perm_cons_erase ha).symm

omit [DecidableEq α] [LinearOrder β] in
theorem exists_take_iff : (∃ order : List α, order.Perm pool ∧ order.take k = selected) ↔
    selected.Subperm pool ∧ selected.length = min k pool.length := by
  constructor
  · rintro ⟨order, horder, rfl⟩
    refine ⟨(List.take_sublist k order).subperm.trans horder.subperm, ?_⟩
    rw [List.length_take, horder.length_eq]
  · rintro ⟨⟨part, hpart, hsub⟩, hlength⟩
    obtain ⟨rest, hrest⟩ := hsub.exists_perm_append
    have horder : (selected ++ rest).Perm pool := (hpart.symm.append_right rest).trans hrest.symm
    refine ⟨selected ++ rest, horder, ?_⟩
    have hall := horder.length_eq
    rw [List.length_append] at hall
    rcases Nat.le_total k pool.length with hk | hk
    · rw [List.take_append_of_le_length (by omega), List.take_of_length_le (by omega)]
    · have hnil : rest = [] := List.length_eq_zero_iff.mp (by omega)
      rw [hnil, List.append_nil, List.take_of_length_le (by omega)]

theorem prefers_every_order_iff : (∀ order : List α, order.Perm pool → Prefers key pool (order.take k)) ↔
    k = 0 ∨ pool.length ≤ k ∨ ∀ a ∈ pool, ∀ b ∈ pool, key b ≤ key a := by
  constructor
  · intro hall
    by_contra hnone
    obtain ⟨hpos, hfew, hkeys⟩ : k ≠ 0 ∧ ¬ pool.length ≤ k ∧ ¬ ∀ a ∈ pool, ∀ b ∈ pool, key b ≤ key a := by
      tauto
    obtain ⟨a, ha, b, hb, hlt⟩ : ∃ a ∈ pool, ∃ b ∈ pool, key a < key b := by
      by_contra hle
      exact hkeys fun a ha b hb => not_lt.mp fun hlt => hle ⟨a, ha, b, hb, hlt⟩
    have hne : a ≠ b := by
      rintro rfl
      exact lt_irrefl _ hlt
    obtain ⟨between, horder⟩ := exists_order ha hb hne
    have hlength := horder.length_eq
    rw [List.length_append, List.length_singleton] at hlength
    have hprefers := (prefers_take_iff horder).mp (hall _ horder)
    have htake : a ∈ (a :: between ++ [b]).take k := by
      obtain ⟨j, rfl⟩ := Nat.exists_eq_succ_of_ne_zero hpos
      exact List.mem_cons_self
    have hdrop : b ∈ (a :: between ++ [b]).drop k := by
      rw [List.drop_append_of_le_length (by omega)]
      exact List.mem_append_right _ List.mem_cons_self
    exact absurd (hprefers a htake b hdrop) (not_le.mpr hlt)
  · intro hcases order horder
    rw [prefers_take_iff horder]
    intro a ha b hb
    rcases hcases with rfl | hfew | hkeys
    · exact absurd ha List.not_mem_nil
    · rw [List.drop_of_length_le (by rw [horder.length_eq]; exact hfew)] at hb
      exact absurd hb List.not_mem_nil
    · exact hkeys a (horder.subset (List.mem_of_mem_take ha)) b (horder.subset (List.mem_of_mem_drop hb))

end Library.Selections
