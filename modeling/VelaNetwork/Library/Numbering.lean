import Mathlib.Data.List.Induction
import Mathlib.Data.List.Nodup

namespace Library.Numbering

variable {α κ : Type*} [DecidableEq κ] (key : α → κ) (num : α → ℕ)

def owned (xs : List α) (a : κ) : List α := xs.filter fun x => key x = a

def Numbered (xs : List α) : Prop := ∀ a k, (h : k < (owned key xs a).length) →
    num (owned key xs a)[k] = k + 1

variable {key num} {xs ys : List α} {x : α}

theorem owned_append (xs ys : List α) (a : κ) : owned key (xs ++ ys) a = owned key xs a ++ owned key ys a :=
  List.filter_append xs ys

theorem owned_concat_self (xs : List α) (x : α) :
    owned key (xs ++ [x]) (key x) = owned key xs (key x) ++ [x] := by
  simp [owned]

theorem owned_concat_of_ne {a : κ} (h : a ≠ key x) : owned key (xs ++ [x]) a = owned key xs a := by
  simp [owned, h.symm]

theorem numbered_nil : Numbered key num [] := by
  intro a k h
  exact absurd h (Nat.not_lt_zero k)

theorem Numbered.of_append (h : Numbered key num (xs ++ ys)) : Numbered key num xs := by
  intro a k hk
  have hlt : k < (owned key (xs ++ ys) a).length := by
    rw [owned_append, List.length_append]
    omega
  have hat := h a k hlt
  simp only [owned_append] at hat
  rwa [List.getElem_append_left hk] at hat

theorem numbered_concat : Numbered key num (xs ++ [x]) ↔
    Numbered key num xs ∧ num x = (owned key xs (key x)).length + 1 := by
  constructor
  · intro h
    refine ⟨h.of_append, ?_⟩
    have hat := h (key x) (owned key xs (key x)).length (by rw [owned_concat_self]; simp)
    simp only [owned_concat_self] at hat
    rwa [List.getElem_concat_length rfl] at hat
  · rintro ⟨h, hx⟩ a k hk
    by_cases ha : a = key x
    · subst ha
      simp only [owned_concat_self] at hk ⊢
      by_cases hlt : k < (owned key xs (key x)).length
      · rw [List.getElem_append_left hlt]
        exact h _ k hlt
      · have hlast : k = (owned key xs (key x)).length := by
          rw [List.length_append, List.length_singleton] at hk
          omega
        rw [List.getElem_concat_length hlast, hx, hlast]
    · simp only [owned_concat_of_ne ha] at hk ⊢
      exact h a k hk

theorem Numbered.nodup (h : Numbered key num xs) : xs.Nodup := by
  induction xs using List.reverseRecOn with
  | nil => exact List.nodup_nil
  | append_singleton xs x ih =>
    obtain ⟨hxs, hx⟩ := numbered_concat.mp h
    rw [List.nodup_append]
    refine ⟨ih hxs, List.nodup_singleton x, ?_⟩
    rintro y hy z hz rfl
    obtain rfl := List.mem_singleton.mp hz
    have hmem : y ∈ owned key xs (key y) := List.mem_filter.mpr ⟨hy, decide_eq_true rfl⟩
    obtain ⟨k, hk, hat⟩ := List.mem_iff_getElem.mp hmem
    have hnum := hxs (key y) k hk
    rw [hat] at hnum
    omega

end Library.Numbering
