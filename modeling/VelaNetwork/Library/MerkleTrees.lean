import Mathlib.Data.List.Basic

namespace Library.MerkleTrees

variable {α : Type*}

def pad (xs : List α) : List α := if xs.length % 2 = 1 then xs ++ xs.getLast?.toList else xs

def pairs : List α → List (α × α)
  | [] => []
  | [_] => []
  | a :: b :: rest => (a, b) :: pairs rest

variable (combine : α → α → α)

def nextLevel (xs : List α) : List α := (pairs (pad xs)).map fun p => combine p.1 p.2

theorem pad_length (xs : List α) : (pad xs).length = 2 * ((xs.length + 1) / 2) := by
  unfold pad
  split
  · rename_i hodd
    cases h : xs.getLast? with
    | none =>
      rw [List.getLast?_eq_none_iff.mp h] at hodd
      cases hodd
    | some last =>
      rw [List.length_append, Option.toList_some, List.length_singleton]
      omega
  · omega

theorem pairs_length (xs : List α) : (pairs xs).length = xs.length / 2 := by
  induction xs using pairs.induct with
  | case1 => simp [pairs]
  | case2 a => simp [pairs]
  | case3 a b rest ih =>
    rw [pairs, List.length_cons, ih, List.length_cons, List.length_cons]
    omega

theorem nextLevel_length (xs : List α) : (nextLevel combine xs).length = (xs.length + 1) / 2 := by
  rw [nextLevel, List.length_map, pairs_length, pad_length, Nat.mul_div_cancel_left _ Nat.two_pos]

def root (xs : List α) : Option α := if 1 < xs.length then root (nextLevel combine xs) else xs.head?
termination_by xs.length
decreasing_by
  rw [nextLevel_length]
  omega

def combined (xs : List α) : List (α × α) :=
  if 1 < xs.length then pairs (pad xs) ++ combined (nextLevel combine xs) else []
termination_by xs.length
decreasing_by
  rw [nextLevel_length]
  omega

theorem root_of_many {combine : α → α → α} {xs : List α} (h : 1 < xs.length) :
    root combine xs = root combine (nextLevel combine xs) := by
  rw [root, if_pos h]

theorem root_of_few {combine : α → α → α} {xs : List α} (h : ¬ 1 < xs.length) :
    root combine xs = xs.head? := by
  rw [root, if_neg h]

theorem combined_of_many {combine : α → α → α} {xs : List α} (h : 1 < xs.length) :
    combined combine xs = pairs (pad xs) ++ combined combine (nextLevel combine xs) := by
  rw [combined, if_pos h]

theorem exists_root (combine : α → α → α) {xs : List α} (h : xs ≠ []) : ∃ r, root combine xs = some r := by
  induction xs using root.induct combine with
  | case1 xs hmany ih =>
    rw [root_of_many hmany]
    apply ih
    rw [← List.length_pos_iff, nextLevel_length]
    omega
  | case2 xs hfew =>
    rw [root_of_few hfew]
    exact ⟨xs.head h, List.head?_eq_some_head h⟩

def Separates (ps : List (α × α)) : Prop := ∀ p ∈ ps, ∀ q ∈ ps, combine p.1 p.2 = combine q.1 q.2 → p = q

variable {combine} {xs ys : List α}

theorem pairs_injective (hx : xs.length % 2 = 0) (hlen : xs.length = ys.length) (h : pairs xs = pairs ys) :
    xs = ys := by
  induction xs using pairs.induct generalizing ys with
  | case1 => exact (List.length_eq_zero_iff.mp hlen.symm).symm
  | case2 a => cases hx
  | case3 a b rest ih =>
    match ys with
    | [] => cases hlen
    | [c] => cases hlen
    | c :: d :: rest' =>
      simp only [List.length_cons] at hx hlen
      rw [pairs, pairs, List.cons.injEq, Prod.mk.injEq] at h
      obtain ⟨⟨rfl, rfl⟩, hrest⟩ := h
      rw [ih (by omega) (by omega) hrest]

theorem pad_injective (hlen : xs.length = ys.length) (h : pad xs = pad ys) : xs = ys := by
  unfold pad at h
  rw [← hlen] at h
  split at h
  · exact (List.append_inj h hlen).1
  · exact h

theorem map_injective_on {β : Type*} {f : α → β} (hf : ∀ x ∈ xs, ∀ y ∈ ys, f x = f y → x = y)
    (h : xs.map f = ys.map f) : xs = ys := by
  induction xs generalizing ys with
  | nil => exact (List.map_eq_nil_iff.mp h.symm).symm
  | cons x xs ih =>
    cases ys with
    | nil => cases h
    | cons y ys =>
      obtain ⟨hhead, htail⟩ := List.cons.inj h
      rw [hf x List.mem_cons_self y List.mem_cons_self hhead]
      rw [ih (fun x hx y hy => hf x (List.mem_cons_of_mem _ hx) y (List.mem_cons_of_mem _ hy)) htail]

theorem nextLevel_injective (hlen : xs.length = ys.length)
    (hsep : Separates combine (pairs (pad xs) ++ pairs (pad ys)))
    (h : nextLevel combine xs = nextLevel combine ys) :
    xs = ys := by
  have hpadded : (pad xs).length = (pad ys).length := by rw [pad_length, pad_length, hlen]
  apply pad_injective hlen
  apply pairs_injective (by rw [pad_length]; omega) hpadded
  apply map_injective_on _ h
  intro p hp q hq
  exact hsep p (List.mem_append_left _ hp) q (List.mem_append_right _ hq)

theorem Separates.mono {ps qs : List (α × α)} (h : Separates combine qs) (hsub : ps ⊆ qs) :
    Separates combine ps :=
  fun p hp q hq => h p (hsub hp) q (hsub hq)

theorem root_injective (hlen : xs.length = ys.length)
    (hsep : Separates combine (combined combine xs ++ combined combine ys))
    (h : root combine xs = root combine ys) : xs = ys := by
  induction xs using root.induct combine generalizing ys with
  | case1 xs hmany ih =>
    have hmany' : 1 < ys.length := hlen ▸ hmany
    rw [root_of_many hmany, root_of_many hmany'] at h
    rw [combined_of_many hmany, combined_of_many hmany'] at hsep
    have hnext : (nextLevel combine xs).length = (nextLevel combine ys).length := by
      rw [nextLevel_length, nextLevel_length, hlen]
    apply nextLevel_injective hlen
    · apply hsep.mono
      intro p hp
      rcases List.mem_append.mp hp with hx | hy
      · exact List.mem_append_left _ (List.mem_append_left _ hx)
      · exact List.mem_append_right _ (List.mem_append_left _ hy)
    · apply ih hnext _ h
      apply hsep.mono
      intro p hp
      rcases List.mem_append.mp hp with hx | hy
      · exact List.mem_append_left _ (List.mem_append_right _ hx)
      · exact List.mem_append_right _ (List.mem_append_right _ hy)
  | case2 xs hfew =>
    rw [root_of_few hfew, root_of_few (hlen ▸ hfew)] at h
    match xs, ys with
    | [], [] => rfl
    | [x], [y] => rw [Option.some.inj h]
    | [], _ :: _ => cases hlen
    | _ :: _, [] => cases hlen
    | [_], _ :: _ :: _ => cases hlen
    | _ :: _ :: _, _ :: _ => exact absurd (by simp) hfew

section Repeat

variable {z : α} (hodd : xs.length % 2 = 1) (hlast : xs.getLast? = some z)

include hodd hlast

theorem pad_repeat_last : pad (xs ++ [z]) = pad xs := by
  have heven : ¬ (xs ++ [z]).length % 2 = 1 := by
    rw [List.length_append, List.length_singleton]
    omega
  rw [pad, if_neg heven, pad, if_pos hodd, hlast, Option.toList_some]

theorem root_repeat_last (hmany : 1 < xs.length) : root combine (xs ++ [z]) = root combine xs := by
  have hmany' : 1 < (xs ++ [z]).length := by
    rw [List.length_append]
    omega
  rw [root_of_many hmany', root_of_many hmany, nextLevel, nextLevel, pad_repeat_last hodd hlast]

theorem combined_repeat_last (hmany : 1 < xs.length) :
    combined combine (xs ++ [z]) = combined combine xs := by
  have hmany' : 1 < (xs ++ [z]).length := by
    rw [List.length_append]
    omega
  rw [combined_of_many hmany', combined_of_many hmany, nextLevel, nextLevel, pad_repeat_last hodd hlast]

end Repeat

theorem combined_three (x y z : α) :
    combined combine [x, y, z] = [(x, y), (z, z), (combine x y, combine z z)] := by
  rw [combined_of_many (by simp), combined_of_many (by simp [nextLevel, pad, pairs])]
  simp [nextLevel, pad, pairs, combined]

theorem root_three (x y z : α) : root combine [x, y, z] = some (combine (combine x y) (combine z z)) := by
  rw [root_of_many (by simp), root_of_many (by simp [nextLevel, pad, pairs])]
  simp [nextLevel, pad, pairs, root]

end Library.MerkleTrees
