import Std.Data.ExtTreeMap
import Mathlib.Data.List.Sort

namespace Library.OrderedMaps

open Std

variable {κ ν : Type*} {cmp : κ → κ → Ordering} [TransCmp cmp] [LawfulEqCmp cmp]

theorem mem_toList_insert {m : ExtTreeMap κ ν cmp} {k : κ} {v : ν} {e : κ × ν}
    (h : e ∈ (m.insert k v).toList) :
    e = (k, v) ∨ e ∈ m.toList := by
  rw [ExtTreeMap.mem_toList_iff_getElem?_eq_some, ExtTreeMap.getElem?_insert] at h
  split at h
  · rename_i hk
    exact Or.inl (Prod.ext (LawfulEqCmp.eq_of_compare hk).symm (Option.some.inj h).symm)
  · exact Or.inr (ExtTreeMap.mem_toList_iff_getElem?_eq_some.mpr h)

omit [LawfulEqCmp cmp] in
theorem compare_self_ne_lt (k : κ) : cmp k k ≠ .lt := by
  rw [show cmp k k = .eq from ReflCmp.compare_self]
  decide

omit [LawfulEqCmp cmp] in
theorem nodup_of_ordered {l : List (κ × ν)} (h : l.Pairwise fun a b => cmp a.1 b.1 = .lt) : l.Nodup := by
  apply h.imp
  rintro a b hab rfl
  exact compare_self_ne_lt a.1 hab

theorem toList_insert_last {m : ExtTreeMap κ ν cmp} {k : κ} (v : ν) (h : ∀ e ∈ m.toList, cmp e.1 k = .lt) :
    (m.insert k v).toList = m.toList ++ [(k, v)] := by
  have hleft := (m.insert k v).ordered_keys_toList
  have hright : (m.toList ++ [(k, v)]).Pairwise fun a b => cmp a.1 b.1 = .lt := by
    rw [List.pairwise_append]
    refine ⟨m.ordered_keys_toList, List.pairwise_singleton _ _, ?_⟩
    intro a ha b hb
    rw [List.mem_singleton.mp hb]
    exact h a ha
  have hmem : ∀ e, e ∈ (m.insert k v).toList ↔ e ∈ m.toList ++ [(k, v)] := by
    intro e
    rw [List.mem_append, List.mem_singleton]
    constructor
    · intro he
      exact (mem_toList_insert he).symm
    · rintro (he | rfl)
      · have hne : cmp k e.1 ≠ .eq := by
          intro heq
          have hlt := h e he
          rw [LawfulEqCmp.eq_of_compare heq] at hlt
          exact compare_self_ne_lt e.1 hlt
        rw [ExtTreeMap.mem_toList_iff_getElem?_eq_some] at he ⊢
        rwa [ExtTreeMap.getElem?_insert, if_neg hne]
      · rw [ExtTreeMap.mem_toList_iff_getElem?_eq_some]
        exact ExtTreeMap.getElem?_insert_self
  have hperm := (List.perm_ext_iff_of_nodup (nodup_of_ordered hleft) (nodup_of_ordered hright)).mpr hmem
  apply hperm.eq_of_pairwise _ hleft hright
  intro a b _ _ hab hba
  have hswap : cmp a.1 b.1 = (cmp b.1 a.1).swap := OrientedCmp.eq_swap
  rw [hswap, hba] at hab
  exact absurd hab (by decide)

def insertAll (m : ExtTreeMap κ ν cmp) (entries : List (κ × ν)) : ExtTreeMap κ ν cmp :=
  entries.foldl (fun m e => m.insert e.1 e.2) m

omit [LawfulEqCmp cmp] in
theorem getElem?_insertAll (m : ExtTreeMap κ ν cmp) (entries : List (κ × ν)) (k : κ) :
    (insertAll m entries)[k]? = ((entries.reverse.find? fun e => cmp e.1 k = .eq).map (·.2)).or m[k]? := by
  induction entries generalizing m with
  | nil => rfl
  | cons e rest ih =>
    change (insertAll (m.insert e.1 e.2) rest)[k]? = _
    rw [ih, ExtTreeMap.getElem?_insert, List.reverse_cons, List.find?_append, List.find?_singleton]
    cases rest.reverse.find? fun e => cmp e.1 k = .eq with
    | none =>
      by_cases hk : cmp e.1 k = .eq
      · simp [hk]
      · simp [hk]
    | some found => rfl

theorem mem_toList_insertAll {m : ExtTreeMap κ ν cmp} {entries : List (κ × ν)} {e : κ × ν}
    (h : e ∈ (insertAll m entries).toList) : e ∈ entries ∨ e ∈ m.toList := by
  induction entries generalizing m with
  | nil => exact Or.inr h
  | cons first rest ih =>
    rcases ih h with hrest | hm
    · exact Or.inl (List.mem_cons_of_mem first hrest)
    · rcases mem_toList_insert hm with rfl | hold
      · exact Or.inl List.mem_cons_self
      · exact Or.inr hold

end Library.OrderedMaps
