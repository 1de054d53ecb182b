import Mathlib.Data.List.Basic

namespace Library.Traces

variable {σ α β : Type*} [DecidableEq α]

/-- The lists have the same events, and conflicting ones in the same order: for each conflicting pair,
what is left of the lists when all other events are dropped is the same. -/
structure Rearranged (conflict : α → α → Prop) (xs ys : List α) : Prop where
  perm : xs.Perm ys
  order : ∀ a b, conflict a b → xs.filter (fun x => x = a ∨ x = b) = ys.filter (fun x => x = a ∨ x = b)

variable (step : σ → α → σ) (out : σ → α → β)

def outputs : σ → List α → List (α × β)
  | _, [] => []
  | s, x :: xs => (x, out s x) :: outputs (step s x) xs

structure Independence (conflict : α → α → Prop) : Prop where
  symm : ∀ a b, conflict a b → conflict b a
  commute : ∀ s a b, ¬ conflict a b → step (step s a) b = step (step s b) a
  unseen : ∀ s a b, ¬ conflict a b → out (step s a) b = out s b

section Rearranged

variable {conflict : α → α → Prop} {xs ys before after : List α} {y : α}

theorem filter_eq_of_perm (h : xs.Perm ys) (a : α) :
    xs.filter (fun x => x = a) = ys.filter (fun x => x = a) := by
  have hrepeat : ∀ zs : List α, zs.filter (fun x => x = a) = List.replicate (zs.count a) a :=
    fun zs => List.filter_eq a
  rw [hrepeat, hrepeat, h.count_eq]

theorem rearranged_iff : Rearranged conflict xs ys ↔ xs.Perm ys ∧ ∀ a ∈ xs, ∀ b ∈ xs, conflict a b →
    xs.filter (fun x => x = a ∨ x = b) = ys.filter (fun x => x = a ∨ x = b) := by
  constructor
  · intro h
    exact ⟨h.perm, fun a _ b _ => h.order a b⟩
  · rintro ⟨hperm, horder⟩
    refine ⟨hperm, ?_⟩
    intro a b hconflict
    have hsame : ∀ c d, c ∉ xs → xs.filter (fun x => x = c ∨ x = d) = ys.filter (fun x => x = c ∨ x = d) := by
      intro c d hc
      have hdrop : ∀ zs : List α, c ∉ zs →
          zs.filter (fun x => x = c ∨ x = d) = zs.filter (fun x => x = d) := by
        intro zs hzs
        apply List.filter_congr
        intro x hx
        have hne : x ≠ c := fun h => hzs (h ▸ hx)
        simp [hne]
      rw [hdrop xs hc, hdrop ys (mt hperm.mem_iff.mpr hc), filter_eq_of_perm hperm]
    by_cases ha : a ∈ xs
    · by_cases hb : b ∈ xs
      · exact horder a ha b hb hconflict
      · simp only [or_comm (b := _ = b)]
        exact hsame b a hb
    · exact hsame a b ha

instance [DecidableRel conflict] (xs ys : List α) : Decidable (Rearranged conflict xs ys) :=
  decidable_of_iff _ rearranged_iff.symm

theorem filter_pair_of_notMem {a b : α} (ha : a ∉ xs) (hb : b ∉ xs) :
    xs.filter (fun x => x = a ∨ x = b) = [] := by
  rw [List.filter_eq_nil_iff]
  intro x hx h
  rcases of_decide_eq_true h with rfl | rfl
  · exact ha hx
  · exact hb hx

theorem Rearranged.free (h : Rearranged conflict (before ++ y :: after) (y :: ys)) (hfirst : y ∉ before) :
    ∀ x ∈ before, ¬ conflict x y := by
  intro x hx hconflict
  have hpair := h.order x y hconflict
  rw [List.filter_append, List.filter_cons_of_pos (by simp), List.filter_cons_of_pos (by simp)] at hpair
  cases hfront : before.filter (fun z => z = x ∨ z = y) with
  | nil =>
    rw [List.filter_eq_nil_iff] at hfront
    exact hfront x hx (by simp)
  | cons z rest =>
    rw [hfront, List.cons_append, List.cons.injEq] at hpair
    have hz : z ∈ before := (List.mem_filter.mp (hfront ▸ List.mem_cons_self : z ∈ before.filter _)).1
    exact hfirst (hpair.1 ▸ hz)

theorem Rearranged.drop_first (hsymm : ∀ a b, conflict a b → conflict b a)
    (h : Rearranged conflict (before ++ y :: after) (y :: ys)) (hfirst : y ∉ before) :
    Rearranged conflict (before ++ after) ys := by
  have hfree := h.free hfirst
  constructor
  · exact (List.perm_middle.symm.trans h.perm).cons_inv
  · intro a b hconflict
    have hpair := h.order a b hconflict
    rw [List.filter_append, List.filter_cons, List.filter_cons] at hpair
    rw [List.filter_append]
    by_cases hy : y = a ∨ y = b
    · have hnone : before.filter (fun x => x = a ∨ x = b) = [] := by
        rcases hy with rfl | rfl
        · exact filter_pair_of_notMem hfirst fun hb => hfree b hb (hsymm y b hconflict)
        · exact filter_pair_of_notMem (fun ha => hfree a ha hconflict) hfirst
      rw [if_pos (decide_eq_true hy), if_pos (decide_eq_true hy), hnone, List.nil_append,
        List.cons.injEq] at hpair
      rw [hnone, List.nil_append]
      exact hpair.2
    · rwa [if_neg (by simpa using hy), if_neg (by simpa using hy)] at hpair

end Rearranged

theorem perm_of_filter_fst [DecidableEq β] {ps qs : List (α × β)}
    (h : ∀ a, ps.filter (fun p => p.1 = a) = qs.filter (fun p => p.1 = a)) : ps.Perm qs := by
  rw [List.perm_iff_count]
  intro p
  have hkeyed : ∀ rs : List (α × β), (rs.filter fun r => r.1 = p.1).count p = rs.count p :=
    fun rs => List.count_filter (decide_eq_true rfl)
  rw [← hkeyed ps, ← hkeyed qs, h p.1]

section Runs

variable {step out} {conflict : α → α → Prop} (hind : Independence step out conflict)

include hind

omit [DecidableEq α] in
theorem Independence.foldl_front {before after : List α} {y : α} (hfree : ∀ x ∈ before, ¬ conflict x y)
    (s : σ) : (before ++ y :: after).foldl step s = (y :: (before ++ after)).foldl step s := by
  induction before generalizing s with
  | nil => rfl
  | cons x before ih =>
    have hxy := hfree x List.mem_cons_self
    rw [List.cons_append, List.foldl_cons, ih fun z hz => hfree z (List.mem_cons_of_mem _ hz)]
    simp only [List.cons_append, List.foldl_cons, hind.commute s x y hxy]

theorem Independence.outputs_front {before after : List α} {y : α} (hfree : ∀ x ∈ before, ¬ conflict x y)
    (hfirst : y ∉ before) (s : σ) (a : α) :
    (outputs step out s (before ++ y :: after)).filter (fun p => p.1 = a) =
      (outputs step out s (y :: (before ++ after))).filter (fun p => p.1 = a) := by
  induction before generalizing s with
  | nil => rfl
  | cons x before ih =>
    have hxy := hfree x List.mem_cons_self
    have hne : x ≠ y := fun h => hfirst (h ▸ List.mem_cons_self)
    have hrest := ih (fun z hz => hfree z (List.mem_cons_of_mem _ hz))
      (fun h => hfirst (List.mem_cons_of_mem _ h)) (step s x)
    simp only [outputs, List.cons_append, hind.unseen s x y hxy, hind.commute s x y hxy] at hrest ⊢
    rw [hind.unseen s y x (mt (hind.symm y x) hxy), List.filter_cons, hrest]
    by_cases hx : x = a
    · have hy : y ≠ a := fun h => hne (hx.trans h.symm)
      simp [hx, hy]
    · simp [hx, List.filter_cons]

theorem Independence.rearranged {xs ys : List α} (h : Rearranged conflict xs ys) (s : σ) :
    xs.foldl step s = ys.foldl step s ∧ ∀ a, (outputs step out s xs).filter (fun p => p.1 = a) =
      (outputs step out s ys).filter (fun p => p.1 = a) := by
  induction ys generalizing xs s with
  | nil =>
    rw [h.perm.eq_nil]
    exact ⟨rfl, fun _ => rfl⟩
  | cons y ys ih =>
    obtain ⟨before, after, rfl, hfirst⟩ := List.eq_append_cons_of_mem (h.perm.mem_iff.mpr List.mem_cons_self)
    have hfree := h.free hfirst
    obtain ⟨hstate, houtputs⟩ := ih (h.drop_first hind.symm hfirst) (step s y)
    constructor
    · rw [hind.foldl_front hfree]
      exact hstate
    · intro a
      rw [hind.outputs_front hfree hfirst, outputs, outputs, List.filter_cons, List.filter_cons, houtputs a]

end Runs

end Library.Traces
