import Mathlib.Data.List.Chain
import Mathlib.Order.Nat

namespace Library.Logs

variable {α β : Type*}

theorem getElem?_concat_eq_some {l : List α} {a b : α} {k : ℕ} :
    (l ++ [a])[k]? = some b ↔ l[k]? = some b ∨ (k = l.length ∧ a = b) := by
  rcases Nat.lt_trichotomy k l.length with hk | rfl | hk
  · rw [List.getElem?_append_left hk]
    exact ⟨Or.inl, fun h => h.elim id fun h => absurd h.1 hk.ne⟩
  · simp
  · have hout : (l ++ [a])[k]? = none := List.getElem?_eq_none (by simp; omega)
    simp [hout, hk.ne', hk.le]

theorem mem_of_mapM_some {f : α → Option β} {l : List α} {r : List β} (h : l.mapM f = some r) {b : β}
    (hb : b ∈ r) : ∃ a ∈ l, f a = some b := by
  induction l generalizing r with
  | nil =>
    obtain rfl : [] = r := by simpa using h
    exact absurd hb List.not_mem_nil
  | cons a l ih =>
    rw [List.mapM_cons] at h
    obtain ⟨b', hb', hrest⟩ := Option.bind_eq_some_iff.mp h
    obtain ⟨r', hr', hcons⟩ := Option.bind_eq_some_iff.mp hrest
    obtain rfl : b' :: r' = r := Option.some.inj hcons
    rcases List.mem_cons.mp hb with rfl | hb
    · exact ⟨a, List.mem_cons_self, hb'⟩
    · obtain ⟨a', ha', hat⟩ := ih hr' hb
      exact ⟨a', List.mem_cons_of_mem _ ha', hat⟩

theorem mem_of_mapM_of_mem {f : α → Option β} {l : List α} {r : List β} (h : l.mapM f = some r) {a : α}
    {b : β} (ha : a ∈ l) (hb : f a = some b) : b ∈ r := by
  induction l generalizing r with
  | nil => exact absurd ha List.not_mem_nil
  | cons a' l ih =>
    rw [List.mapM_cons] at h
    obtain ⟨b', hb', hrest⟩ := Option.bind_eq_some_iff.mp h
    obtain ⟨r', hr', hcons⟩ := Option.bind_eq_some_iff.mp hrest
    obtain rfl : b' :: r' = r := Option.some.inj hcons
    rcases List.mem_cons.mp ha with rfl | ha
    · rw [Option.some.inj (hb.symm.trans hb')]
      exact List.mem_cons_self
    · exact List.mem_cons_of_mem _ (ih hr' ha)

theorem filter_prefix_of_pairwise {p : α → Bool} {l : List α}
    (h : l.Pairwise fun a b => p b = true → p a = true) :
    l.filter p <+: l := by
  induction l with
  | nil => exact List.prefix_refl []
  | cons a l ih =>
    obtain ⟨hfirst, hrest⟩ := List.pairwise_cons.mp h
    by_cases ha : p a = true
    · rw [List.filter_cons_of_pos ha]
      exact (List.prefix_cons_inj a).mpr (ih hrest)
    · have hnone : l.filter p = [] := List.filter_eq_nil_iff.mpr fun b hb hpb => ha (hfirst b hb hpb)
      rw [List.filter_cons_of_neg ha, hnone]
      exact List.nil_prefix

theorem pairwise_of_filter_prefix {p : α → Bool} {f : α → β} {l : List α} (hnodup : (l.map f).Nodup)
    (h : (l.filter p).map f <+: l.map f) : l.Pairwise fun a b => p b = true → p a = true := by
  induction l with
  | nil => exact List.Pairwise.nil
  | cons a l ih =>
    obtain ⟨hfresh, hrest⟩ := List.nodup_cons.mp hnodup
    by_cases ha : p a = true
    · rw [List.filter_cons_of_pos ha, List.map_cons, List.map_cons] at h
      exact List.pairwise_cons.mpr ⟨fun _ _ _ => ha, ih hrest ((List.prefix_cons_inj _).mp h)⟩
    · rw [List.filter_cons_of_neg ha] at h
      have hnone : l.filter p = [] := by
        cases hfilter : l.filter p with
        | nil => rfl
        | cons b bs =>
          have hb : b ∈ l := List.mem_of_mem_filter (hfilter ▸ List.mem_cons_self)
          rw [hfilter] at h
          obtain ⟨hhead, _⟩ := List.cons_prefix_cons.mp h
          exact absurd (List.mem_map.mpr ⟨b, hb, hhead⟩) hfresh
      refine List.pairwise_cons.mpr ⟨fun b hb hpb => absurd hpb (List.filter_eq_nil_iff.mp hnone b hb), ?_⟩
      apply ih hrest
      rw [hnone]
      exact List.nil_prefix

theorem isChain_append_of_getLast? {R : α → α → Prop} {l l' : List α} {tip : α} (h : l.IsChain R)
    (htip : l.getLast? = some tip) : (l ++ l').IsChain R ↔ (tip :: l').IsChain R := by
  rw [List.isChain_append, List.isChain_cons, htip]
  constructor
  · rintro ⟨_, hchain, hborder⟩
    exact ⟨hborder tip rfl, hchain⟩
  · rintro ⟨hborder, hchain⟩
    refine ⟨h, hchain, ?_⟩
    rintro _ ⟨⟩
    exact hborder

theorem getLast_of_isChain {R : α → α → Prop} {f : α → ℕ} (hR : ∀ a b, R a b → f b = f a + 1) {a : α}
    {l : List α} (h : (a :: l).IsChain R) : f ((a :: l).getLast (List.cons_ne_nil a l)) = f a + l.length := by
  induction l generalizing a with
  | nil => simp
  | cons b l ih =>
    obtain ⟨hab, hrest⟩ := List.isChain_cons_cons.mp h
    rw [List.getLast_cons (List.cons_ne_nil b l), ih hrest, hR a b hab, List.length_cons]
    omega

end Library.Logs
