import VelaNetwork.Library.MerkleTrees
import Mathlib.Algebra.Group.Nat.Defs

namespace Library.MerkleTrees

variable {α β : Type*}

inductive LeafTree (α : Type*) where
  | leaf (a : α)
  | node (l r : LeafTree α)

namespace LeafTree

def eval (combine : α → α → α) : LeafTree α → α
  | leaf a => a
  | node l r => combine (l.eval combine) (r.eval combine)

def leaves : LeafTree α → List α
  | leaf a => [a]
  | node l r => l.leaves ++ r.leaves

def inner (combine : α → α → α) : LeafTree α → List (α × α)
  | leaf _ => []
  | node l r => (l.eval combine, r.eval combine) :: (l.inner combine ++ r.inner combine)

def Perfect : ℕ → LeafTree α → Prop
  | 0, leaf _ => True
  | h + 1, node l r => l.Perfect h ∧ r.Perfect h
  | _, _ => False

variable {combine : α → α → α} {s t : LeafTree α}

theorem Perfect.leaves_length {h : ℕ} (ht : t.Perfect h) : t.leaves.length = 2 ^ h := by
  induction t generalizing h with
  | leaf a =>
    cases h with
    | zero => rfl
    | succ h => cases ht
  | node l r ihl ihr =>
    cases h with
    | zero => cases ht
    | succ h => rw [leaves, List.length_append, ihl ht.1, ihr ht.2, Nat.pow_succ, Nat.mul_two]

theorem Perfect.leaves_injective {h : ℕ} (hs : s.Perfect h) (ht : t.Perfect h) (heq : s.leaves = t.leaves) :
    s = t := by
  induction s generalizing h t with
  | leaf a =>
    cases h with
    | zero =>
      cases t with
      | leaf b => rw [List.singleton_inj.mp heq]
      | node l r => cases ht
    | succ h => cases hs
  | node l r ihl ihr =>
    cases h with
    | zero => cases hs
    | succ h =>
      cases t with
      | leaf b => cases ht
      | node l' r' =>
        obtain ⟨hl, hr⟩ := List.append_inj heq (hs.1.leaves_length.trans ht.1.leaves_length.symm)
        rw [ihl hs.1 ht.1 hl, ihr hs.2 ht.2 hr]

theorem Perfect.eq_of_leaves {h k : ℕ} (hs : s.Perfect h) (ht : t.Perfect k) (heq : s.leaves = t.leaves) :
    s = t := by
  have hpow : 2 ^ h = 2 ^ k := by rw [← hs.leaves_length, ← ht.leaves_length, heq]
  obtain rfl := (Nat.pow_right_inj Nat.one_lt_two).mp hpow
  exact hs.leaves_injective ht heq

theorem eval_injective (hpairs : Separates combine (s.inner combine ++ t.inner combine))
    (hleaves : ∀ a ∈ s.leaves ++ t.leaves, ∀ p ∈ s.inner combine ++ t.inner combine, a ≠ combine p.1 p.2)
    (heq : s.eval combine = t.eval combine) : s = t := by
  induction s generalizing t with
  | leaf a =>
    cases t with
    | leaf b => exact congrArg leaf heq
    | node l r => exact absurd heq (hleaves a List.mem_cons_self (_, _) List.mem_cons_self)
  | node l r ihl ihr =>
    cases t with
    | leaf b =>
      exact absurd heq.symm (hleaves b (List.mem_append_right _ List.mem_cons_self) (_, _) List.mem_cons_self)
    | node l' r' =>
      have hpair := hpairs (l.eval combine, r.eval combine) (List.mem_append_left _ List.mem_cons_self)
        (l'.eval combine, r'.eval combine) (List.mem_append_right _ List.mem_cons_self) heq
      obtain ⟨hl, hr⟩ := Prod.mk.inj hpair
      have hsub : l.inner combine ++ l'.inner combine ⊆
          (node l r).inner combine ++ (node l' r').inner combine := by
        intro p hp
        simp only [inner, List.mem_append, List.mem_cons] at hp ⊢
        tauto
      have hsub' : r.inner combine ++ r'.inner combine ⊆
          (node l r).inner combine ++ (node l' r').inner combine := by
        intro p hp
        simp only [inner, List.mem_append, List.mem_cons] at hp ⊢
        tauto
      have hleft : l = l' := by
        apply ihl (hpairs.mono hsub) _ hl
        intro a ha p hp
        apply hleaves a _ p (hsub hp)
        simp only [leaves, List.mem_append] at ha ⊢
        tauto
      have hright : r = r' := by
        apply ihr (hpairs.mono hsub') _ hr
        intro a ha p hp
        apply hleaves a _ p (hsub' hp)
        simp only [leaves, List.mem_append] at ha ⊢
        tauto
      rw [hleft, hright]

end LeafTree

section Levels

variable {combine : α → α → α} {combine' : β → β → β} {f : α → β}

theorem mem_pad {xs : List α} {x : α} (h : x ∈ pad xs) : x ∈ xs := by
  unfold pad at h
  split at h
  · rcases List.mem_append.mp h with h | h
    · exact h
    · exact List.mem_of_getLast? (Option.mem_toList.mp h)
  · exact h

theorem mem_pairs {xs : List α} {p : α × α} (h : p ∈ pairs xs) : p.1 ∈ xs ∧ p.2 ∈ xs := by
  induction xs using pairs.induct with
  | case1 => cases h
  | case2 a => cases h
  | case3 a b rest ih =>
    rw [pairs, List.mem_cons] at h
    rcases h with rfl | h
    · simp
    · obtain ⟨h₁, h₂⟩ := ih h
      exact ⟨List.mem_cons_of_mem _ (List.mem_cons_of_mem _ h₁),
        List.mem_cons_of_mem _ (List.mem_cons_of_mem _ h₂)⟩

theorem pad_map (f : α → β) (xs : List α) : pad (xs.map f) = (pad xs).map f := by
  unfold pad
  rw [List.length_map, List.getLast?_map]
  split
  · rw [List.map_append]
    cases xs.getLast? <;> rfl
  · rfl

theorem pairs_map (f : α → β) (xs : List α) : pairs (xs.map f) = (pairs xs).map (Prod.map f f) := by
  induction xs using pairs.induct with
  | case1 => rfl
  | case2 a => rfl
  | case3 a b rest ih => simp only [List.map_cons, pairs, ih, Prod.map_apply]

theorem nextLevel_map (hf : ∀ a b, f (combine a b) = combine' (f a) (f b)) (xs : List α) :
    nextLevel combine' (xs.map f) = (nextLevel combine xs).map f := by
  rw [nextLevel, nextLevel, pad_map, pairs_map, List.map_map, List.map_map]
  apply List.map_congr_left
  intro p _
  exact (hf p.1 p.2).symm

theorem root_map (hf : ∀ a b, f (combine a b) = combine' (f a) (f b)) (xs : List α) :
    root combine' (xs.map f) = (root combine xs).map f := by
  induction xs using root.induct combine with
  | case1 xs hmany ih =>
    rw [root_of_many hmany, root_of_many (by rwa [List.length_map]), nextLevel_map hf]
    exact ih
  | case2 xs hfew => rw [root_of_few hfew, root_of_few (by rwa [List.length_map]), List.head?_map]

theorem root_levels {p : ℕ → α → Prop} (hstep : ∀ h a b, p h a → p h b → p (h + 1) (combine a b))
    {xs : List α} {h : ℕ} (hxs : ∀ x ∈ xs, p h x) {r : α} (hr : root combine xs = some r) : ∃ k, p k r := by
  induction xs using root.induct combine generalizing h with
  | case1 xs hmany ih =>
    rw [root_of_many hmany] at hr
    apply ih _ hr
    · exact h + 1
    · intro x hx
      obtain ⟨q, hq, rfl⟩ := List.mem_map.mp hx
      obtain ⟨h₁, h₂⟩ := mem_pairs hq
      exact hstep h q.1 q.2 (hxs _ (mem_pad h₁)) (hxs _ (mem_pad h₂))
  | case2 xs hfew =>
    rw [root_of_few hfew] at hr
    exact ⟨h, hxs r (List.mem_of_mem_head? hr)⟩

end Levels

section Shape

variable {combine : α → α → α} {xs ys : List α} {t : LeafTree α}

def treeOf (xs : List α) : Option (LeafTree α) := root LeafTree.node (xs.map LeafTree.leaf)

/-- The leaves of the complete tree: the last subtree of every odd level is doubled. -/
def expansion (xs : List α) : List α := (root (· ++ ·) (xs.map fun x => [x])).getD []

theorem eval_node (combine : α → α → α) (l r : LeafTree α) :
    (LeafTree.node l r).eval combine = combine (l.eval combine) (r.eval combine) := rfl

theorem leaves_node (l r : LeafTree α) : (LeafTree.node l r).leaves = l.leaves ++ r.leaves := rfl

theorem root_eq_eval (combine : α → α → α) (xs : List α) :
    root combine xs = (treeOf xs).map (LeafTree.eval combine) := by
  rw [treeOf, ← root_map (eval_node combine), List.map_map]
  exact congrArg (root combine) (List.map_id xs).symm

theorem expansion_eq_leaves (h : treeOf xs = some t) : expansion xs = t.leaves := by
  have hmap := root_map leaves_node (xs.map LeafTree.leaf)
  rw [show root LeafTree.node (xs.map LeafTree.leaf) = some t from h, List.map_map] at hmap
  exact congrArg (Option.getD · []) hmap

theorem treeOf_perfect (h : treeOf xs = some t) : ∃ k, t.Perfect k := by
  have hnode : ∀ k (l r : LeafTree α), l.Perfect k → r.Perfect k → (LeafTree.node l r).Perfect (k + 1) :=
    fun _ _ _ hl hr => ⟨hl, hr⟩
  refine root_levels hnode (h := 0) ?_ h
  intro s hs
  obtain ⟨x, _, rfl⟩ := List.mem_map.mp hs
  trivial

theorem leaves_subset (h : treeOf xs = some t) : t.leaves ⊆ xs := by
  have hall : ∃ _ : ℕ, t.leaves ⊆ xs := by
    refine root_levels (p := fun _ s => s.leaves ⊆ xs) (h := 0)
      (fun _ _ _ hl hr => List.append_subset.mpr ⟨hl, hr⟩) ?_ h
    intro s hs
    obtain ⟨x, hx, rfl⟩ := List.mem_map.mp hs
    exact List.cons_subset.mpr ⟨hx, List.nil_subset _⟩
  exact hall.elim fun _ hsub => hsub

theorem mem_inner_root {ts : List (LeafTree α)} (h : root LeafTree.node ts = some t) {p : α × α}
    (hp : p ∈ t.inner combine) :
    (∃ s ∈ ts, p ∈ s.inner combine) ∨ p ∈ combined combine (ts.map (LeafTree.eval combine)) := by
  induction ts using root.induct LeafTree.node with
  | case1 ts hmany ih =>
    rw [root_of_many hmany] at h
    have hlevel : nextLevel combine (ts.map (LeafTree.eval combine)) =
        (nextLevel LeafTree.node ts).map (LeafTree.eval combine) :=
      nextLevel_map (eval_node combine) ts
    rw [combined_of_many (by rwa [List.length_map]), List.mem_append, hlevel]
    rcases ih h with ⟨s, hs, hps⟩ | hcombined
    · obtain ⟨q, hq, rfl⟩ := List.mem_map.mp hs
      obtain ⟨hl, hr⟩ := mem_pairs hq
      rw [LeafTree.inner, List.mem_cons, List.mem_append] at hps
      rcases hps with rfl | hpl | hpr
      · refine Or.inr (Or.inl ?_)
        rw [pad_map, pairs_map]
        exact List.mem_map_of_mem hq
      · exact Or.inl ⟨q.1, mem_pad hl, hpl⟩
      · exact Or.inl ⟨q.2, mem_pad hr, hpr⟩
    · exact Or.inr (Or.inr hcombined)
  | case2 ts hfew =>
    rw [root_of_few hfew] at h
    exact Or.inl ⟨t, List.mem_of_mem_head? h, hp⟩

theorem append_subset_append {as bs cs ds : List β} (h : as ⊆ cs) (h' : bs ⊆ ds) : as ++ bs ⊆ cs ++ ds :=
  List.append_subset.mpr ⟨List.subset_append_of_subset_left _ h, List.subset_append_of_subset_right _ h'⟩

theorem inner_subset (h : treeOf xs = some t) : t.inner combine ⊆ combined combine xs := by
  intro p hp
  rcases mem_inner_root h hp with ⟨s, hs, hps⟩ | hcombined
  · obtain ⟨y, _, rfl⟩ := List.mem_map.mp hs
    cases hps
  · rw [List.map_map] at hcombined
    exact (List.map_id xs) ▸ hcombined

theorem root_eq_iff (hxs : xs ≠ []) (hys : ys ≠ [])
    (hpairs : Separates combine (combined combine xs ++ combined combine ys))
    (hleaves : ∀ a ∈ xs ++ ys, ∀ p ∈ combined combine xs ++ combined combine ys, a ≠ combine p.1 p.2) :
    root combine xs = root combine ys ↔ expansion xs = expansion ys := by
  obtain ⟨s, hs⟩ := exists_root LeafTree.node (mt List.map_eq_nil_iff.mp hxs)
  obtain ⟨t, ht⟩ := exists_root LeafTree.node (mt List.map_eq_nil_iff.mp hys)
  have hsub : s.inner combine ++ t.inner combine ⊆ combined combine xs ++ combined combine ys :=
    append_subset_append (inner_subset hs) (inner_subset ht)
  rw [root_eq_eval, root_eq_eval, expansion_eq_leaves hs, expansion_eq_leaves ht,
    show treeOf xs = some s from hs, show treeOf ys = some t from ht]
  constructor
  · intro heq
    have hsame : s = t := by
      apply LeafTree.eval_injective (hpairs.mono hsub) _ (Option.some.inj heq)
      intro a ha p hp
      exact hleaves a (append_subset_append (leaves_subset hs) (leaves_subset ht) ha) p (hsub hp)
    rw [hsame]
  · intro heq
    obtain ⟨h, hperfect⟩ := treeOf_perfect hs
    obtain ⟨k, hperfect'⟩ := treeOf_perfect ht
    rw [hperfect.eq_of_leaves hperfect' heq]

theorem expansion_singleton (x : α) : expansion [x] = [x] := by
  rw [expansion, List.map_singleton, root_of_few (by simp)]
  rfl

end Shape

end Library.MerkleTrees
