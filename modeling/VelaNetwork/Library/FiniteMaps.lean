import Mathlib.Data.Finmap
import Mathlib.Algebra.BigOperators.Group.Finset.Basic
import Mathlib.Algebra.BigOperators.Group.Finset.Piecewise
import Mathlib.Algebra.Order.BigOperators.Group.Finset

namespace Library.FiniteMaps

variable {κ ν : Type*} [DecidableEq κ]

/-- `entry(k).or_insert(v)` followed by an update of the entry. -/
def upsert (m : Finmap (fun _ : κ => ν)) (k : κ) (v : ν) (f : ν → ν) : Finmap (fun _ : κ => ν) :=
  m.insert k (f ((m.lookup k).getD v))

/-- `entry(k).and_modify(f)`. -/
def modify (m : Finmap (fun _ : κ => ν)) (k : κ) (f : ν → ν) : Finmap (fun _ : κ => ν) :=
  match m.lookup k with
  | some v => m.insert k (f v)
  | none => m

theorem lookup_upsert (m : Finmap (fun _ : κ => ν)) (k j : κ) (v : ν) (f : ν → ν) :
    (upsert m k v f).lookup j = if j = k then some (f ((m.lookup k).getD v)) else m.lookup j := by
  by_cases hj : j = k
  · subst hj; simp [upsert]
  · simp [upsert, hj, Finmap.lookup_insert_of_ne _ hj]

theorem lookup_modify (m : Finmap (fun _ : κ => ν)) (k j : κ) (f : ν → ν) :
    (modify m k f).lookup j = if j = k then (m.lookup k).map f else m.lookup j := by
  unfold modify
  cases hk : m.lookup k with
  | some v =>
    by_cases hj : j = k
    · subst hj; simp
    · simp [hj, Finmap.lookup_insert_of_ne _ hj]
  | none =>
    by_cases hj : j = k
    · subst hj; simp [hk]
    · simp [hj]

theorem keys_insert (m : Finmap (fun _ : κ => ν)) (k : κ) (v : ν) :
    (m.insert k v).keys = insert k m.keys := by
  ext j
  rw [Finmap.mem_keys, Finmap.mem_insert, Finset.mem_insert, Finmap.mem_keys]

structure LocalTo (K : κ → Prop) (f : Finmap (fun _ : κ => ν) → Finmap (fun _ : κ => ν)) : Prop where
  untouched : ∀ m k, ¬ K k → (f m).lookup k = m.lookup k
  congr : ∀ m m', (∀ k, K k → m.lookup k = m'.lookup k) → ∀ k, K k → (f m).lookup k = (f m').lookup k

section Local

variable {K L : κ → Prop} {f g : Finmap (fun _ : κ => ν) → Finmap (fun _ : κ => ν)}

theorem localTo_upsert {k : κ} (hk : K k) (v : ν) (f : ν → ν) :
    LocalTo K (fun m : Finmap (fun _ : κ => ν) => upsert m k v f) := by
  constructor
  · intro m j hj
    rw [lookup_upsert, if_neg fun h : j = k => hj (h ▸ hk)]
  · intro m m' h j hj
    rw [lookup_upsert, lookup_upsert, h k hk, h j hj]

theorem localTo_modify {k : κ} (hk : K k) (f : ν → ν) :
    LocalTo K (fun m : Finmap (fun _ : κ => ν) => modify m k f) := by
  constructor
  · intro m j hj
    rw [lookup_modify, if_neg fun h : j = k => hj (h ▸ hk)]
  · intro m m' h j hj
    rw [lookup_modify, lookup_modify, h k hk, h j hj]

theorem LocalTo.comp (hg : LocalTo K g) (hf : LocalTo K f) : LocalTo K fun m => g (f m) := by
  constructor
  · intro m k hk
    rw [hg.untouched _ k hk, hf.untouched m k hk]
  · intro m m' h
    exact hg.congr _ _ (hf.congr m m' h)

theorem LocalTo.commute (hf : LocalTo K f) (hg : LocalTo L g) (hdisjoint : ∀ k, K k → ¬ L k)
    (m : Finmap (fun _ : κ => ν)) : g (f m) = f (g m) := by
  apply Finmap.ext_lookup
  intro k
  by_cases hK : K k
  · rw [hg.untouched _ k (hdisjoint k hK)]
    apply hf.congr _ _ _ k hK
    intro j hj
    exact (hg.untouched m j (hdisjoint j hj)).symm
  · rw [hf.untouched _ k hK]
    by_cases hL : L k
    · apply hg.congr _ _ _ k hL
      intro j hj
      exact hf.untouched m j fun hK => hdisjoint j hK hj
    · rw [hg.untouched _ k hL, hg.untouched m k hL, hf.untouched m k hK]

end Local

def total (w : ν → ℕ) (m : Finmap (fun _ : κ => ν)) : ℕ := ∑ k ∈ m.keys, ((m.lookup k).map w).getD 0

theorem total_empty (w : ν → ℕ) : total w (∅ : Finmap (fun _ : κ => ν)) = 0 := by
  simp [total]

theorem weight_eq_zero_of_notMem (w : ν → ℕ) {m : Finmap (fun _ : κ => ν)} {k : κ} (h : k ∉ m.keys) :
    ((m.lookup k).map w).getD 0 = 0 := by
  rw [Finmap.mem_keys, ← Finmap.lookup_eq_none] at h
  simp [h]

theorem total_eq_add_erase (w : ν → ℕ) (m : Finmap (fun _ : κ => ν)) (k : κ) :
    total w m = ((m.lookup k).map w).getD 0 + ∑ j ∈ m.keys.erase k, ((m.lookup j).map w).getD 0 := by
  by_cases hk : k ∈ m.keys
  · exact (Finset.add_sum_erase _ (fun j => ((m.lookup j).map w).getD 0) hk).symm
  · rw [weight_eq_zero_of_notMem w hk, Finset.erase_eq_of_notMem hk, Nat.zero_add, total]

theorem total_insert (w : ν → ℕ) (m : Finmap (fun _ : κ => ν)) (k : κ) (v : ν) :
    total w (m.insert k v) + ((m.lookup k).map w).getD 0 = total w m + w v := by
  have hrest : ∑ j ∈ (m.insert k v).keys.erase k, (((m.insert k v).lookup j).map w).getD 0 =
      ∑ j ∈ m.keys.erase k, ((m.lookup j).map w).getD 0 := by
    rw [keys_insert, Finset.erase_insert_eq_erase]
    apply Finset.sum_congr rfl
    intro j hj
    rw [Finmap.lookup_insert_of_ne _ (Finset.ne_of_mem_erase hj)]
  rw [total_eq_add_erase w (m.insert k v) k, total_eq_add_erase w m k, hrest, Finmap.lookup_insert]
  simp only [Option.map_some, Option.getD_some]
  omega

theorem weight_le_total (w : ν → ℕ) (m : Finmap (fun _ : κ => ν)) (k : κ) :
    ((m.lookup k).map w).getD 0 ≤ total w m := by
  rw [total_eq_add_erase w m k]
  exact Nat.le_add_right _ _

end Library.FiniteMaps
