import VelaNetwork.Merkle
import VelaNetwork.Library.PerfectTrees

namespace VelaNetwork

open Library.MerkleTrees

variable (P : Primitives)

def NoZero (inputs : List Bytes) : Prop := ∀ x ∈ inputs, P.blake3 x ≠ Hash.zero.bytes

def leafSequence (txs : List Transaction) : List Hash := expansion (txs.map (·.hash P))

structure RootsTell (xs ys : List Transaction) : Prop where
  exact : merkleRoot P xs = merkleRoot P ys ↔
    xs = [] ∧ ys = [] ∨ xs ≠ [] ∧ ys ≠ [] ∧ leafSequence P xs = leafSequence P ys
  sameLength : xs.length = ys.length → merkleRoot P xs = merkleRoot P ys →
    xs.map (·.hash P) = ys.map (·.hash P)
  single : ∀ tx, xs = [tx] → 1 < ys.length → 1 < (leafSequence P ys).length →
    merkleRoot P xs ≠ merkleRoot P ys

section Hashed

variable {P} {xs ys txs : List Transaction}

theorem combined_hashed {p : Hash × Hash} (h : p ∈ combined (combineHashes P) (txs.map (·.hash P))) :
    p.1.bytes.toList ++ p.2.bytes.toList ∈ hashedInRoot P txs :=
  List.mem_append_right _ (List.mem_map_of_mem h)

theorem leaf_ne_combined {inputs : List Bytes} (hcollision : NoCollision P inputs) {tx : Transaction}
    {p : Hash × Hash} (hleaf : tx.signingBytes P ∈ inputs)
    (hinner : p.1.bytes.toList ++ p.2.bytes.toList ∈ inputs) :
    tx.hash P ≠ combineHashes P p.1 p.2 := by
  intro heq
  have hbytes := congrArg List.length (hcollision _ hleaf _ hinner (Hash.mk.inj heq))
  simp [Transaction.signingBytes] at hbytes

theorem root_separates (hcollision : NoCollision P (hashedInRoot P xs ++ hashedInRoot P ys)) :
    Separates (combineHashes P)
      (combined (combineHashes P) (xs.map (·.hash P)) ++ combined (combineHashes P) (ys.map (·.hash P))) := by
  apply NoCollision.separates
  rw [List.map_append]
  apply hcollision.mono
  intro x hx
  rcases List.mem_append.mp hx with hx | hx
  · exact List.mem_append_left _ (List.mem_append_right _ hx)
  · exact List.mem_append_right _ (List.mem_append_right _ hx)

theorem merkleRoot_ne_zero (hzero : NoZero P (hashedInRoot P txs)) (h : txs ≠ []) :
    merkleRoot P txs ≠ Hash.zero := by
  have hmap : txs.map (·.hash P) ≠ [] := mt List.map_eq_nil_iff.mp h
  obtain ⟨t, ht⟩ := exists_root LeafTree.node (mt List.map_eq_nil_iff.mp hmap)
  have hroot : merkleRoot P txs = t.eval (combineHashes P) := by
    rw [merkleRoot_eq, root_eq_eval, show treeOf _ = some t from ht]
    rfl
  rw [hroot]
  intro heq
  cases t with
  | leaf a =>
    obtain ⟨tx, htx, rfl⟩ := List.mem_map.mp (leaves_subset ht List.mem_cons_self)
    exact hzero _ (mem_hashedInRoot htx).2 (congrArg Hash.bytes heq)
  | node l r =>
    exact hzero _ (combined_hashed (inner_subset ht List.mem_cons_self)) (congrArg Hash.bytes heq)

theorem merkleRoot_eq_iff (hcollision : NoCollision P (hashedInRoot P xs ++ hashedInRoot P ys))
    (hxs : xs ≠ []) (hys : ys ≠ []) :
    merkleRoot P xs = merkleRoot P ys ↔ leafSequence P xs = leafSequence P ys := by
  have hmap : xs.map (·.hash P) ≠ [] := mt List.map_eq_nil_iff.mp hxs
  have hmap' : ys.map (·.hash P) ≠ [] := mt List.map_eq_nil_iff.mp hys
  obtain ⟨r, hr⟩ := exists_root (combineHashes P) hmap
  obtain ⟨r', hr'⟩ := exists_root (combineHashes P) hmap'
  have hroots : merkleRoot P xs = merkleRoot P ys ↔
      root (combineHashes P) (xs.map (·.hash P)) = root (combineHashes P) (ys.map (·.hash P)) := by
    rw [merkleRoot_eq, merkleRoot_eq, hr, hr']
    exact Option.some_inj.symm
  rw [hroots]
  apply root_eq_iff hmap hmap' (root_separates hcollision)
  intro a ha p hp
  have hinner : p.1.bytes.toList ++ p.2.bytes.toList ∈ hashedInRoot P xs ++ hashedInRoot P ys :=
    List.mem_append.mpr ((List.mem_append.mp hp).imp combined_hashed combined_hashed)
  rcases List.mem_append.mp ha with ha | ha
  · obtain ⟨tx, htx, rfl⟩ := List.mem_map.mp ha
    exact leaf_ne_combined hcollision (List.mem_append_left _ (mem_hashedInRoot htx).2) hinner
  · obtain ⟨tx, htx, rfl⟩ := List.mem_map.mp ha
    exact leaf_ne_combined hcollision (List.mem_append_right _ (mem_hashedInRoot htx).2) hinner

theorem roots_tell (P : Primitives) {xs ys : List Transaction}
    (hcollision : NoCollision P (hashedInRoot P xs ++ hashedInRoot P ys))
    (hzero : NoZero P (hashedInRoot P xs ++ hashedInRoot P ys)) : RootsTell P xs ys := by
  have hzero_xs : NoZero P (hashedInRoot P xs) := fun x hx => hzero x (List.mem_append_left _ hx)
  have hzero_ys : NoZero P (hashedInRoot P ys) := fun x hx => hzero x (List.mem_append_right _ hx)
  refine ⟨?_, hashes_eq_of_merkleRoot hcollision, ?_⟩
  · by_cases hxs : xs = []
    · subst hxs
      by_cases hys : ys = []
      · simp [hys]
      · simp [hys, (merkleRoot_ne_zero hzero_ys hys).symm]
    · by_cases hys : ys = []
      · subst hys
        simp [hxs, merkleRoot_ne_zero hzero_xs hxs]
      · rw [merkleRoot_eq_iff hcollision hxs hys]
        simp [hxs, hys]
  · rintro tx rfl hlonger hmore heq
    have hys : ys ≠ [] := by
      rintro rfl
      cases hlonger
    rw [merkleRoot_eq_iff hcollision (List.cons_ne_nil _ _) hys] at heq
    rw [← heq, leafSequence, List.map_singleton, expansion_singleton] at hmore
    exact absurd hmore (Nat.lt_irrefl 1)

end Hashed

section Runs

open WorldState

theorem transfers_noZero : NoZero .sample (hashedInRoot .sample threeTransfers.transactions ++
    hashedInRoot .sample repeatedTransfer.transactions) := by
  rw [hashedInRoot, hashedInRoot]
  change NoZero .sample ((_ ++ (combined _ [_, _, _]).map _) ++ (_ ++ (combined _ ([_, _, _] ++ [_])).map _))
  rw [combined_repeat_last rfl rfl (by simp), combined_three]
  unfold NoZero
  decide +kernel

theorem roots_tell_transfers :
    RootsTell .sample threeTransfers.transactions repeatedTransfer.transactions := by
  apply roots_tell .sample _ transfers_noZero
  apply transfers_noCollision.mono
  intro x hx
  rcases List.mem_append.mp hx with hx | hx
  · exact List.mem_append_left _ (List.mem_cons_of_mem _ hx)
  · exact List.mem_append_right _ (List.mem_cons_of_mem _ hx)

end Runs

end VelaNetwork
