import VelaNetwork.HotStuff
import VelaNetwork.Library.Quorums

namespace VelaNetwork

open Library.Quorums

namespace ConsensusConfig

def addresses (config : ConsensusConfig) : Finset Address := (config.validatorSet.map (·.address)).toFinset

theorem new_addresses_card {validators : List Validator} (hdistinct : (validators.map (·.address)).Nodup) :
    (new validators).addresses.card = validators.length := by
  simp only [addresses, new]
  rw [List.toFinset_card_of_nodup hdistinct, List.length_map]

@[simp] theorem new_quorumSize (validators : List Validator) :
    (new validators).quorumSize = 2 * ((validators.length - 1) / 3) + 1 := rfl

end ConsensusConfig

def QuorumsIntersect (validators : List Validator) : Prop :=
  let config := ConsensusConfig.new validators
  ∀ A ⊆ config.addresses, ∀ B ⊆ config.addresses, config.quorumSize ≤ A.card → config.quorumSize ≤ B.card →
    config.f + 1 ≤ (A ∩ B).card ∧ (A ∩ B).Nonempty

theorem quorumsIntersect_iff_intersecting (validators : List Validator) :
    QuorumsIntersect validators ↔ Intersecting (ConsensusConfig.new validators).addresses
      (ConsensusConfig.new validators).quorumSize ((ConsensusConfig.new validators).f + 1) := by
  constructor
  · intro h A hA B hB hqA hqB
    exact (h A hA B hB hqA hqB).1
  · intro h A hA B hB hqA hqB
    have hcard := h A hA B hB hqA hqB
    exact ⟨hcard, Finset.card_pos.mp (by omega)⟩

theorem quorums_intersect_iff (validators : List Validator) (hne : validators ≠ [])
    (hdistinct : (validators.map (·.address)).Nodup) :
    QuorumsIntersect validators ↔ validators.length % 3 = 1 := by
  have hcard := ConsensusConfig.new_addresses_card hdistinct
  have hpos : 0 < validators.length := List.length_pos_iff.mpr hne
  rw [quorumsIntersect_iff_intersecting, intersecting_iff, hcard]
  · change validators.length + ((validators.length - 1) / 3 + 1) ≤
      2 * (2 * ((validators.length - 1) / 3) + 1) ↔ _
    omega
  · rw [hcard, ConsensusConfig.new_quorumSize]
    omega
  · omega

def committee (n : ℕ) : List Validator :=
  (List.range n).map fun i => { address := ⟨Vector.replicate 32 (UInt8.ofNat i)⟩, stake := 1000, index := i }

theorem quorums_intersect_four : QuorumsIntersect (committee 4) :=
  (quorums_intersect_iff (committee 4) (by decide) (by decide +kernel)).mpr (by decide)

theorem quorums_of_three_disjoint : committee 3 ≠ [] ∧ ((committee 3).map (·.address)).Nodup ∧
    ¬ QuorumsIntersect (committee 3) := by
  refine ⟨by decide, by decide +kernel, fun h => ?_⟩
  have hlow := h {⟨Vector.replicate 32 0⟩} (by decide +kernel) {⟨Vector.replicate 32 1⟩} (by decide +kernel)
    (by decide) (by decide)
  exact absurd hlow.2 (by decide +kernel)

end VelaNetwork
