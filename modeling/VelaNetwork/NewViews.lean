import VelaNetwork.Certificates

namespace VelaNetwork

open Library.Runs

variable (P : Primitives)

def ConsensusConfig.Supports (config : ConsensusConfig) (qc : QuorumCert) (vote : Vote) : Prop :=
  vote.verify P = true ∧ vote.blockHash = qc.blockHash ∧ vote.round = qc.round ∧
    ∃ validator ∈ config.validatorSet, vote.voter = validator.address

instance (config : ConsensusConfig) (qc : QuorumCert) (vote : Vote) : Decidable (config.Supports P qc vote) :=
  inferInstanceAs (Decidable (vote.verify P = true ∧ _ ∧ _ ∧ ∃ validator ∈ config.validatorSet, _))

def ConsensusConfig.supporters (config : ConsensusConfig) (qc : QuorumCert) : Finset Address :=
  ((qc.votes.filter fun vote => config.Supports P qc vote).map (·.voter)).toFinset

def ConsensusConfig.Certified (config : ConsensusConfig) (qc : QuorumCert) : Prop :=
  config.quorumSize ≤ (config.supporters P qc).card

namespace HotStuffNode

structure AdoptsGenuine (n : HotStuffNode) (round : UInt64) (qc : QuorumCert) : Prop where
  high : (n.handleNewView P round qc).1.highQc = some qc → n.config.Certified P qc
  view : (n.handleNewView P round qc).1.round ≠ n.round → n.config.Certified P qc
  vote : ∀ vote, (n.handleNewView P round qc).2 = some (.vote vote) → n.config.Certified P qc ∧
    vote.round = (n.handleNewView P round qc).1.round ∧ vote.blockHash = qc.blockHash ∧
    ∃ block ∈ n.pendingBlock, block.hash P = qc.blockHash

structure BringsGenuine (n : HotStuffNode) (round : UInt64) (qc : QuorumCert) : Prop where
  certified : (n.highQc.map (·.round)).getD 0 ≤ qc.round ∨ n.round < round ∨ n.pendingBlock.isSome = true →
    n.config.Certified P qc
  pending : ¬ n.round < round → ∀ block ∈ n.pendingBlock, block.hash P = qc.blockHash

def OnNewView (p : HotStuffNode → UInt64 → QuorumCert → Prop) (n : HotStuffNode) : EngineCall → Prop
  | .handleNewView round qc => p n round qc
  | _ => True

variable {P} {n : HotStuffNode} {round : UInt64} {qc : QuorumCert}

theorem handleNewView_fst (n : HotStuffNode) (round : UInt64) (qc : QuorumCert) :
    (n.handleNewView P round qc).1 =
      if n.round < round then (n.adoptQc qc).advanceRound round else n.adoptQc qc :=
        after_handleNewView n round qc

theorem handleNewView_highQc_iff :
    (n.handleNewView P round qc).1.highQc = some qc ↔ (n.highQc.map (·.round)).getD 0 ≤ qc.round := by
  have hadopt : (n.handleNewView P round qc).1.highQc = (n.adoptQc qc).highQc := by
    rw [handleNewView_fst]
    split <;> rfl
  rw [hadopt, adoptQc]
  split
  · simpa
  · rename_i hlow
    apply iff_of_false _ hlow
    intro hsame
    simp [hsame] at hlow

theorem handleNewView_round_iff : (n.handleNewView P round qc).1.round ≠ n.round ↔ n.round < round := by
  rw [handleNewView_fst]
  split
  · rename_i hround
    exact iff_of_true (fun hsame => absurd hround (hsame ▸ UInt64.lt_irrefl round)) hround
  · rename_i hround
    exact iff_of_false (fun hne => hne (n.adoptQc_round qc)) hround

theorem handleNewView_vote_iff {vote : Vote} : (n.handleNewView P round qc).2 = some (.vote vote) ↔
    ¬ n.round < round ∧ ∃ block ∈ n.pendingBlock, vote = Vote.sign P (block.hash P) n.round n.signingKey := by
  obtain ⟨hround, heq⟩ | ⟨hround, hnone, heq⟩ | ⟨hround, block, hsome, heq⟩ :=
    n.handleNewView_cases P round qc
  · simp [heq, hround]
  · simp [heq, hnone]
  · simp only [heq, hround, hsome]
    simp [eq_comm]

theorem adoptsGenuine_iff : n.AdoptsGenuine P round qc ↔ n.BringsGenuine P round qc := by
  constructor
  · intro h
    have hvote : ¬ n.round < round → ∀ block ∈ n.pendingBlock,
        n.config.Certified P qc ∧ block.hash P = qc.blockHash := by
      intro hround block hblock
      obtain ⟨hcertified, _, hhash, _⟩ := h.vote _ (handleNewView_vote_iff.mpr ⟨hround, block, hblock, rfl⟩)
      exact ⟨hcertified, hhash⟩
    constructor
    · rintro (hhigh | hround | hpending)
      · exact h.high (handleNewView_highQc_iff.mpr hhigh)
      · exact h.view (handleNewView_round_iff.mpr hround)
      · by_cases hround : n.round < round
        · exact h.view (handleNewView_round_iff.mpr hround)
        · obtain ⟨block, hblock⟩ := Option.isSome_iff_exists.mp hpending
          exact (hvote hround block hblock).1
    · intro hround block hblock
      exact (hvote hround block hblock).2
  · intro h
    constructor
    · exact fun hhigh => h.certified (Or.inl (handleNewView_highQc_iff.mp hhigh))
    · exact fun hround => h.certified (Or.inr (Or.inl (handleNewView_round_iff.mp hround)))
    · intro vote hvote
      obtain ⟨hround, block, hblock, rfl⟩ := handleNewView_vote_iff.mp hvote
      have hsame : (n.handleNewView P round qc).1.round = n.round := by
        by_contra hne
        exact hround (handleNewView_round_iff.mp hne)
      have hhash := h.pending hround block hblock
      have hsome : n.pendingBlock.isSome = true := by simp [Option.mem_def.mp hblock]
      exact ⟨h.certified (Or.inr (Or.inr hsome)), hsame.symm, hhash, block, hblock, hhash⟩

theorem adopted_genuine_iff (P : Primitives) (address : Address) (signingKey : SigningKey)
    (config : ConsensusConfig) (cs : List EngineCall) :
    AllSteps (after P) (OnNewView (AdoptsGenuine P)) (new address signingKey config) cs ↔
      AllSteps (after P) (OnNewView (BringsGenuine P)) (new address signingKey config) cs := by
  apply allSteps_congr
  intro n c
  cases c with
  | handleNewView round qc => exact adoptsGenuine_iff
  | _ => exact Iff.rfl

section Runs

instance (config : ConsensusConfig) (qc : QuorumCert) : Decidable (config.Certified P qc) :=
  inferInstanceAs (Decidable (config.quorumSize ≤ (config.supporters P qc).card))

instance (n : HotStuffNode) (round : UInt64) (qc : QuorumCert) : Decidable (n.BringsGenuine P round qc) :=
  decidable_of_iff
    (((n.highQc.map (·.round)).getD 0 ≤ qc.round ∨ n.round < round ∨ n.pendingBlock.isSome = true →
    n.config.Certified P qc) ∧ (¬ n.round < round → ∀ block ∈ n.pendingBlock, block.hash P = qc.blockHash))
    ⟨fun h => ⟨h.1, h.2⟩, fun h => ⟨h.1, h.2⟩⟩

theorem empty_certificate_adopted :
    ¬ AllSteps (after .sample) (OnNewView (AdoptsGenuine .sample)) engineOfFour
      [.handleNewView 1 ⟨Hash.zero, 9, []⟩] := by
  rintro ⟨h, _⟩
  have hbrings := adoptsGenuine_iff.mp h
  revert hbrings
  decide +kernel

end Runs

end HotStuffNode

end VelaNetwork
