import VelaNetwork.Certificates

namespace VelaNetwork.HotStuffNode

open Library.Runs

variable (P : Primitives)

def EntersDecide (n : HotStuffNode) (c : EngineCall) : Prop :=
  n.phase ≠ .decide ∧ (n.after P c).phase = .decide

def CommitsWith (n : HotStuffNode) (c : EngineCall) (qc : QuorumCert) : Prop :=
  ∃ block, (n.after P c).committedBlocks = n.committedBlocks ++ [block] ∧ block.qc = some qc ∧
    block.hash P = qc.blockHash

structure FinalizesCertified (n : HotStuffNode) (c : EngineCall) : Prop where
  decides : n.EntersDecide P c → ∃ qc ∈ n.formed P c, n.CommitsWith P c qc
  keeps : ¬ n.EntersDecide P c → (n.after P c).committedBlocks = n.committedBlocks

def CertifiesPending (n : HotStuffNode) : EngineCall → Prop
  | .handleVote vote order => n.Completes P vote → n.phase = .commit →
      ∃ block ∈ n.pendingBlock, ∀ v ∈ (order.apply (n.commitVotes.insert vote).values).head?,
        v.blockHash = block.hash P
  | _ => True

variable {P} {n : HotStuffNode}

theorem committedBlocks_of_open {c : EngineCall}
    (h : ∀ vote order, c = .handleVote vote order → ¬ (n.Completes P vote ∧ n.phase = .commit)) :
    (n.after P c).committedBlocks = n.committedBlocks ∧
      ((n.after P c).phase = .decide → n.phase = .decide) := by
  cases c with
  | propose now transactions =>
    rw [after_propose]
    split
    · exact ⟨rfl, fun hdecide => by cases hdecide⟩
    · exact ⟨rfl, id⟩
  | handlePropose block highQc =>
    rw [after_handlePropose]
    split
    · exact ⟨rfl, id⟩
    · exact ⟨rfl, id⟩
  | handleVote vote order =>
    have hopen := h vote order rfl
    rw [after_handleVote]
    split
    · rename_i hcompletes
      have hne : n.phase ≠ .commit := fun hphase => hopen ⟨hcompletes, hphase⟩
      rw [(closePhase_of_phase_ne _ (by rwa [recordVote_phase])).1, recordVote_committedBlocks,
        closePhase_phase, recordVote_phase]
      refine ⟨rfl, ?_⟩
      cases hphase : n.phase with
      | prepare => exact fun hdecide => by cases hdecide
      | preCommit => exact fun hdecide => by cases hdecide
      | commit => exact absurd hphase hne
      | decide => exact fun _ => rfl
    · split
      · simp
      · exact ⟨rfl, id⟩
  | handleNewView round highQc =>
    rw [after_handleNewView]
    split
    · exact ⟨n.adoptQc_committedBlocks highQc, fun hdecide => by cases hdecide⟩
    · simp

theorem finalizesCertified_of_open {c : EngineCall}
    (h : ∀ vote order, c = .handleVote vote order → ¬ (n.Completes P vote ∧ n.phase = .commit)) :
    n.FinalizesCertified P c := by
  obtain ⟨hkeeps, hphase⟩ := committedBlocks_of_open h
  exact ⟨fun henters => absurd (hphase henters.2) henters.1, fun _ => hkeeps⟩

section Commit

variable {vote : Vote} (order : IterOrder) (hcompletes : n.Completes P vote) (hphase : n.phase = .commit)

include hcompletes hphase

theorem after_commit : n.after P (.handleVote vote order) =
    ({ n.recordVote vote with phase := .decide } : HotStuffNode).commitBlock
      ((n.recordVote vote).formQc order .commit) := by
  have hrecorded : (n.recordVote vote).phase = .commit := (n.recordVote_phase vote).trans hphase
  rw [after_handleVote, if_pos hcompletes, hphase, closePhase_commit hrecorded]

theorem entersDecide_commit : n.EntersDecide P (.handleVote vote order) := by
  constructor
  · rw [hphase]
    decide
  · rw [after_commit order hcompletes hphase, commitBlock_phase]

theorem formed_commit :
    n.formed P (.handleVote vote order) = some ((n.recordVote vote).formQc order .commit) := by
  rw [formed_handleVote, if_pos hcompletes, hphase]

theorem formed_commit_blockHash {h : Hash} : ((n.recordVote vote).formQc order .commit).blockHash = h ↔
    ∀ v ∈ (order.apply (n.commitVotes.insert vote).values).head?, v.blockHash = h := by
  have hrecord : (n.recordVote vote).votesOf .commit = n.commitVotes.insert vote := by
    rw [recordVote_commit hphase]
    rfl
  have hpos := hcompletes.size_pos
  rw [hphase] at hpos
  rw [formQc_blockHash_iff order hpos, hrecord]

theorem committedBlocks_commit {block : Block} (hpending : n.pendingBlock = some block) :
    (n.after P (.handleVote vote order)).committedBlocks =
      n.committedBlocks ++ [{ block with qc := some ((n.recordVote vote).formQc order .commit) }] := by
  have hsome : ({ n.recordVote vote with phase := .decide } : HotStuffNode).pendingBlock = some block :=
    (n.recordVote_pendingBlock vote).trans hpending
  rw [after_commit order hcompletes hphase, commitBlock_some hsome]
  change (n.recordVote vote).committedBlocks ++ _ = _
  rw [recordVote_committedBlocks]

theorem committedBlocks_commit_none (hpending : n.pendingBlock = none) :
    (n.after P (.handleVote vote order)).committedBlocks = n.committedBlocks := by
  have hnone : ({ n.recordVote vote with phase := .decide } : HotStuffNode).pendingBlock = none :=
    (n.recordVote_pendingBlock vote).trans hpending
  rw [after_commit order hcompletes hphase, commitBlock_none hnone]
  exact n.recordVote_committedBlocks vote

theorem finalizesCertified_commit_iff : n.FinalizesCertified P (.handleVote vote order) ↔
    ∃ block ∈ n.pendingBlock, ∀ v ∈ (order.apply (n.commitVotes.insert vote).values).head?,
      v.blockHash = block.hash P := by
  have henters := entersDecide_commit order hcompletes hphase
  have hformed := formed_commit order hcompletes hphase
  cases hpending : n.pendingBlock with
  | none =>
    constructor
    · intro h
      obtain ⟨qc, _, block, hgrown, _⟩ := h.decides henters
      rw [committedBlocks_commit_none order hcompletes hphase hpending] at hgrown
      have hlength := congrArg List.length hgrown
      rw [List.length_append, List.length_singleton] at hlength
      omega
    · rintro ⟨block, hblock, _⟩
      cases hblock
  | some block =>
    have hgrown := committedBlocks_commit order hcompletes hphase hpending
    constructor
    · intro h
      obtain ⟨qc, hqc, block', hgrown', _, hhash⟩ := h.decides henters
      rw [hformed] at hqc
      obtain rfl := Option.some.inj hqc
      rw [hgrown, List.append_cancel_left_eq, List.cons.injEq] at hgrown'
      rw [← hgrown'.1] at hhash
      exact ⟨block, rfl, (formed_commit_blockHash order hcompletes hphase).mp hhash.symm⟩
    · rintro ⟨block', hblock', hvotes⟩
      obtain rfl := Option.some.inj hblock'
      refine ⟨fun _ => ⟨_, hformed, _, hgrown, rfl, ?_⟩, fun hno => absurd henters hno⟩
      exact ((formed_commit_blockHash order hcompletes hphase).mpr hvotes).symm

end Commit

theorem finalizesCertified_iff (n : HotStuffNode) (c : EngineCall) :
    n.FinalizesCertified P c ↔ n.CertifiesPending P c := by
  cases c with
  | handleVote vote order =>
    by_cases h : n.Completes P vote ∧ n.phase = .commit
    · rw [finalizesCertified_commit_iff order h.1 h.2]
      exact ⟨fun hcertifies _ _ => hcertifies, fun hcertifies => hcertifies h.1 h.2⟩
    · apply iff_of_true
      · apply finalizesCertified_of_open
        rintro _ _ ⟨⟩
        exact h
      · exact fun hcompletes hphase => absurd ⟨hcompletes, hphase⟩ h
  | _ => exact iff_of_true (finalizesCertified_of_open fun _ _ hcall => by cases hcall) trivial

theorem finalized_is_certified_iff (P : Primitives) (address : Address) (signingKey : SigningKey)
    (config : ConsensusConfig) (cs : List EngineCall) :
    AllSteps (after P) (FinalizesCertified P) (new address signingKey config) cs ↔
      AllSteps (after P) (CertifiesPending P) (new address signingKey config) cs :=
  allSteps_congr finalizesCertified_iff

section Runs

instance (n : HotStuffNode) (c : EngineCall) : Decidable (n.CertifiesPending P c) :=
  match c with
  | .handleVote vote order => inferInstanceAs (Decidable (n.Completes P vote → n.phase = .commit →
      ∃ block ∈ n.pendingBlock, ∀ v ∈ (order.apply (n.commitVotes.insert vote).values).head?,
        v.blockHash = block.hash P))
  | .propose _ _ => inferInstanceAs (Decidable True)
  | .handlePropose _ _ => inferInstanceAs (Decidable True)
  | .handleNewView _ _ => inferInstanceAs (Decidable True)

instance (n : HotStuffNode) (c : EngineCall) : Decidable (n.FinalizesCertified P c) :=
  decidable_of_iff _ (finalizesCertified_iff n c).symm

noncomputable def lateProposal : List EngineCall :=
  .handlePropose (firstBlock 1) none :: voteCalls (firstBlock 1) [0, 1, 2, 0, 1, 2, 0, 1] ++
    .handlePropose (Block.new .sample 2 2 ((firstBlock 1).hash .sample) [] (sampleAddr 0) 0) none ::
      voteCalls (firstBlock 1) [2]

theorem uncertified_block_committed :
    ¬ AllSteps (after .sample) (FinalizesCertified .sample) engineOfFour lateProposal := by
  decide +kernel

end Runs

end VelaNetwork.HotStuffNode
