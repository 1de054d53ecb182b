import VelaNetwork.Certificates

namespace VelaNetwork.HotStuffNode

open Library.Runs

variable (P : Primitives)

def VotesOn (n : HotStuffNode) (block : Block) (highQc : Option QuorumCert) : Prop :=
  ∃ vote, (n.handlePropose P block highQc).2 = some (.vote vote)

def ProposalsAccepted (n : HotStuffNode) : Prop :=
  n.isLeader = true → ∀ now transactions, ∃ block highQc,
    (n.propose P now transactions).2 = some (.propose block highQc) ∧
    (n.after P (.propose now transactions)).VotesOn P block highQc ∧
    ∀ replica : HotStuffNode, replica.lockedQc = n.lockedQc → replica.VotesOn P block highQc

def LockOnTip (n : HotStuffNode) : Prop := ∀ l ∈ n.lockedQc, l.blockHash = n.tip.hash P

/-- In a round that it leads the node locks nothing but its tip and commits nothing but what it has locked,
and it enters such a round with no lock on another block than its tip. -/
def LeadsOnTip (n : HotStuffNode) : EngineCall → Prop
  | .handleVote vote order => n.isLeader = true → n.Completes P vote →
      (n.phase = .preCommit →
        ∀ v ∈ (order.apply (n.precommitVotes.insert vote).values).head?, v.blockHash = n.tip.hash P) ∧
      (n.phase = .commit → ∀ block ∈ n.pendingBlock, ∀ l ∈ n.lockedQc, l.blockHash = block.hash P)
  | .handleNewView round _ => n.round < round → n.config.isLeader round n.address = true → n.LockOnTip P
  | _ => True

variable {P} {n : HotStuffNode}

theorem votesOn_iff {block : Block} {highQc : Option QuorumCert} :
    n.VotesOn P block highQc ↔ n.extendsLock block = true := by
  unfold VotesOn handlePropose
  split
  · simp [*]
  · simp [*]

theorem proposalsAccepted_iff : n.ProposalsAccepted P ↔ (n.isLeader = true → n.LockOnTip P) := by
  unfold ProposalsAccepted
  apply forall_congr'
  intro hleader
  have hproposal : ∀ now transactions,
      n.propose P now transactions =
        ({ n with pendingBlock := some (n.proposal P now transactions), phase := .prepare },
        some (.propose (n.proposal P now transactions) n.highQc)) := by
    intro now transactions
    unfold propose
    rw [if_pos hleader]
  constructor
  · intro h
    obtain ⟨block, highQc, hblock, _, hreplicas⟩ := h 0 []
    rw [hproposal] at hblock
    cases hblock
    exact extendsLock_iff.mp (votesOn_iff.mp (hreplicas n rfl))
  · intro h now transactions
    refine ⟨n.proposal P now transactions, n.highQc, by rw [hproposal], ?_, ?_⟩
    · rw [after_propose, if_pos hleader, votesOn_iff, extendsLock_iff]
      exact h
    · intro replica hlock
      rw [votesOn_iff, extendsLock_iff, hlock]
      exact h

theorem onTip_congr {n' : HotStuffNode} (hleader : n'.isLeader = n.isLeader)
    (hlock : n'.lockedQc = n.lockedQc) (hchain : n'.committedBlocks = n.committedBlocks) :
    (n'.isLeader = true → n'.LockOnTip P) ↔ (n.isLeader = true → n.LockOnTip P) := by
  unfold LockOnTip
  rw [hleader, hlock, tip_congr hchain]

theorem recordVote_isLeader (n : HotStuffNode) (vote : Vote) : (n.recordVote vote).isLeader = n.isLeader := by
  unfold recordVote
  split <;> rfl

theorem onTip_record_iff (vote : Vote) :
    ((n.recordVote vote).isLeader = true → (n.recordVote vote).LockOnTip P) ↔
      (n.isLeader = true → n.LockOnTip P) :=
  onTip_congr (n.recordVote_isLeader vote) (n.recordVote_lockedQc vote) (n.recordVote_committedBlocks vote)

section Quorum

variable {vote : Vote} (order : IterOrder) (h : n.isLeader = true → n.LockOnTip P)
    (hcompletes : n.Completes P vote)

include hcompletes in
theorem onTip_lock_iff (hphase : n.phase = .preCommit) :
    ((n.after P (.handleVote vote order)).isLeader = true →
      (n.after P (.handleVote vote order)).LockOnTip P) ↔
      (n.isLeader = true →
        ∀ v ∈ (order.apply (n.precommitVotes.insert vote).values).head?, v.blockHash = n.tip.hash P) := by
  have hrecorded : (n.recordVote vote).phase = .preCommit := (n.recordVote_phase vote).trans hphase
  have hmap : (n.recordVote vote).votesOf .preCommit = n.precommitVotes.insert vote := by
    rw [recordVote_preCommit hphase]
    rfl
  have hpos := hcompletes.size_pos
  rw [hphase] at hpos
  have hhash := formQc_blockHash_iff order (h := n.tip.hash P) hpos
  rw [hmap] at hhash
  rw [after_handleVote, if_pos hcompletes, closePhase_preCommit hrecorded, hphase, ← hhash,
    ← n.recordVote_isLeader vote, ← tip_congr (n.recordVote_committedBlocks vote)]
  apply imp_congr Iff.rfl
  exact ⟨fun hlock => hlock _ rfl, fun hlock l hl => Option.some.inj hl ▸ hlock⟩

include h hcompletes in
theorem onTip_commit_iff (hphase : n.phase = .commit) :
    ((n.after P (.handleVote vote order)).isLeader = true →
      (n.after P (.handleVote vote order)).LockOnTip P) ↔
      (n.isLeader = true → ∀ block ∈ n.pendingBlock, ∀ l ∈ n.lockedQc, l.blockHash = block.hash P) := by
  have hrecorded : (n.recordVote vote).phase = .commit := (n.recordVote_phase vote).trans hphase
  rw [after_handleVote, if_pos hcompletes, closePhase_commit hrecorded]
  cases hpending : n.pendingBlock with
  | none =>
    have hnone : ({ n.recordVote vote with phase := .decide } : HotStuffNode).pendingBlock = none := by
      simp [hpending]
    rw [commitBlock_none hnone]
    have hsame := (onTip_record_iff (P := P) vote).mpr h
    exact iff_of_true hsame fun _ block hblock => by cases hblock
  | some block =>
    have hsome : ({ n.recordVote vote with phase := .decide } : HotStuffNode).pendingBlock = some block := by
      simp [hpending]
    unfold LockOnTip
    rw [commitBlock_tip hsome, commitBlock_some hsome]
    change ((n.recordVote vote).isLeader = true →
      ∀ l ∈ (n.recordVote vote).lockedQc, l.blockHash = block.hash P) ↔ _
    rw [recordVote_isLeader, recordVote_lockedQc]
    simp

end Quorum

theorem onTip_after_iff (h : n.isLeader = true → n.LockOnTip P) (c : EngineCall) :
    ((n.after P c).isLeader = true → (n.after P c).LockOnTip P) ↔ n.LeadsOnTip P c := by
  cases c with
  | propose now transactions =>
    rw [after_propose]
    split
    · exact iff_of_true h trivial
    · exact iff_of_true h trivial
  | handlePropose block highQc =>
    rw [after_handlePropose]
    split
    · exact iff_of_true h trivial
    · exact iff_of_true h trivial
  | handleVote vote order =>
    unfold LeadsOnTip
    by_cases hcompletes : n.Completes P vote
    · cases hphase : n.phase with
      | prepare =>
        have hrecorded : (n.recordVote vote).phase = .prepare := (n.recordVote_phase vote).trans hphase
        rw [after_handleVote, if_pos hcompletes, closePhase_prepare hrecorded]
        apply iff_of_true
        · exact (onTip_record_iff vote).mpr h
        · simp
      | preCommit =>
        rw [onTip_lock_iff order hcompletes hphase]
        simp [hcompletes]
      | commit =>
        rw [onTip_commit_iff order h hcompletes hphase]
        simp [hcompletes]
      | decide => exact absurd hphase hcompletes.2.1
    · rw [after_handleVote, if_neg hcompletes]
      apply iff_of_true
      · split
        · exact (onTip_record_iff vote).mpr h
        · exact h
      · exact fun _ hno => absurd hno hcompletes
  | handleNewView round highQc =>
    unfold LeadsOnTip
    rw [after_handleNewView]
    have hadopt : ((n.adoptQc highQc).LockOnTip P ↔ n.LockOnTip P) := by
      unfold LockOnTip
      rw [adoptQc_lockedQc, tip_congr (n.adoptQc_committedBlocks highQc)]
    split
    · rename_i hround
      have hleader : ((n.adoptQc highQc).advanceRound round).isLeader =
          n.config.isLeader round n.address := by
        unfold adoptQc
        split <;> rfl
      rw [hleader]
      constructor
      · exact fun hnext _ hlead => hadopt.mp (hnext hlead)
      · exact fun hnext hlead => hadopt.mpr (hnext hround hlead)
    · rename_i hround
      apply iff_of_true
      · intro hlead
        apply hadopt.mpr (h _)
        unfold adoptQc at hlead
        split at hlead <;> exact hlead
      · exact fun hno => absurd hno hround

theorem proposals_accepted_iff (P : Primitives) (address : Address) (signingKey : SigningKey)
    (config : ConsensusConfig) (cs : List EngineCall) :
    AllStates (after P) (ProposalsAccepted P) (new address signingKey config) cs ↔
      AllSteps (after P) (LeadsOnTip P) (new address signingKey config) cs := by
  have hnew : (new address signingKey config).isLeader = true →
      (new address signingKey config).LockOnTip P := by
    intro _ l hl
    cases hl
  have hsteps : AllStates (after P) (fun n => n.isLeader = true → n.LockOnTip P)
      (new address signingKey config) cs ↔
      AllSteps (after P) (LeadsOnTip P) (new address signingKey config) cs := by
    apply allStates_iff_of_step _ hnew
    intro n c h
    exact onTip_after_iff h c
  rw [← hsteps]
  constructor
  · exact fun h => h.mono fun n => proposalsAccepted_iff.mp
  · exact fun h => h.mono fun n => proposalsAccepted_iff.mpr

section Runs

instance (n : HotStuffNode) : Decidable (n.LockOnTip P) :=
  inferInstanceAs (Decidable (∀ l ∈ n.lockedQc, l.blockHash = n.tip.hash P))

noncomputable def lockedRun : List EngineCall :=
  .handlePropose (firstBlock 1) none :: voteCalls (firstBlock 1) [0, 1, 2, 0, 1, 2] ++
    [.handleNewView 4 ⟨Hash.zero, 0, []⟩]

theorem locked_leader_rejects_itself :
    ¬ AllStates (after .sample) (ProposalsAccepted .sample) engineOfFour lockedRun := by
  intro h
  have hlast := proposalsAccepted_iff.mp h.last
  revert hlast
  decide +kernel

end Runs

end VelaNetwork.HotStuffNode
