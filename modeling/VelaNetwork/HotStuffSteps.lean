import VelaNetwork.HotStuff

namespace VelaNetwork.HotStuffNode

def allVotes (n : HotStuffNode) : List Vote :=
  n.prepareVotes.values ++ n.precommitVotes.values ++ n.commitVotes.values

def votesOf (n : HotStuffNode) : Phase → VoteMap
  | .prepare => n.prepareVotes
  | .preCommit => n.precommitVotes
  | .commit => n.commitVotes
  | .decide => .empty

theorem mem_allVotes {n : HotStuffNode} {v : Vote} :
    v ∈ n.allVotes ↔ ∃ phase, v ∈ (n.votesOf phase).values := by
  simp only [allVotes, List.mem_append]
  constructor
  · rintro ((h | h) | h)
    · exact ⟨.prepare, h⟩
    · exact ⟨.preCommit, h⟩
    · exact ⟨.commit, h⟩
  · rintro ⟨phase, h⟩
    cases phase with
    | prepare => exact Or.inl (Or.inl h)
    | preCommit => exact Or.inl (Or.inr h)
    | commit => exact Or.inr h
    | decide => exact absurd h (by simp [votesOf])

def recordVote (n : HotStuffNode) (vote : Vote) : HotStuffNode :=
  match n.phase with
  | .prepare => { n with prepareVotes := n.prepareVotes.insert vote }
  | .preCommit => { n with precommitVotes := n.precommitVotes.insert vote }
  | .commit => { n with commitVotes := n.commitVotes.insert vote }
  | .decide => n

def closePhase (n : HotStuffNode) (qc : QuorumCert) : HotStuffNode :=
  match n.phase with
  | .prepare => { n with highQc := some qc, phase := .preCommit }
  | .preCommit => { n with lockedQc := some qc, phase := .commit }
  | .commit => ({ n with phase := .decide } : HotStuffNode).commitBlock qc
  | .decide => n

def nextPhase : Phase → Phase
  | .prepare => .preCommit
  | .preCommit => .commit
  | .commit => .decide
  | .decide => .decide

theorem commitBlock_phase (n : HotStuffNode) (qc : QuorumCert) : (n.commitBlock qc).phase = n.phase := by
  unfold commitBlock; split <;> rfl

theorem closePhase_phase (n : HotStuffNode) (qc : QuorumCert) :
    (n.closePhase qc).phase = nextPhase n.phase := by
  unfold closePhase
  split
  · rename_i h
    rw [h]; rfl
  · rename_i h
    rw [h]; rfl
  · rename_i h
    rw [commitBlock_phase, h]; rfl
  · rename_i h
    rw [h]; rfl

theorem closePhase_prepare {n : HotStuffNode} (h : n.phase = .prepare) (qc : QuorumCert) :
    n.closePhase qc = { n with highQc := some qc, phase := .preCommit } := by
  unfold closePhase
  rw [h]

theorem closePhase_preCommit {n : HotStuffNode} (h : n.phase = .preCommit) (qc : QuorumCert) :
    n.closePhase qc = { n with lockedQc := some qc, phase := .commit } := by
  unfold closePhase
  rw [h]

theorem closePhase_commit {n : HotStuffNode} (h : n.phase = .commit) (qc : QuorumCert) :
    n.closePhase qc = ({ n with phase := .decide } : HotStuffNode).commitBlock qc := by
  unfold closePhase
  rw [h]

def nextView (n : HotStuffNode) : UInt64 := if n.phase = .commit then n.round + 1 else n.round

section RecordVote

variable (n : HotStuffNode) (vote : Vote)

@[simp] theorem recordVote_phase : (n.recordVote vote).phase = n.phase := by
  unfold recordVote; split <;> simp_all

@[simp] theorem recordVote_config : (n.recordVote vote).config = n.config := by
  unfold recordVote; split <;> rfl

@[simp] theorem recordVote_round : (n.recordVote vote).round = n.round := by
  unfold recordVote; split <;> rfl

@[simp] theorem recordVote_signingKey : (n.recordVote vote).signingKey = n.signingKey := by
  unfold recordVote; split <;> rfl

@[simp] theorem recordVote_committedBlocks : (n.recordVote vote).committedBlocks = n.committedBlocks := by
  unfold recordVote; split <;> rfl

@[simp] theorem recordVote_pendingBlock : (n.recordVote vote).pendingBlock = n.pendingBlock := by
  unfold recordVote; split <;> rfl

@[simp] theorem recordVote_lockedQc : (n.recordVote vote).lockedQc = n.lockedQc := by
  unfold recordVote; split <;> rfl

@[simp] theorem recordVote_highQc : (n.recordVote vote).highQc = n.highQc := by
  unfold recordVote; split <;> rfl

theorem recordVote_prepare {n : HotStuffNode} (h : n.phase = .prepare) (vote : Vote) :
    n.recordVote vote = { n with prepareVotes := n.prepareVotes.insert vote } := by
  unfold recordVote
  rw [h]

theorem recordVote_preCommit {n : HotStuffNode} (h : n.phase = .preCommit) (vote : Vote) :
    n.recordVote vote = { n with precommitVotes := n.precommitVotes.insert vote } := by
  unfold recordVote
  rw [h]

theorem recordVote_commit {n : HotStuffNode} (h : n.phase = .commit) (vote : Vote) :
    n.recordVote vote = { n with commitVotes := n.commitVotes.insert vote } := by
  unfold recordVote
  rw [h]

theorem mem_recordVote_votesOf {n : HotStuffNode} {vote v : Vote} {phase : Phase}
    (h : v ∈ ((n.recordVote vote).votesOf phase).values) : v = vote ∨ v ∈ (n.votesOf phase).values := by
  unfold recordVote at h
  split at h <;> cases phase <;>
    first
    | exact VoteMap.mem_values_insert h
    | exact Or.inr h

end RecordVote

variable (P : Primitives) (order : IterOrder) (n : HotStuffNode) (vote : Vote)

/-- The three branches of `handle_vote` are one rule. -/
theorem handleVote_eq : n.handleVote P order vote =
    if vote.verify P = true ∧ n.phase ≠ .decide then
      if n.config.quorumSize ≤ ((n.recordVote vote).votesOf n.phase).size then
        ((n.recordVote vote).closePhase ((n.recordVote vote).formQc order n.phase),
          some (.newView n.nextView ((n.recordVote vote).formQc order n.phase)))
      else (n.recordVote vote, none)
    else (n, none) := by
  unfold handleVote
  by_cases hv : vote.verify P = true
  · cases hp : n.phase <;>
      simp [hv, recordVote, closePhase, votesOf, nextView, hp]
  · simp [hv]

theorem commitBlock_some {n : HotStuffNode} {block : Block} (h : n.pendingBlock = some block)
    (qc : QuorumCert) :
    n.commitBlock qc = { n with
      pendingBlock := none
      committedBlocks := n.committedBlocks ++ [{ block with qc := some qc }]
      prepareVotes := .empty
      precommitVotes := .empty
      commitVotes := .empty
      committed_ne_nil := by simp } := by
  unfold commitBlock
  split
  · rename_i b hb
    obtain rfl : b = block := Option.some.inj (hb.symm.trans h)
    rfl
  · rename_i hb
    exact absurd (h.symm.trans hb) (by simp)

theorem commitBlock_none {n : HotStuffNode} (h : n.pendingBlock = none) (qc : QuorumCert) :
    n.commitBlock qc = n := by
  unfold commitBlock
  rw [h]

theorem commitBlock_signer (n : HotStuffNode) (qc : QuorumCert) :
    (n.commitBlock qc).round = n.round ∧ (n.commitBlock qc).signingKey = n.signingKey := by
  unfold commitBlock
  split
  · exact ⟨rfl, rfl⟩
  · exact ⟨rfl, rfl⟩

theorem closePhase_signer (n : HotStuffNode) (qc : QuorumCert) :
    (n.closePhase qc).round = n.round ∧ (n.closePhase qc).signingKey = n.signingKey := by
  unfold closePhase
  split
  · exact ⟨rfl, rfl⟩
  · exact ⟨rfl, rfl⟩
  · exact commitBlock_signer _ qc
  · exact ⟨rfl, rfl⟩

theorem tip_congr {n n' : HotStuffNode} (h : n'.committedBlocks = n.committedBlocks) : n'.tip = n.tip := by
  simp only [tip, h]

theorem commitBlock_tip {n : HotStuffNode} {block : Block} (h : n.pendingBlock = some block)
    (qc : QuorumCert) :
    (n.commitBlock qc).tip = { block with qc := some qc } := by
  simp [commitBlock_some h, tip]

theorem extendsLock_iff {n : HotStuffNode} {block : Block} :
    n.extendsLock block = true ↔ ∀ l ∈ n.lockedQc, l.blockHash = block.header.parentHash := by
  unfold extendsLock
  cases n.lockedQc with
  | none => simp
  | some l => simp [eq_comm]

theorem handleVote_cases :
    n.handleVote P order vote = (n, none) ∨
    (vote.verify P = true ∧ n.phase ≠ .decide ∧
      (n.handleVote P order vote = (n.recordVote vote, none) ∨
        (n.config.quorumSize ≤ ((n.recordVote vote).votesOf n.phase).size ∧
          n.handleVote P order vote =
            ((n.recordVote vote).closePhase ((n.recordVote vote).formQc order n.phase),
              some (.newView n.nextView ((n.recordVote vote).formQc order n.phase)))))) := by
  rw [handleVote_eq]
  by_cases hv : vote.verify P = true ∧ n.phase ≠ .decide
  · by_cases hq : n.config.quorumSize ≤ ((n.recordVote vote).votesOf n.phase).size
    · exact Or.inr ⟨hv.1, hv.2, Or.inr ⟨hq, by rw [if_pos hv, if_pos hq]⟩⟩
    · exact Or.inr ⟨hv.1, hv.2, Or.inl (by rw [if_pos hv, if_neg hq])⟩
  · exact Or.inl (if_neg hv)

theorem formQc_votes (phase : Phase) :
    (n.formQc order phase).votes = order.apply (n.votesOf phase).values := by
  cases phase with
  | decide => exact (List.perm_nil.mp (order.perm [])).symm
  | _ => rfl

theorem formQc_votes_perm (phase : Phase) : (n.formQc order phase).votes.Perm (n.votesOf phase).values := by
  rw [formQc_votes]
  exact order.perm _

section AdoptQc

variable (qc : QuorumCert)

@[simp] theorem adoptQc_config : (n.adoptQc qc).config = n.config := by unfold adoptQc; split <;> rfl

@[simp] theorem adoptQc_signingKey : (n.adoptQc qc).signingKey = n.signingKey := by
  unfold adoptQc; split <;> rfl

@[simp] theorem adoptQc_phase : (n.adoptQc qc).phase = n.phase := by unfold adoptQc; split <;> rfl

@[simp] theorem adoptQc_round : (n.adoptQc qc).round = n.round := by unfold adoptQc; split <;> rfl

@[simp] theorem adoptQc_committedBlocks : (n.adoptQc qc).committedBlocks = n.committedBlocks := by
  unfold adoptQc; split <;> rfl

@[simp] theorem adoptQc_pendingBlock : (n.adoptQc qc).pendingBlock = n.pendingBlock := by
  unfold adoptQc; split <;> rfl

@[simp] theorem adoptQc_lockedQc : (n.adoptQc qc).lockedQc = n.lockedQc := by unfold adoptQc; split <;> rfl

@[simp] theorem adoptQc_allVotes : (n.adoptQc qc).allVotes = n.allVotes := by unfold adoptQc; split <;> rfl

end AdoptQc

theorem handleNewView_cases (round : UInt64) (qc : QuorumCert) :
    (n.round < round ∧ n.handleNewView P round qc = ((n.adoptQc qc).advanceRound round, none)) ∨
    (¬ n.round < round ∧ n.pendingBlock = none ∧ n.handleNewView P round qc = (n.adoptQc qc, none)) ∨
    (¬ n.round < round ∧ ∃ block, n.pendingBlock = some block ∧ n.handleNewView P round qc =
      (n.adoptQc qc, some (.vote (Vote.sign P (block.hash P) n.round n.signingKey)))) := by
  unfold handleNewView
  by_cases hr : n.round < round
  · exact Or.inl ⟨hr, by simp [hr]⟩
  · cases hp : n.pendingBlock with
    | none => exact Or.inr (Or.inl ⟨hr, rfl, by simp [hr, hp]⟩)
    | some block => exact Or.inr (Or.inr ⟨hr, block, rfl, by simp [hr, hp]⟩)

@[simp] theorem advanceRound_allVotes (round : UInt64) : (n.advanceRound round).allVotes = [] := rfl

end VelaNetwork.HotStuffNode
