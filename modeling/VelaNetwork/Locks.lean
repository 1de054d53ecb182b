import VelaNetwork.Certificates

namespace VelaNetwork.HotStuffNode

open Library.Runs

variable (P : Primitives)

def LockHeld (n : HotStuffNode) : Prop :=
  ∀ l ∈ n.lockedQc, l.round ≤ n.round ∧ ∃ h ∈ n.highQc, l.round ≤ h.round

structure Advances (n n' : HotStuffNode) : Prop where
  round : n.round ≤ n'.round
  lock : ∀ l ∈ n.lockedQc, ∃ l' ∈ n'.lockedQc, l.round ≤ l'.round

structure Disciplined (n : HotStuffNode) : Prop where
  held : n.LockHeld
  prepared : n.phase = .preCommit → ∃ h ∈ n.highQc, n.round ≤ h.round

variable {P} {n : HotStuffNode}

theorem Advances.of_frame {n' : HotStuffNode} (hround : n'.round = n.round)
    (hlock : n'.lockedQc = n.lockedQc) :
    n.Advances n' := by
  constructor
  · simp [hround]
  · intro l hl
    exact ⟨l, by rwa [hlock], UInt64.le_refl l.round⟩

theorem Advances.trans {n n' n'' : HotStuffNode} (h : n.Advances n') (h' : n'.Advances n'') :
    n.Advances n'' := by
  refine ⟨UInt64.le_trans h.round h'.round, ?_⟩
  intro l hl
  obtain ⟨l', hl', hle⟩ := h.lock l hl
  obtain ⟨l'', hl'', hle'⟩ := h'.lock l' hl'
  exact ⟨l'', hl'', UInt64.le_trans hle hle'⟩

theorem adoptQc_rises (n : HotStuffNode) (qc : QuorumCert) {h : QuorumCert} (hh : h ∈ n.highQc) :
    ∃ h' ∈ (n.adoptQc qc).highQc, h.round ≤ h'.round := by
  unfold adoptQc
  split
  · rename_i hle
    rw [Option.mem_def.mp hh] at hle
    exact ⟨qc, rfl, hle⟩
  · exact ⟨h, hh, UInt64.le_refl h.round⟩

theorem Disciplined.adoptQc (h : n.Disciplined) (qc : QuorumCert) : (n.adoptQc qc).Disciplined := by
  have hrises : ∀ r : UInt64, (∃ q ∈ n.highQc, r ≤ q.round) → ∃ q ∈ (n.adoptQc qc).highQc, r ≤ q.round := by
    rintro r ⟨q, hq, hle⟩
    obtain ⟨q', hq', hle'⟩ := n.adoptQc_rises qc hq
    exact ⟨q', hq', UInt64.le_trans hle hle'⟩
  constructor
  · intro l hl
    rw [adoptQc_lockedQc] at hl
    rw [adoptQc_round]
    exact ⟨(h.held l hl).1, hrises l.round (h.held l hl).2⟩
  · rw [adoptQc_phase, adoptQc_round]
    intro hphase
    exact hrises n.round (h.prepared hphase)

theorem Disciplined.advanceRound (h : n.Disciplined) {round : UInt64} (hround : n.round < round) :
    (n.advanceRound round).Disciplined := by
  constructor
  · intro l hl
    obtain ⟨hle, hhigh⟩ := h.held l hl
    exact ⟨UInt64.le_trans hle (UInt64.le_of_lt hround), hhigh⟩
  · intro hphase
    cases hphase

theorem Disciplined.recordVote (h : n.Disciplined) (vote : Vote) : (n.recordVote vote).Disciplined := by
  constructor
  · intro l hl
    simp only [recordVote_lockedQc, recordVote_round, recordVote_highQc] at hl ⊢
    exact h.held l hl
  · simpa only [recordVote_phase, recordVote_round, recordVote_highQc] using h.prepared

theorem commitBlock_locks (n : HotStuffNode) (qc : QuorumCert) : (n.commitBlock qc).lockedQc = n.lockedQc ∧
    (n.commitBlock qc).highQc = n.highQc ∧ (n.commitBlock qc).round = n.round := by
  unfold commitBlock
  split
  · exact ⟨rfl, rfl, rfl⟩
  · exact ⟨rfl, rfl, rfl⟩

theorem closePhase_disciplined (h : n.Disciplined) {qc : QuorumCert} (hqc : qc.round = n.round) :
    (n.closePhase qc).Disciplined ∧ n.Advances (n.closePhase qc) := by
  cases hphase : n.phase with
  | prepare =>
    rw [closePhase_prepare hphase]
    refine ⟨⟨?_, ?_⟩, .of_frame rfl rfl⟩
    · intro l hl
      have hle := (h.held l hl).1
      exact ⟨hle, qc, rfl, hqc ▸ hle⟩
    · intro _
      exact ⟨qc, rfl, hqc ▸ UInt64.le_refl n.round⟩
  | preCommit =>
    rw [closePhase_preCommit hphase]
    obtain ⟨q, hq, hle⟩ := h.prepared hphase
    refine ⟨⟨?_, fun hcommit => by cases hcommit⟩, UInt64.le_refl _, ?_⟩
    · intro l hl
      obtain rfl := Option.some.inj hl
      exact ⟨hqc ▸ UInt64.le_refl n.round, q, hq, hqc ▸ hle⟩
    · intro l hl
      exact ⟨qc, rfl, hqc ▸ (h.held l hl).1⟩
  | commit =>
    rw [closePhase_commit hphase]
    obtain ⟨hlock, hhigh, hround⟩ := commitBlock_locks { n with phase := .decide } qc
    refine ⟨⟨?_, ?_⟩, .of_frame hround hlock⟩
    · intro l hl
      rw [hlock] at hl
      rw [hround, hhigh]
      exact h.held l hl
    · rw [commitBlock_phase]
      intro hdecide
      cases hdecide
  | decide =>
    have hsame : n.closePhase qc = n := by
      unfold closePhase
      rw [hphase]
    rw [hsame]
    exact ⟨h, .of_frame rfl rfl⟩

theorem Disciplined.after (h : n.Disciplined) (c : EngineCall) :
    (n.after P c).Disciplined ∧ n.Advances (n.after P c) := by
  cases c with
  | propose now transactions =>
    rw [after_propose]
    split
    · exact ⟨⟨h.held, fun hphase => by cases hphase⟩, .of_frame rfl rfl⟩
    · exact ⟨h, .of_frame rfl rfl⟩
  | handlePropose block highQc =>
    rw [after_handlePropose]
    split
    · exact ⟨⟨h.held, h.prepared⟩, .of_frame rfl rfl⟩
    · exact ⟨h, .of_frame rfl rfl⟩
  | handleVote vote order =>
    have hrecorded : n.Advances (n.recordVote vote) :=
      .of_frame (n.recordVote_round vote) (n.recordVote_lockedQc vote)
    rw [after_handleVote]
    split
    · obtain ⟨hclosed, hadvances⟩ := closePhase_disciplined (h.recordVote vote)
        (show ((n.recordVote vote).formQc order n.phase).round = _ from rfl)
      exact ⟨hclosed, hrecorded.trans hadvances⟩
    · split
      · exact ⟨h.recordVote vote, hrecorded⟩
      · exact ⟨h, .of_frame rfl rfl⟩
  | handleNewView round highQc =>
    have hadopted := h.adoptQc highQc
    rw [after_handleNewView]
    split
    · rename_i hround
      refine ⟨hadopted.advanceRound (by rwa [adoptQc_round]), UInt64.le_of_lt hround, ?_⟩
      intro l hl
      exact ⟨l, (n.adoptQc_lockedQc highQc).symm ▸ hl, UInt64.le_refl l.round⟩
    · exact ⟨hadopted, .of_frame (n.adoptQc_round highQc) (n.adoptQc_lockedQc highQc)⟩

theorem lock_discipline (P : Primitives) (address : Address) (signingKey : SigningKey)
    (config : ConsensusConfig) (cs : List EngineCall) :
    AllStates (after P) LockHeld (new address signingKey config) cs ∧
      AllSteps (after P) (fun n c => n.Advances (n.after P c)) (new address signingKey config) cs := by
  have hnew : (new address signingKey config).Disciplined := by
    constructor
    · intro l hl
      cases hl
    · intro hphase
      cases hphase
  have hrun : AllStates (after P) Disciplined (new address signingKey config) cs :=
    invariant (fun _ c h _ => (h.after c).1) hnew (allSteps_of_forall (p := fun _ => True) fun _ _ => trivial)
  exact ⟨hrun.mono fun _ h => h.held, hrun.allSteps fun _ c h => (h.after c).2⟩

end VelaNetwork.HotStuffNode
