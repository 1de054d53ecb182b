import VelaNetwork.Locks

namespace VelaNetwork

open Library.Runs

variable (P : Primitives)

def EngineCall.received : EngineCall → Option QuorumCert
  | .handleNewView _ highQc => some highQc
  | _ => none

structure Watcher where
  node : HotStuffNode
  seen : List QuorumCert

namespace Watcher

def step (c : Watcher) (call : EngineCall) : Watcher where
  node := c.node.after P call
  seen := c.seen ++ call.received.toList ++ (c.node.formed P call).toList

def HighestSeen (c : Watcher) : Prop := ∀ q ∈ c.seen, ∃ h ∈ c.node.highQc, q.round ≤ h.round

def Rises (c : Watcher) (call : EngineCall) : Prop :=
  ∀ h ∈ c.node.highQc, ∃ h' ∈ (c.node.after P call).highQc, h.round ≤ h'.round

def NoneHigher (c : Watcher) : EngineCall → Prop
  | .handleVote vote _ => c.node.phase = .prepare → c.node.Completes P vote →
      ∀ h ∈ c.node.highQc, h.round ≤ c.node.round
  | _ => True

end Watcher

namespace HotStuffNode

def Prepared (n : HotStuffNode) : Prop :=
  n.phase = .preCommit ∨ n.phase = .commit → ∃ h ∈ n.highQc, n.round ≤ h.round

variable {P} {n : HotStuffNode}

theorem closePhase_highQc {n : HotStuffNode} (hphase : n.phase ≠ .prepare) (qc : QuorumCert) :
    (n.closePhase qc).highQc = n.highQc := by
  unfold closePhase
  split
  · exact absurd ‹n.phase = .prepare› hphase
  · rfl
  · exact (commitBlock_locks _ qc).2.1
  · rfl

theorem adoptQc_covers (n : HotStuffNode) (qc : QuorumCert) :
    ∃ h ∈ (n.adoptQc qc).highQc, qc.round ≤ h.round := by
  unfold adoptQc
  split
  · exact ⟨qc, rfl, UInt64.le_refl qc.round⟩
  · rename_i hlower
    cases hhigh : n.highQc with
    | none =>
      rw [hhigh] at hlower
      exact absurd UInt64.zero_le hlower
    | some h =>
      rw [hhigh] at hlower
      exact ⟨h, rfl, UInt64.le_of_lt (UInt64.not_le.mp hlower)⟩

theorem highQc_of_completes {vote : Vote} (h : n.Completes P vote) (order : IterOrder) :
    (n.after P (.handleVote vote order)).highQc =
      if n.phase = .prepare then some ((n.recordVote vote).formQc order n.phase) else n.highQc := by
  rw [after_handleVote, if_pos h]
  by_cases hphase : n.phase = .prepare
  · rw [closePhase_prepare ((n.recordVote_phase vote).trans hphase), if_pos hphase]
  · rw [closePhase_highQc (by rwa [n.recordVote_phase]), if_neg hphase, n.recordVote_highQc]

theorem highQc_of_not_completes {vote : Vote} (h : ¬ n.Completes P vote) (order : IterOrder) :
    (n.after P (.handleVote vote order)).highQc = n.highQc := by
  rw [after_handleVote, if_neg h]
  split
  · exact n.recordVote_highQc vote
  · rfl

theorem Prepared.recordVote (h : n.Prepared) (vote : Vote) : (n.recordVote vote).Prepared := by
  unfold Prepared
  rw [recordVote_phase, recordVote_highQc, recordVote_round]
  exact h

theorem Prepared.closePhase (h : n.Prepared) {qc : QuorumCert} (hqc : qc.round = n.round) :
    (n.closePhase qc).Prepared := by
  cases hphase : n.phase with
  | prepare =>
    rw [closePhase_prepare hphase]
    intro _
    exact ⟨qc, rfl, hqc ▸ UInt64.le_refl n.round⟩
  | preCommit =>
    rw [closePhase_preCommit hphase]
    intro _
    exact h (Or.inl hphase)
  | commit =>
    intro hnext
    rw [closePhase_phase, hphase] at hnext
    rcases hnext with hnext | hnext <;> cases hnext
  | decide =>
    intro hnext
    rw [closePhase_phase, hphase] at hnext
    rcases hnext with hnext | hnext <;> cases hnext

theorem Prepared.after (h : n.Prepared) (c : EngineCall) : (n.after P c).Prepared := by
  cases c with
  | propose now transactions =>
    rw [after_propose]
    split
    · rintro (hphase | hphase) <;> cases hphase
    · exact h
  | handlePropose block highQc =>
    rw [after_handlePropose]
    split
    · exact h
    · exact h
  | handleVote vote order =>
    rw [after_handleVote]
    split
    · exact (h.recordVote vote).closePhase rfl
    · split
      · exact h.recordVote vote
      · exact h
  | handleNewView round highQc =>
    rw [after_handleNewView]
    split
    · rintro (hphase | hphase) <;> cases hphase
    · unfold Prepared
      rw [adoptQc_phase, adoptQc_round]
      intro hphase
      obtain ⟨q, hq, hle⟩ := h hphase
      obtain ⟨q', hq', hle'⟩ := n.adoptQc_rises highQc hq
      exact ⟨q', hq', UInt64.le_trans hle hle'⟩

end HotStuffNode

namespace Watcher

variable {P} {c : Watcher}

theorem rises_of_highQc_eq {call : EngineCall} (h : (c.node.after P call).highQc = c.node.highQc) :
    c.Rises P call := by
  intro q hq
  exact ⟨q, h.symm ▸ hq, UInt64.le_refl q.round⟩

theorem rises_vote_iff (vote : Vote) (order : IterOrder) :
    c.Rises P (.handleVote vote order) ↔ c.NoneHigher P (.handleVote vote order) := by
  by_cases hcompletes : c.node.Completes P vote
  · have hhigh := HotStuffNode.highQc_of_completes hcompletes order
    have hround : ((c.node.recordVote vote).formQc order c.node.phase).round = c.node.round :=
      c.node.recordVote_round vote
    by_cases hphase : c.node.phase = .prepare
    · rw [if_pos hphase] at hhigh
      unfold Rises
      rw [hhigh]
      constructor
      · intro hrises _ _ h hh
        obtain ⟨h', hh', hle⟩ := hrises h hh
        obtain rfl := Option.some.inj hh'
        rwa [hround] at hle
      · intro hnone h hh
        refine ⟨_, rfl, ?_⟩
        rw [hround]
        exact hnone hphase hcompletes h hh
    · rw [if_neg hphase] at hhigh
      apply iff_of_true (rises_of_highQc_eq hhigh)
      exact fun h => absurd h hphase
  · apply iff_of_true (rises_of_highQc_eq (HotStuffNode.highQc_of_not_completes hcompletes order))
    exact fun _ h => absurd h hcompletes

theorem rises_iff (call : EngineCall) : c.Rises P call ↔ c.NoneHigher P call := by
  cases call with
  | propose now transactions =>
    apply iff_of_true _ trivial
    apply rises_of_highQc_eq
    rw [c.node.after_propose]
    split <;> rfl
  | handlePropose block highQc =>
    apply iff_of_true _ trivial
    apply rises_of_highQc_eq
    rw [c.node.after_handlePropose]
    split <;> rfl
  | handleVote vote order => exact rises_vote_iff vote order
  | handleNewView round highQc =>
    apply iff_of_true _ trivial
    intro h hh
    rw [c.node.after_handleNewView]
    split
    · exact c.node.adoptQc_rises highQc hh
    · exact c.node.adoptQc_rises highQc hh

theorem received_covered {call : EngineCall} {q : QuorumCert} (hq : q ∈ call.received) :
    ∃ h ∈ (c.node.after P call).highQc, q.round ≤ h.round := by
  cases call with
  | handleNewView round highQc =>
    obtain rfl := Option.some.inj hq
    rw [c.node.after_handleNewView]
    split
    · exact c.node.adoptQc_covers highQc
    · exact c.node.adoptQc_covers highQc
  | _ => cases hq

theorem formed_covered (hprepared : c.node.Prepared) {call : EngineCall} {q : QuorumCert}
    (hq : q ∈ c.node.formed P call) : ∃ h ∈ (c.node.after P call).highQc, q.round ≤ h.round := by
  cases call with
  | handleVote vote order =>
    rw [HotStuffNode.formed_handleVote] at hq
    split at hq
    · rename_i hcompletes
      obtain rfl := Option.some.inj hq
      have hround : ((c.node.recordVote vote).formQc order c.node.phase).round = c.node.round :=
        c.node.recordVote_round vote
      rw [HotStuffNode.highQc_of_completes hcompletes, hround]
      split
      · exact ⟨_, rfl, hround.symm ▸ UInt64.le_refl c.node.round⟩
      · rename_i hphase
        apply hprepared
        cases h : c.node.phase with
        | prepare => exact absurd h hphase
        | preCommit => exact Or.inl rfl
        | commit => exact Or.inr rfl
        | decide => exact absurd h hcompletes.2.1
    · cases hq
  | _ => cases hq

theorem HighestSeen.step (h : c.HighestSeen) (hprepared : c.node.Prepared) {call : EngineCall}
    (hrises : c.Rises P call) :
    (c.step P call).HighestSeen := by
  intro q hq
  rcases List.mem_append.mp hq with hq | hformed
  · rcases List.mem_append.mp hq with hold | hreceived
    · obtain ⟨h₁, hh₁, hle₁⟩ := h q hold
      obtain ⟨h₂, hh₂, hle₂⟩ := hrises h₁ hh₁
      exact ⟨h₂, hh₂, UInt64.le_trans hle₁ hle₂⟩
    · exact received_covered (Option.mem_toList.mp hreceived)
  · exact formed_covered hprepared (Option.mem_toList.mp hformed)

theorem high_qc_highest_iff (P : Primitives) (address : Address) (signingKey : SigningKey)
    (config : ConsensusConfig) (cs : List EngineCall) :
    AllSteps (step P) (Rises P) ⟨.new address signingKey config, []⟩ cs ∧
        AllStates (step P) HighestSeen ⟨.new address signingKey config, []⟩ cs ↔
      AllSteps (step P) (NoneHigher P) ⟨.new address signingKey config, []⟩ cs := by
  have hiff : AllSteps (step P) (Rises P) ⟨.new address signingKey config, []⟩ cs ↔
      AllSteps (step P) (NoneHigher P) ⟨.new address signingKey config, []⟩ cs :=
        allSteps_congr fun c call => rises_iff call
  rw [hiff]
  constructor
  · exact fun h => h.1
  · intro hnone
    refine ⟨hnone, ?_⟩
    have hstep : ∀ c call, HighestSeen c ∧ c.node.Prepared → NoneHigher P c call →
        (c.step P call).HighestSeen ∧ (c.step P call).node.Prepared := by
      rintro c call ⟨hseen, hprepared⟩ hnone
      exact ⟨hseen.step hprepared ((rises_iff call).mpr hnone), hprepared.after call⟩
    have hnew : HighestSeen ⟨.new address signingKey config, []⟩ ∧
        (HotStuffNode.new address signingKey config).Prepared := by
      refine ⟨fun q hq => absurd hq List.not_mem_nil, ?_⟩
      rintro (hphase | hphase) <;> cases hphase
    have hrun : AllStates (step P) (fun c => c.HighestSeen ∧ c.node.Prepared) _ cs :=
      invariant hstep hnew hnone
    exact hrun.mono fun _ h => h.1

section Runs

instance (c : Watcher) (call : EngineCall) : Decidable (c.Rises P call) :=
  inferInstanceAs (Decidable (∀ h ∈ c.node.highQc, ∃ h' ∈ (c.node.after P call).highQc, h.round ≤ h'.round))

noncomputable def lowering : List EngineCall :=
  .handleNewView 1 ⟨Hash.zero, 9, []⟩ :: HotStuffNode.voteCalls (HotStuffNode.firstBlock 1) [0, 1, 2]

theorem high_qc_lowered :
    ¬ (AllSteps (step .sample) (Rises .sample) ⟨HotStuffNode.engineOfFour, []⟩ lowering ∧
      AllStates (step .sample) HighestSeen ⟨HotStuffNode.engineOfFour, []⟩ lowering) := by
  rintro ⟨hrises, _⟩
  exact absurd hrises (by decide +kernel)

end Runs

end Watcher

end VelaNetwork
