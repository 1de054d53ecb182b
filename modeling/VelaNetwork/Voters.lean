import VelaNetwork.EngineCalls

namespace VelaNetwork.HotStuffNode

open Library.Runs

variable (P : Primitives)

structure CountedOnce (n : HotStuffNode) (qc : QuorumCert) : Prop where
  quorum : n.config.quorumSize ≤ qc.votes.length
  distinct : (qc.votes.map (·.voter)).Nodup
  verified : ∀ v ∈ qc.votes, v.verify P = true

def FormsCounted (n : HotStuffNode) (c : EngineCall) : Prop := ∀ qc ∈ n.formed P c, n.CountedOnce P qc

def Verified (n : HotStuffNode) : Prop := ∀ v ∈ n.allVotes, v.verify P = true

variable {P} {n : HotStuffNode} {vote v : Vote}

theorem mem_recordVote_allVotes (h : v ∈ (n.recordVote vote).allVotes) : v = vote ∨ v ∈ n.allVotes := by
  obtain ⟨phase, hv⟩ := mem_allVotes.mp h
  rcases mem_recordVote_votesOf hv with rfl | hold
  · exact Or.inl rfl
  · exact Or.inr (mem_allVotes.mpr ⟨phase, hold⟩)

theorem mem_closePhase_allVotes {qc : QuorumCert} (h : v ∈ (n.closePhase qc).allVotes) : v ∈ n.allVotes := by
  unfold closePhase commitBlock at h
  split at h
  · exact h
  · exact h
  · split at h
    · exact absurd h List.not_mem_nil
    · exact h
  · exact h

theorem mem_allVotes_after {c : EngineCall} (h : v ∈ (n.after P c).allVotes) :
    v ∈ n.allVotes ∨ v.verify P = true := by
  cases c with
  | propose now transactions =>
    rw [after_propose] at h
    split at h
    · exact Or.inl h
    · exact Or.inl h
  | handlePropose block highQc =>
    rw [after_handlePropose] at h
    split at h
    · exact Or.inl h
    · exact Or.inl h
  | handleVote vote order =>
    have hrecorded : vote.verify P = true → v ∈ (n.recordVote vote).allVotes →
        v ∈ n.allVotes ∨ v.verify P = true := by
      intro hverify hv
      rcases mem_recordVote_allVotes hv with rfl | hold
      · exact Or.inr hverify
      · exact Or.inl hold
    rw [after_handleVote] at h
    split at h
    · rename_i hcompletes
      exact hrecorded hcompletes.1 (mem_closePhase_allVotes h)
    · split at h
      · rename_i hv
        exact hrecorded hv.1 h
      · exact Or.inl h
  | handleNewView round highQc =>
    rw [after_handleNewView] at h
    split at h
    · exact absurd h List.not_mem_nil
    · rw [adoptQc_allVotes] at h
      exact Or.inl h

theorem Verified.after (h : n.Verified P) (c : EngineCall) : (n.after P c).Verified P := by
  intro v hv
  rcases mem_allVotes_after hv with hold | hverified
  · exact h v hold
  · exact hverified

theorem formQc_countedOnce (h : n.Verified P) (order : IterOrder) (phase : Phase)
    (hquorum : n.config.quorumSize ≤ (n.votesOf phase).size) : n.CountedOnce P (n.formQc order phase) := by
  have hperm := n.formQc_votes_perm order phase
  refine ⟨?_, ?_, ?_⟩
  · rw [hperm.length_eq]
    exact hquorum
  · apply (hperm.map (·.voter)).nodup_iff.mpr
    exact (n.votesOf phase).voters_nodup
  · intro v hv
    exact h v (mem_allVotes.mpr ⟨phase, hperm.subset hv⟩)

theorem Verified.formsCounted (h : n.Verified P) (c : EngineCall) : n.FormsCounted P c := by
  intro qc hqc
  cases c with
  | handleVote vote order =>
    rw [formed_handleVote] at hqc
    split at hqc
    · rename_i hcompletes
      obtain rfl := Option.some.inj hqc
      have hverified : (n.recordVote vote).Verified P := by
        intro v hv
        rcases mem_recordVote_allVotes hv with rfl | hold
        · exact hcompletes.1
        · exact h v hold
      obtain ⟨hquorum, hdistinct, hall⟩ := formQc_countedOnce hverified order n.phase
        (by rw [recordVote_config]; exact hcompletes.2.2)
      rw [recordVote_config] at hquorum
      exact ⟨hquorum, hdistinct, hall⟩
    · cases hqc
  | _ => cases hqc

theorem voters_counted_once (P : Primitives) (address : Address) (signingKey : SigningKey)
    (config : ConsensusConfig) (cs : List EngineCall) :
    AllSteps (after P) (FormsCounted P) (new address signingKey config) cs := by
  have hnew : (new address signingKey config).Verified P := fun v hv => absurd hv List.not_mem_nil
  have hany : AllSteps (after P) (fun _ _ => True) (new address signingKey config) cs :=
    allSteps_of_forall fun _ _ => trivial
  exact allSteps_of_invariant (fun _ c h _ => h.after c) (fun _ c h _ => h.formsCounted c) hnew hany

end VelaNetwork.HotStuffNode
