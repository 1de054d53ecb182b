import VelaNetwork.EngineCalls
import VelaNetwork.EngineNetwork
import VelaNetwork.QuorumIntersection
import VelaNetwork.Sample

namespace VelaNetwork.HotStuffNode

open Library.Runs

variable (P : Primitives)

structure Genuine (n : HotStuffNode) (qc : QuorumCert) : Prop where
  votes : ∀ v ∈ qc.votes, v.blockHash = qc.blockHash ∧ v.round = qc.round ∧
    ∃ validator ∈ n.config.validatorSet, v.voter = validator.address
  block : ∃ block ∈ n.pendingBlock, qc.blockHash = block.hash P

def FormsGenuine (n : HotStuffNode) (c : EngineCall) : Prop := ∀ qc ∈ n.formed P c, n.Genuine P qc

def Counts (n : HotStuffNode) (vote : Vote) : Prop :=
  vote.round = n.round ∧ (∃ validator ∈ n.config.validatorSet, vote.voter = validator.address) ∧
    ∃ block ∈ n.pendingBlock, vote.blockHash = block.hash P

/-- A vote that is recorded is a validator's, of this round and for the pending block, and no block takes
the place of one that has votes. -/
def CallChecked (n : HotStuffNode) : EngineCall → Prop
  | .propose now transactions => n.isLeader = true → n.VotesFor P (n.proposal P now transactions)
  | .handlePropose block _ => n.extendsLock block = true → n.VotesFor P block
  | .handleVote vote _ => vote.verify P = true → n.phase ≠ .decide → n.Counts P vote
  | .handleNewView _ _ => True

def Tallied (n : HotStuffNode) : Prop := ∀ v ∈ n.allVotes, n.Counts P v

variable {P} {n : HotStuffNode} {vote : Vote}

theorem Tallied.setPending (h : n.Tallied P) {block : Block} (hvotes : n.VotesFor P block) (phase : Phase) :
    ({ n with pendingBlock := some block, phase := phase } : HotStuffNode).Tallied P := by
  intro v hv
  obtain ⟨hround, hvoter, _⟩ := h v hv
  exact ⟨hround, hvoter, block, rfl, hvotes v hv⟩

theorem Tallied.recordVote (h : n.Tallied P) (hvote : n.Counts P vote) : (n.recordVote vote).Tallied P := by
  intro v hv
  unfold Counts
  rw [recordVote_round, recordVote_config, recordVote_pendingBlock]
  obtain ⟨phase, hv⟩ := mem_allVotes.mp hv
  rcases mem_recordVote_votesOf hv with rfl | hold
  · exact hvote
  · exact h v (mem_allVotes.mpr ⟨phase, hold⟩)

theorem Tallied.closePhase (h : n.Tallied P) (hpending : ∃ block, n.pendingBlock = some block)
    (qc : QuorumCert) :
    (n.closePhase qc).Tallied P := by
  unfold HotStuffNode.closePhase
  split
  · exact h
  · exact h
  · obtain ⟨block, hblock⟩ := hpending
    have hdecide : ({ n with phase := .decide } : HotStuffNode).pendingBlock = some block := hblock
    rw [commitBlock_some hdecide]
    exact fun v hv => absurd hv List.not_mem_nil
  · exact h

theorem Tallied.adoptQc (h : n.Tallied P) (qc : QuorumCert) : (n.adoptQc qc).Tallied P := by
  intro v hv
  rw [adoptQc_allVotes] at hv
  unfold Counts
  rw [adoptQc_round, adoptQc_config, adoptQc_pendingBlock]
  exact h v hv

theorem Counts.pending (h : n.Counts P vote) : ∃ block, (n.recordVote vote).pendingBlock = some block := by
  obtain ⟨_, _, block, hblock, _⟩ := h
  exact ⟨block, (n.recordVote_pendingBlock vote).trans hblock⟩

theorem Tallied.after (h : n.Tallied P) {c : EngineCall} (hc : n.CallChecked P c) :
    (n.after P c).Tallied P := by
  cases c with
  | propose now transactions =>
    rw [after_propose]
    split
    · exact h.setPending (hc ‹_›) .prepare
    · exact h
  | handlePropose block highQc =>
    rw [after_handlePropose]
    split
    · exact h.setPending (hc ‹_›) n.phase
    · exact h
  | handleVote vote order =>
    rw [after_handleVote]
    split
    · rename_i hcompletes
      have hcounts := hc hcompletes.1 hcompletes.2.1
      exact (h.recordVote hcounts).closePhase hcounts.pending _
    · split
      · rename_i hv
        exact h.recordVote (hc hv.1 hv.2)
      · exact h
  | handleNewView round highQc =>
    rw [after_handleNewView]
    split
    · exact fun v hv => absurd hv List.not_mem_nil
    · exact h.adoptQc highQc

theorem quorumSize_pos (config : ConsensusConfig) : 0 < config.quorumSize := Nat.succ_pos _

theorem Completes.size_pos (h : n.Completes P vote) : 0 < ((n.recordVote vote).votesOf n.phase).size :=
  Nat.lt_of_lt_of_le (quorumSize_pos n.config) h.2.2

theorem formQc_blockHash_iff (order : IterOrder) {phase : Phase} {h : Hash}
    (hne : 0 < (n.votesOf phase).size) :
    (n.formQc order phase).blockHash = h ↔
      ∀ v ∈ (order.apply (n.votesOf phase).values).head?, v.blockHash = h := by
  have hhead : (n.formQc order phase).blockHash =
      ((n.formQc order phase).votes.head?.map (·.blockHash)).getD Hash.zero := rfl
  rw [hhead, formQc_votes]
  cases hlist : order.apply (n.votesOf phase).values with
  | nil =>
    have hperm := order.perm (n.votesOf phase).values
    rw [hlist, List.nil_perm] at hperm
    rw [VoteMap.size, hperm] at hne
    exact absurd hne (Nat.lt_irrefl 0)
  | cons v rest => simp

theorem formQc_blockHash (order : IterOrder) {phase : Phase} {h : Hash}
    (hne : 0 < (n.votesOf phase).size) (hvotes : ∀ v ∈ (n.votesOf phase).values, v.blockHash = h) :
    (n.formQc order phase).blockHash = h := by
  rw [formQc_blockHash_iff order hne]
  intro v hv
  exact hvotes v ((order.perm _).subset (List.mem_of_mem_head? hv))

theorem Tallied.formsGenuine (h : n.Tallied P) {c : EngineCall} (hc : n.CallChecked P c) :
    n.FormsGenuine P c := by
  intro qc hqc
  cases c with
  | handleVote vote order =>
    rw [formed_handleVote] at hqc
    split at hqc
    · rename_i hcompletes
      obtain rfl := Option.some.inj hqc
      have hcounts := hc hcompletes.1 hcompletes.2.1
      obtain ⟨block, hblock⟩ := hcounts.pending
      have hall : ∀ v ∈ ((n.recordVote vote).votesOf n.phase).values, v.round = n.round ∧
          (∃ validator ∈ n.config.validatorSet, v.voter = validator.address) ∧
            v.blockHash = block.hash P := by
        intro v hv
        obtain ⟨hround, hvoter, block', hblock', hhash⟩ :=
          h.recordVote hcounts v (mem_allVotes.mpr ⟨n.phase, hv⟩)
        rw [recordVote_round] at hround
        rw [recordVote_config] at hvoter
        obtain rfl : block' = block := Option.some.inj (hblock'.symm.trans hblock)
        exact ⟨hround, hvoter, hhash⟩
      have hhash := formQc_blockHash order hcompletes.size_pos fun v hv => (hall v hv).2.2
      have hperm := (n.recordVote vote).formQc_votes_perm order n.phase
      constructor
      · intro v hv
        obtain ⟨hround, hvoter, hfor⟩ := hall v (hperm.subset hv)
        refine ⟨hfor.trans hhash.symm, ?_, hvoter⟩
        change v.round = (n.recordVote vote).round
        rw [hround, recordVote_round]
      · refine ⟨block, ?_, hhash⟩
        rw [← n.recordVote_pendingBlock vote]
        exact hblock
    · cases hqc
  | propose now transactions => cases hqc
  | handlePropose block highQc => cases hqc
  | handleNewView round highQc => cases hqc

theorem certificates_genuine (P : Primitives) (address : Address) (signingKey : SigningKey)
    (config : ConsensusConfig) (cs : List EngineCall)
    (hchecked : AllSteps (after P) (CallChecked P) (new address signingKey config) cs) :
    AllSteps (after P) (FormsGenuine P) (new address signingKey config) cs := by
  have hnew : (new address signingKey config).Tallied P := fun v hv => absurd hv List.not_mem_nil
  exact allSteps_of_invariant (fun _ _ h hc => h.after hc) (fun _ _ h hc => h.formsGenuine hc) hnew hchecked

section Runs

instance (n : HotStuffNode) (qc : QuorumCert) : Decidable (n.Genuine P qc) :=
  decidable_of_iff ((∀ v ∈ qc.votes, v.blockHash = qc.blockHash ∧ v.round = qc.round ∧
      ∃ validator ∈ n.config.validatorSet, v.voter = validator.address) ∧
    ∃ block ∈ n.pendingBlock, qc.blockHash = block.hash P) ⟨fun h => ⟨h.1, h.2⟩, fun h => ⟨h.1, h.2⟩⟩

instance (n : HotStuffNode) (c : EngineCall) : Decidable (n.FormsGenuine P c) :=
  inferInstanceAs (Decidable (∀ qc ∈ n.formed P c, n.Genuine P qc))

instance (n : HotStuffNode) (vote : Vote) : Decidable (n.Counts P vote) :=
  inferInstanceAs (Decidable (vote.round = n.round ∧ _ ∧ ∃ block ∈ n.pendingBlock, _))

instance (n : HotStuffNode) (c : EngineCall) : Decidable (n.CallChecked P c) :=
  match c with
  | .propose now transactions =>
      inferInstanceAs (Decidable (n.isLeader = true → n.VotesFor P (n.proposal P now transactions)))
  | .handlePropose block _ => inferInstanceAs (Decidable (n.extendsLock block = true → n.VotesFor P block))
  | .handleVote vote _ =>
      inferInstanceAs (Decidable (vote.verify P = true → n.phase ≠ .decide → n.Counts P vote))
  | .handleNewView _ _ => inferInstanceAs (Decidable True)

noncomputable def engineOfFour : HotStuffNode :=
  new (sampleAddr 0) (sampleKey 0) (ConsensusConfig.new (committee 4))

noncomputable def firstBlock (timestamp : Int64) : Block :=
  Block.new .sample timestamp 1 (Block.genesis.hash .sample) [] (sampleAddr 0) 0

noncomputable def voteCalls (block : Block) (voters : List ℕ) : List EngineCall :=
  voters.map fun k => .handleVote (Vote.sign .sample (block.hash .sample) 0 (sampleKey k)) .insertion

theorem certificates_genuine_threePhases : AllSteps (after .sample) (FormsGenuine .sample) engineOfFour
    (.handlePropose (firstBlock 1) none :: voteCalls (firstBlock 1) [0, 1, 2, 0, 1, 2, 1, 2, 3]) :=
  certificates_genuine .sample (sampleAddr 0) (sampleKey 0)
    (ConsensusConfig.new (committee 4)) _ (by decide +kernel)

theorem outsiders_form_certificate :
    ¬ AllSteps (after .sample) (FormsGenuine .sample) engineOfFour (voteCalls (firstBlock 1) [7, 8, 9]) := by
  decide +kernel

end Runs

end VelaNetwork.HotStuffNode
