import VelaNetwork.NodeSteps
import VelaNetwork.HotStuffSteps
import VelaNetwork.Sample

namespace VelaNetwork

open Library.Runs

variable (P : Primitives)

def SameBlock (block committed : Block) : Prop :=
  committed.header = block.header ∧ committed.transactions = block.transactions

namespace HotStuffNode

def HasQuorum (n : HotStuffNode) (block : Block) : Prop :=
  ∃ qc ∈ block.qc, n.config.quorumSize ≤ qc.votes.length

def Committed (n : HotStuffNode) : Prop := ∀ c ∈ n.committedBlocks, c = Block.genesis ∨ n.HasQuorum c

variable {P} {n : HotStuffNode}

theorem closePhase_committed (n : HotStuffNode) (qc : QuorumCert) : (n.closePhase qc).config = n.config ∧
    ∃ new : List Block, (n.closePhase qc).committedBlocks = n.committedBlocks ++ new ∧
      ∀ c ∈ new, c.qc = some qc := by
  unfold closePhase
  split
  · exact ⟨rfl, [], (List.append_nil _).symm, fun c hc => absurd hc List.not_mem_nil⟩
  · exact ⟨rfl, [], (List.append_nil _).symm, fun c hc => absurd hc List.not_mem_nil⟩
  · unfold commitBlock
    split
    · refine ⟨rfl, [_], rfl, ?_⟩
      intro c hc
      rw [List.mem_singleton.mp hc]
    · exact ⟨rfl, [], (List.append_nil _).symm, fun c hc => absurd hc List.not_mem_nil⟩
  · exact ⟨rfl, [], (List.append_nil _).symm, fun c hc => absurd hc List.not_mem_nil⟩

theorem handleVote_committed (order : IterOrder) (n : HotStuffNode) (vote : Vote) :
    (n.handleVote P order vote).1.config = n.config ∧
    ∃ new : List Block, (n.handleVote P order vote).1.committedBlocks = n.committedBlocks ++ new ∧
      ∀ c ∈ new, n.HasQuorum c := by
  obtain hsame | ⟨_, _, hrecord | ⟨hquorum, hclose⟩⟩ := n.handleVote_cases P order vote
  · rw [hsame]
    exact ⟨rfl, [], (List.append_nil _).symm, fun c hc => absurd hc List.not_mem_nil⟩
  · rw [hrecord]
    refine ⟨recordVote_config n vote, [], ?_, fun c hc => absurd hc List.not_mem_nil⟩
    rw [List.append_nil]
    exact recordVote_committedBlocks n vote
  · rw [hclose]
    obtain ⟨hconfig, new, hnew, hqc⟩ :=
      (n.recordVote vote).closePhase_committed ((n.recordVote vote).formQc order n.phase)
    rw [recordVote_config] at hconfig
    rw [recordVote_committedBlocks] at hnew
    refine ⟨hconfig, new, hnew, ?_⟩
    intro c hc
    refine ⟨_, hqc c hc, ?_⟩
    rw [((n.recordVote vote).formQc_votes_perm order n.phase).length_eq]
    exact hquorum

theorem Committed.handleVote (h : n.Committed) (order : IterOrder) (vote : Vote) :
    (n.handleVote P order vote).1.Committed := by
  obtain ⟨hconfig, new, hnew, hquorum⟩ := handleVote_committed (P := P) order n vote
  intro c hc
  unfold HasQuorum
  rw [hconfig]
  rw [hnew] at hc
  rcases List.mem_append.mp hc with hold | hadded
  · exact h c hold
  · exact Or.inr (hquorum c hadded)

end HotStuffNode

namespace Node

def Finalised (n : Node) : Prop := ∀ block ∈ n.state.blocks, block.header.height ≠ 0 →
  ∃ c ∈ n.hotstuff.committedBlocks, SameBlock block c ∧ n.hotstuff.HasQuorum c

def CommittedFirst (n : Node) (e : Event) : Prop := ∀ block ∈ n.appended P e, block.header.height ≠ 0 →
  ∃ c ∈ n.hotstuff.committedBlocks, SameBlock block c

variable {P} {n : Node}

theorem engineCall_not_propose {e : Event} {c : EngineCall} (h : engineCall e = some c) :
    n.appended P e = [] ∧
      ((∃ vote order, c = .handleVote vote order) ∨ ∃ block, c = .handlePropose block none) := by
  unfold engineCall at h
  split at h
  · cases h
    exact ⟨rfl, Or.inl ⟨_, _, rfl⟩⟩
  · cases h
    exact ⟨rfl, Or.inr ⟨_, rfl⟩⟩
  · cases h

theorem step_hotstuff {e : Event} (he : e.isRestart = false) : (n.step P e).hotstuff = n.hotstuff ∨
    (n.appended P e = [] ∧ (n.step P e).hotstuff.config = n.hotstuff.config ∧
      (n.hotstuff.Committed → (n.step P e).hotstuff.Committed) ∧
      n.hotstuff.committedBlocks ⊆ (n.step P e).hotstuff.committedBlocks) := by
  rw [step_engine P n he]
  cases hcall : engineCall e with
  | none => exact Or.inl rfl
  | some c =>
    obtain ⟨hnil, ⟨vote, order, rfl⟩ | ⟨block, rfl⟩⟩ := engineCall_not_propose (P := P) (n := n) hcall
    · obtain ⟨hconfig, new, hnew, _⟩ := HotStuffNode.handleVote_committed (P := P) order n.hotstuff vote
      refine Or.inr ⟨hnil, hconfig, fun h => h.handleVote order vote, ?_⟩
      change _ ⊆ (n.hotstuff.handleVote P order vote).1.committedBlocks
      rw [hnew]
      exact List.subset_append_left _ _
    · refine Or.inr ⟨hnil, ?_⟩
      change (n.hotstuff.after P _).config = _ ∧ (_ → (n.hotstuff.after P _).Committed) ∧
        _ ⊆ (n.hotstuff.after P _).committedBlocks
      rw [HotStuffNode.after_handlePropose]
      split
      · exact ⟨rfl, fun h => h, fun c hc => hc⟩
      · exact ⟨rfl, fun h => h, fun c hc => hc⟩

theorem committed_step {e : Event} (h : n.hotstuff.Committed) (he : e.isRestart = false) :
    (n.step P e).hotstuff.Committed := by
  obtain hsame | ⟨_, _, hstep, _⟩ := step_hotstuff (P := P) (n := n) he
  · rw [hsame]
    exact h
  · exact hstep h

theorem hasQuorum_of_sameBlock {hs : HotStuffNode} (h : hs.Committed) {block c : Block}
    (hc : c ∈ hs.committedBlocks) (hsame : SameBlock block c) (hheight : block.header.height ≠ 0) :
    hs.HasQuorum c := by
  rcases h c hc with rfl | hquorum
  · rw [← hsame.1] at hheight
    exact absurd rfl hheight
  · exact hquorum

theorem finalised_step {e : Event} (hcommitted : n.hotstuff.Committed) (he : e.isRestart = false)
    (hfinal : n.Finalised) : (n.step P e).Finalised ↔ CommittedFirst P n e := by
  have hchain := (step_grows P n he).chain
  unfold Finalised CommittedFirst
  rw [hchain]
  obtain hsame | ⟨hnil, hconfig, _, hsub⟩ := step_hotstuff (P := P) (n := n) he
  · rw [hsame]
    constructor
    · intro h block hblock hheight
      obtain ⟨c, hc, hsame, _⟩ := h block (List.mem_append_right _ hblock) hheight
      exact ⟨c, hc, hsame⟩
    · intro h block hblock hheight
      rcases List.mem_append.mp hblock with hold | hnew
      · exact hfinal block hold hheight
      · obtain ⟨c, hc, hsame⟩ := h block hnew hheight
        exact ⟨c, hc, hsame, hasQuorum_of_sameBlock hcommitted hc hsame hheight⟩
  · rw [hnil, List.append_nil]
    constructor
    · intro _ block hblock
      exact absurd hblock List.not_mem_nil
    · intro _ block hblock hheight
      obtain ⟨c, hc, hsame, qc, hqc, hvotes⟩ := hfinal block hblock hheight
      exact ⟨c, hsub hc, hsame, qc, hqc, hconfig ▸ hvotes⟩

theorem finality_iff (P : Primitives) {saved : Bool} {i : Fin 3} {n : Node}
    (hstart : start P saved i .empty = some n) (es : List Event) (hrun : ∀ e ∈ es, e.isRestart = false) :
    AllStates (step P) Finalised n es ↔ AllSteps (step P) (CommittedFirst P) n es := by
  have hengine : ∀ (n : Node) e, n.hotstuff.Committed → e.isRestart = false →
      (n.step P e).hotstuff.Committed :=
    fun _ _ hn he => committed_step hn he
  obtain ⟨db, _, rfl⟩ := start_empty hstart
  apply allStates_iff_allSteps hengine
  · intro n e hn he hfinal
    exact finalised_step hn he hfinal
  · intro c hc
    exact Or.inl (List.mem_singleton.mp hc)
  · intro block hblock hheight
    rw [List.mem_singleton.mp hblock] at hheight
    exact absurd rfl hheight
  · exact allSteps_of_forall hrun

section Runs

instance (block c : Block) : Decidable (SameBlock block c) := inferInstanceAs (Decidable (_ ∧ _))

instance (hs : HotStuffNode) (block : Block) : Decidable (hs.HasQuorum block) :=
  inferInstanceAs (Decidable (∃ qc ∈ block.qc, hs.config.quorumSize ≤ qc.votes.length))

instance (n : Node) : Decidable n.Finalised :=
  inferInstanceAs (Decidable (∀ block ∈ n.state.blocks, block.header.height ≠ 0 →
    ∃ c ∈ n.hotstuff.committedBlocks, SameBlock block c ∧ n.hotstuff.HasQuorum c))

instance (n : Node) (e : Event) : Decidable (CommittedFirst P n e) :=
  inferInstanceAs (Decidable (∀ block ∈ n.appended P e, block.header.height ≠ 0 →
    ∃ c ∈ n.hotstuff.committedBlocks, SameBlock block c))

noncomputable def firstBlock : Block := Block.new .sample 5 1 (Block.genesis.hash .sample) [] Address.zero 1

noncomputable def finalRun : List Event :=
  let vote := NetworkMessage.consensusVote (Vote.sign .sample (firstBlock.hash .sample) 1 (validatorKey 1))
  [.consensusPropose firstBlock, vote, vote, vote, .newBlock firstBlock].map fun msg =>
    .message msg .insertion fun _ => true

theorem finality_finalRun : AllStates (step .sample) Finalised (fresh .sample 0) finalRun :=
  (finality_iff .sample (start_fresh sample_roundTrips 0) _ (by simp [finalRun, Event.isRestart])).mpr
    (by decide +kernel)

theorem produced_not_final : ∃ n, start .sample true 1 .empty = some n ∧
    (∀ e ∈ [Event.startProducer, Event.tick 10 true], e.isRestart = false) ∧
    ¬ AllStates (step .sample) Finalised n [.startProducer, .tick 10 true] := by
  refine ⟨_, start_fresh sample_roundTrips 1, by decide, ?_⟩
  intro h
  exact absurd h.last (by decide +kernel)

end Runs

end Node

end VelaNetwork
