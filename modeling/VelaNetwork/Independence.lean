import VelaNetwork.Broadcasts
import VelaNetwork.Decisions

namespace VelaNetwork

open Library.Runs

variable (P : Primitives)

def Event.consensus : Event → Bool
  | .message (.consensusVote _) _ _ => true
  | .message (.consensusPropose _) _ _ => true
  | _ => false

def Event.isVote : Event → Bool
  | .message (.consensusVote _) _ _ => true
  | _ => false

theorem Event.eq_vote {e : Event} (h : e.isVote = true) :
    ∃ vote order saves, e = .message (.consensusVote vote) order saves := by
  unfold Event.isVote at h
  split at h
  · exact ⟨_, _, _, rfl⟩
  · cases h

theorem Event.consensus_iff {e : Event} : e.consensus = true ↔ (Node.engineCall e).isSome = true := by
  unfold Event.consensus Node.engineCall
  split <;> simp

namespace Node

structure AlikeOutside (n n' : Node) : Prop where
  validatorIndex : n'.validatorIndex = n.validatorIndex
  state : n'.state = n.state
  blockDb : n'.blockDb = n.blockDb
  syncDue : n'.syncDue = n.syncDue
  round : n'.round = n.round
  rpc : n'.rpc = n.rpc
  signingKey : n'.hotstuff.signingKey = n.hotstuff.signingKey

def transcript : Node → List Event → List (Event × List NetworkMessage)
  | _, [] => []
  | n, e :: es => (e, n.sends P e) :: transcript (n.step P e) es

def withEngine (n : Node) (hotstuff : HotStuffNode) : Node := { n with hotstuff }

variable {P} {n n' : Node}

theorem AlikeOutside.refl (n : Node) : n.AlikeOutside n := ⟨rfl, rfl, rfl, rfl, rfl, rfl, rfl⟩

theorem AlikeOutside.symm (h : n.AlikeOutside n') : n'.AlikeOutside n :=
  ⟨h.validatorIndex.symm, h.state.symm, h.blockDb.symm, h.syncDue.symm, h.round.symm, h.rpc.symm,
    h.signingKey.symm⟩

theorem AlikeOutside.trans {n'' : Node} (h : n.AlikeOutside n') (h' : n'.AlikeOutside n'') :
    n.AlikeOutside n'' :=
  ⟨h'.validatorIndex.trans h.validatorIndex, h'.state.trans h.state, h'.blockDb.trans h.blockDb,
    h'.syncDue.trans h.syncDue, h'.round.trans h.round, h'.rpc.trans h.rpc, h'.signingKey.trans h.signingKey⟩

theorem alikeOutside_withEngine {hotstuff : HotStuffNode} (h : hotstuff.signingKey = n.hotstuff.signingKey) :
    n.AlikeOutside (n.withEngine hotstuff) := ⟨rfl, rfl, rfl, rfl, rfl, rfl, h⟩

theorem AlikeOutside.eq_withEngine (h : n.AlikeOutside n') : n' = n.withEngine n'.hotstuff := by
  obtain ⟨validatorIndex, state, blockDb, hotstuff, syncDue, round, rpc⟩ := n'
  obtain ⟨rfl, rfl, rfl, rfl, rfl, rfl, _⟩ := h
  rfl

section Ignored

variable {hotstuff : HotStuffNode}

theorem importBlocks_withEngine (saves : ℕ → Bool) (n : Node) (blocks : List Block) :
    (n.withEngine hotstuff).importBlocks P saves blocks =
      (n.importBlocks P saves blocks).withEngine hotstuff := by
  induction blocks generalizing n saves with
  | nil => rfl
  | cons block rest ih =>
    have hheight : (n.withEngine hotstuff).tipHeight = n.tipHeight := rfl
    rw [importBlocks, importBlocks, hheight]
    by_cases hnext : block.header.height = n.tipHeight + 1
    · rw [if_pos hnext, if_pos hnext]
      exact ih (fun i => saves (i + 1)) (n.append P (saves 0) block)
    · rw [if_neg hnext, if_neg hnext]
      exact ih (fun i => saves (i + 1)) n

theorem requestSync_withEngine (n : Node) :
    (n.withEngine hotstuff).requestSync = (n.requestSync.1.withEngine hotstuff, n.requestSync.2) := by
  obtain ⟨_, _, _, _, syncDue, _, _⟩ := n
  cases syncDue <;> rfl

theorem startProducer_withEngine (n : Node) :
    (n.withEngine hotstuff).startProducer = n.startProducer.withEngine hotstuff := by
  obtain ⟨_, _, _, _, _, round, _⟩ := n
  cases round <;> rfl

theorem tick_withEngine (now : Int64) (saved : Bool) (n : Node) :
    (n.withEngine hotstuff).tick P now saved =
      ((n.tick P now saved).1.withEngine hotstuff, (n.tick P now saved).2) := by
  have hleads : ∀ round, (n.withEngine hotstuff).leads round = n.leads round := fun _ => rfl
  have hround : (n.withEngine hotstuff).round = n.round := rfl
  have hblocks : (n.withEngine hotstuff).state.blocks = n.state.blocks := rfl
  unfold tick
  rw [hround]
  cases n.round with
  | none => rfl
  | some round =>
    dsimp only
    rw [hleads]
    by_cases hlead : n.leads round = true
    · rw [if_pos hlead, if_pos hlead, hblocks]
      cases n.state.blocks.getLast? <;> rfl
    · rw [if_neg hlead, if_neg hlead]
      rfl

theorem advanceRpc_withEngine (now : Clock) (n : Node) (i : ℕ) :
    (n.withEngine hotstuff).advanceRpc P now i =
      ((n.advanceRpc P now i).1.withEngine hotstuff, (n.advanceRpc P now i).2) := by
  have htasks : (n.withEngine hotstuff).rpc = n.rpc := rfl
  have hstate : (n.withEngine hotstuff).state = n.state := rfl
  unfold advanceRpc
  rw [htasks, hstate]
  cases n.rpc[i]? with
  | none => rfl
  | some task =>
    dsimp only
    rcases task.advance P now n.state with ⟨state, next | response, tx⟩ <;> rfl

theorem handleNewBlock_withEngine (saved : Bool) (block : Block)
    (hkey : hotstuff.signingKey = n.hotstuff.signingKey) :
    (n.withEngine hotstuff).handleNewBlock P saved block =
      ((n.handleNewBlock P saved block).1.withEngine hotstuff, (n.handleNewBlock P saved block).2) := by
  have hheight : (n.withEngine hotstuff).tipHeight = n.tipHeight := rfl
  have hvote : (n.withEngine hotstuff).hotstuff.signingKey = n.hotstuff.signingKey := hkey
  unfold handleNewBlock
  rw [hheight, hvote]
  by_cases hnext : block.header.height = n.tipHeight + 1
  · rw [if_pos hnext, if_pos hnext]
    rfl
  · rw [if_neg hnext, if_neg hnext]

theorem stepWith_withEngine {e : Event} (he : e.consensus = false) (hrestart : e.isRestart = false)
    (hkey : hotstuff.signingKey = n.hotstuff.signingKey) :
    (n.withEngine hotstuff).stepWith P e = ((n.step P e).withEngine hotstuff, n.sends P e) := by
  cases e with
  | message msg order saves =>
    cases msg with
    | newBlock block => exact handleNewBlock_withEngine (saves 0) block hkey
    | newTransaction tx => rfl
    | consensusVote vote => cases he
    | consensusPropose block => cases he
    | syncRequest fromHeight => rfl
    | syncResponse blocks => exact congrArg (·, []) (importBlocks_withEngine saves n blocks)
  | requestSync => exact requestSync_withEngine n
  | startProducer => exact congrArg (·, []) (startProducer_withEngine n)
  | tick now saved => exact tick_withEngine now saved n
  | request req => rfl
  | rpc i now => exact advanceRpc_withEngine now n i
  | restart saved => cases hrestart

theorem restart_alike (h : n.AlikeOutside n') (saved : Bool) :
    (n.step P (.restart saved)).AlikeOutside (n'.step P (.restart saved)) := by
  change ((start P saved n.validatorIndex n.blockDb).getD n).AlikeOutside
    ((start P saved n'.validatorIndex n'.blockDb).getD n')
  rw [h.validatorIndex, h.blockDb]
  cases start P saved n.validatorIndex n.blockDb with
  | none => exact h
  | some started => exact .refl started

theorem AlikeOutside.step (h : n.AlikeOutside n') {e : Event} (he : e.consensus = false) :
    (n.step P e).AlikeOutside (n'.step P e) ∧ n'.sends P e = n.sends P e := by
  cases hrestart : e.isRestart with
  | true =>
    obtain ⟨saved, rfl⟩ := Event.eq_restart hrestart
    exact ⟨restart_alike h saved, rfl⟩
  | false =>
    have hboth := stepWith_withEngine (P := P) he hrestart h.signingKey
    rw [← h.eq_withEngine] at hboth
    have hcall : engineCall e = none := by
      rw [← Option.not_isSome_iff_eq_none, ← Event.consensus_iff, he]
      exact Bool.false_ne_true
    have hengine : (n.step P e).hotstuff = n.hotstuff := by
      rw [step_engine P n hrestart, hcall]
      rfl
    have hstep : n'.step P e = (n.step P e).withEngine n'.hotstuff := congrArg Prod.fst hboth
    have hsends : n'.sends P e = n.sends P e := by rw [sends, hboth]
    refine ⟨?_, hsends⟩
    rw [hstep]
    apply alikeOutside_withEngine
    rw [hengine, h.signingKey]

theorem consensus_alike {e : Event} (he : e.consensus = true) : n.AlikeOutside (n.step P e) := by
  obtain ⟨call, hcall⟩ := Option.isSome_iff_exists.mp (Event.consensus_iff.mp he)
  have hkey := (Announcer.after_signer (P := P) n.hotstuff hcall).2
  unfold engineCall at hcall
  split at hcall
  · obtain rfl := Option.some.inj hcall
    rw [step_consensusVote]
    exact alikeOutside_withEngine hkey
  · obtain rfl := Option.some.inj hcall
    rw [step_consensusPropose]
    exact alikeOutside_withEngine hkey
  · cases hcall

end Ignored

def withoutConsensus (es : List Event) : List Event := es.filter fun e => !e.consensus

theorem alikeOutside_run (h : n.AlikeOutside n') (es : List Event) :
    (run (step P) n es).AlikeOutside (run (step P) n' (withoutConsensus es)) ∧
      (transcript P n es).filter (fun entry => !entry.1.consensus) =
        transcript P n' (withoutConsensus es) := by
  induction es generalizing n n' with
  | nil => exact ⟨h, rfl⟩
  | cons e es ih =>
    cases he : e.consensus with
    | true =>
      have hfilter : withoutConsensus (e :: es) = withoutConsensus es :=
        List.filter_cons_of_neg (by simp [he])
      obtain ⟨halike, htranscript⟩ := ih ((consensus_alike he).symm.trans h)
      rw [hfilter, run_cons]
      refine ⟨halike, ?_⟩
      rw [← htranscript, transcript]
      exact List.filter_cons_of_neg (by simp [he])
    | false =>
      have hfilter : withoutConsensus (e :: es) = e :: withoutConsensus es :=
        List.filter_cons_of_pos (by simp [he])
      obtain ⟨hnext, hsends⟩ := h.step (P := P) he
      obtain ⟨halike, htranscript⟩ := ih hnext
      rw [hfilter, run_cons, run_cons]
      refine ⟨halike, ?_⟩
      rw [transcript, transcript, ← htranscript, hsends]
      exact List.filter_cons_of_pos (by simp [he])

theorem run_engine {es : List Event} (hes : ∀ e ∈ es, e.isRestart = false) :
    (run (step P) n es).hotstuff = run (HotStuffNode.after P) n.hotstuff (es.filterMap engineCall) := by
  induction es generalizing n with
  | nil => rfl
  | cons e es ih =>
    rw [run_cons, ih fun e he => hes e (List.mem_cons_of_mem _ he),
      step_engine P n (hes e List.mem_cons_self)]
    cases hcall : engineCall e with
    | none => rw [List.filterMap_cons_none hcall]; rfl
    | some call => rw [List.filterMap_cons_some hcall]; rfl

theorem chain_ignores_consensus (P : Primitives) (n : Node) (es : List Event) :
    (run (step P) n es).AlikeOutside (run (step P) n (withoutConsensus es)) ∧
      (transcript P n es).filter (fun entry => !entry.1.consensus) = transcript P n (withoutConsensus es) ∧
      ((∀ e ∈ es, e.isRestart = false) →
        (run (step P) n es).hotstuff = run (HotStuffNode.after P) n.hotstuff (es.filterMap engineCall)) := by
  obtain ⟨halike, htranscript⟩ := alikeOutside_run (P := P) (.refl n) es
  exact ⟨halike, htranscript, run_engine⟩

section Once

open HotStuffNode

def phaseRank : Phase → ℕ
  | .prepare => 0
  | .preCommit => 1
  | .commit => 2
  | .decide => 3

variable (P) in
def voteAnswers (n : Node) (es : List Event) : List NetworkMessage :=
  ((transcript P n es).filter fun entry => entry.1.isVote).flatMap (·.2)

def DecidesOnce (n : Node) : Prop := n.hotstuff.committedBlocks = [Block.genesis] ∨
  n.hotstuff.phase = .decide ∧ ∃ block, n.hotstuff.committedBlocks = [Block.genesis, block]

theorem phaseRank_le (phase : Phase) : phaseRank phase ≤ 3 := by cases phase <;> decide

theorem phaseRank_next {phase : Phase} (h : phase ≠ .decide) :
    phaseRank (nextPhase phase) = phaseRank phase + 1 := by
  cases phase with
  | decide => exact absurd rfl h
  | _ => rfl

variable {h : HotStuffNode}

/-- Every answer to a vote uses up one of the three phases, and nothing but a restart gives them back. -/
theorem handleVote_rank (vote : Vote) (order : IterOrder) :
    phaseRank (h.handleVote P order vote).1.phase =
      phaseRank h.phase + (h.handleVote P order vote).2.toList.length := by
  by_cases hcompletes : h.Completes P vote
  · rw [handleVote_of_completes hcompletes]
    dsimp only
    rw [closePhase_phase, recordVote_phase, phaseRank_next hcompletes.2.1]
    rfl
  · rw [handleVote_of_not_completes hcompletes]
    dsimp only
    split
    · rw [recordVote_phase]
      rfl
    · rfl

theorem sends_consensusVote (n : Node) (order : IterOrder) (saves : ℕ → Bool) (vote : Vote) :
    n.sends P (.message (.consensusVote vote) order saves) =
      (n.hotstuff.handleVote P order vote).2.toList.map fun _ => .newBlock Block.genesis := by
  change (n.handleConsensusVote P order vote).2 = _
  unfold handleConsensusVote
  rcases n.hotstuff.handleVote P order vote with ⟨hotstuff, msg⟩
  cases msg <;> rfl

theorem rank_consensusVote (n : Node) (order : IterOrder) (saves : ℕ → Bool) (vote : Vote) :
    phaseRank (n.step P (.message (.consensusVote vote) order saves)).hotstuff.phase =
      phaseRank n.hotstuff.phase + (n.sends P (.message (.consensusVote vote) order saves)).length := by
  rw [step_consensusVote, sends_consensusVote, List.length_map]
  exact handleVote_rank vote order

theorem engine_of_not_vote (n : Node) {e : Event} (he : e.isRestart = false) (hvote : e.isVote = false) :
    (n.step P e).hotstuff.phase = n.hotstuff.phase ∧
      (n.step P e).hotstuff.committedBlocks = n.hotstuff.committedBlocks := by
  rw [step_engine P n he]
  unfold engineCall
  split
  · cases hvote
  · rw [Option.map_some, Option.getD_some, after_handlePropose]
    split
    · exact ⟨rfl, rfl⟩
    · exact ⟨rfl, rfl⟩
  · exact ⟨rfl, rfl⟩

theorem voteAnswers_cons (n : Node) (e : Event) (es : List Event) :
    n.voteAnswers P (e :: es) =
      (if e.isVote = true then n.sends P e else []) ++ (n.step P e).voteAnswers P es := by
  unfold voteAnswers
  rw [transcript, List.filter_cons]
  dsimp only
  by_cases hvote : e.isVote = true
  · rw [if_pos hvote, if_pos hvote, List.flatMap_cons]
  · rw [if_neg hvote, if_neg hvote, List.nil_append]

theorem isRestart_of_isVote {e : Event} (h : e.isVote = true) : e.isRestart = false := by
  obtain ⟨vote, order, saves, rfl⟩ := Event.eq_vote h
  rfl

theorem voteAnswers_length_le (n : Node) (es : List Event) :
    (n.voteAnswers P es).length + phaseRank n.hotstuff.phase ≤ 3 * (es.countP Event.isRestart + 1) := by
  induction es generalizing n with
  | nil => simpa [voteAnswers, transcript] using phaseRank_le n.hotstuff.phase
  | cons e es ih =>
    have hrest := ih (n.step P e)
    rw [voteAnswers_cons, List.length_append, List.countP_cons]
    cases hvote : e.isVote with
    | true =>
      obtain ⟨vote, order, saves, rfl⟩ := Event.eq_vote hvote
      have hrank := rank_consensusVote (P := P) n order saves vote
      rw [if_pos rfl, if_neg (by rw [isRestart_of_isVote hvote]; exact Bool.false_ne_true)]
      omega
    | false =>
      rw [if_neg Bool.false_ne_true, List.length_nil]
      cases hrestart : e.isRestart with
      | true =>
        have := phaseRank_le n.hotstuff.phase
        rw [if_pos rfl]
        omega
      | false =>
        rw [(engine_of_not_vote n hrestart hvote).1] at hrest
        rw [if_neg Bool.false_ne_true]
        omega

theorem mem_voteAnswers {n : Node} {es : List Event} {msg : NetworkMessage} (h : msg ∈ n.voteAnswers P es) :
    msg = .newBlock Block.genesis := by
  induction es generalizing n with
  | nil => exact absurd h List.not_mem_nil
  | cons e es ih =>
    rw [voteAnswers_cons, List.mem_append] at h
    rcases h with hnow | hlater
    · split at hnow
      · rename_i hvote
        obtain ⟨vote, order, saves, rfl⟩ := Event.eq_vote hvote
        rw [sends_consensusVote] at hnow
        obtain ⟨_, _, rfl⟩ := List.mem_map.mp hnow
        rfl
      · exact absurd hnow List.not_mem_nil
    · exact ih hlater

theorem DecidesOnce.vote {n : Node} (h : n.DecidesOnce) (vote : Vote) (order : IterOrder) (saves : ℕ → Bool) :
    (n.step P (.message (.consensusVote vote) order saves)).DecidesOnce := by
  have hengine : (n.step P (.message (.consensusVote vote) order saves)).hotstuff =
      n.hotstuff.after P (.handleVote vote order) :=
        congrArg Node.hotstuff (step_consensusVote P n order saves vote)
  unfold DecidesOnce
  rw [hengine]
  by_cases hcommit : n.hotstuff.Completes P vote ∧ n.hotstuff.phase = .commit
  · obtain ⟨hcompletes, hphase⟩ := hcommit
    rcases h with honly | ⟨hdecide, _⟩
    · cases hpending : n.hotstuff.pendingBlock with
      | none =>
        rw [committedBlocks_commit_none order hcompletes hphase hpending]
        exact Or.inl honly
      | some block =>
        rw [committedBlocks_commit order hcompletes hphase hpending, honly]
        exact Or.inr ⟨(entersDecide_commit order hcompletes hphase).2, _, rfl⟩
    · exact absurd (hphase.symm.trans hdecide) (by decide)
  · have hopen : ∀ vote' order', EngineCall.handleVote vote order = .handleVote vote' order' →
        ¬ (n.hotstuff.Completes P vote' ∧ n.hotstuff.phase = .commit) := by
      rintro _ _ ⟨⟩
      exact hcommit
    rw [(committedBlocks_of_open hopen).1]
    rcases h with honly | ⟨hdecide, hgrown⟩
    · exact Or.inl honly
    · refine Or.inr ⟨?_, hgrown⟩
      rw [after_handleVote, if_neg fun hcompletes => hcompletes.2.1 hdecide, if_neg fun hv => hv.2 hdecide]
      exact hdecide

theorem DecidesOnce.step {n : Node} (h : n.DecidesOnce) (e : Event) : (n.step P e).DecidesOnce := by
  cases hrestart : e.isRestart with
  | true =>
    obtain ⟨saved, rfl⟩ := Event.eq_restart hrestart
    obtain hsame | ⟨db, blocks, hboot⟩ := restart_boot (P := P) n saved
    · rwa [hsame]
    · rw [hboot]
      exact Or.inl rfl
  | false =>
    cases hvote : e.isVote with
    | true =>
      obtain ⟨vote, order, saves, rfl⟩ := Event.eq_vote hvote
      exact h.vote vote order saves
    | false =>
      obtain ⟨hphase, hblocks⟩ := engine_of_not_vote (P := P) n hrestart hvote
      unfold DecidesOnce
      rw [hphase, hblocks]
      exact h

theorem ignores_placeholder {n : Node} (h : n.tipHeight + 1 ≠ 0) (order : IterOrder) (saves : ℕ → Bool) :
    n.stepWith P (.message (.newBlock Block.genesis) order saves) = (n, []) :=
  if_neg fun hnext => h hnext.symm

theorem engine_decides_once (P : Primitives) {saved : Bool} {i : Fin 3} {db : BlockDb} {n : Node}
    (hstart : start P saved i db = some n) (es : List Event) :
    AllStates (step P) DecidesOnce n es ∧ (n.voteAnswers P es).length ≤ 3 * (es.countP Event.isRestart + 1) ∧
      ∀ msg ∈ n.voteAnswers P es, ∀ (n' : Node) order saves, n'.tipHeight + 1 ≠ 0 →
        n'.stepWith P (.message msg order saves) = (n', []) := by
  have hnew : n.DecidesOnce := by
    obtain ⟨_, _, rfl⟩ | ⟨_, _, rfl⟩ := start_cases hstart
    · exact Or.inl rfl
    · exact Or.inl rfl
  have hany : AllSteps (step P) (fun _ _ => True) n es := allSteps_of_forall fun _ _ => trivial
  refine ⟨invariant (fun _ e h _ => h.step e) hnew hany, ?_, ?_⟩
  · exact Nat.le_of_add_right_le (voteAnswers_length_le n es)
  · intro msg hmsg n' order saves htip
    rw [mem_voteAnswers hmsg]
    exact ignores_placeholder htip order saves

noncomputable def decidedRun : List Event :=
  .message (.consensusPropose (HotStuffNode.firstBlock 1)) .insertion (fun _ => true) ::
    [0, 1, 2, 0].map fun k => .message
      (.consensusVote (Vote.sign .sample ((HotStuffNode.firstBlock 1).hash .sample) 0 (sampleKey k)))
      .insertion fun _ => true

theorem engine_decides_once_decidedRun : AllStates (step .sample) DecidesOnce (fresh .sample 0) decidedRun ∧
    ((fresh .sample 0).voteAnswers .sample decidedRun).length ≤ 3 * (decidedRun.countP Event.isRestart + 1) ∧
    ∀ msg ∈ (fresh .sample 0).voteAnswers .sample decidedRun, ∀ (n' : Node) order saves,
      n'.tipHeight + 1 ≠ 0 →
      n'.stepWith .sample (.message msg order saves) = (n', []) :=
  engine_decides_once .sample (start_fresh sample_roundTrips 0) decidedRun

example : (run (step .sample) (fresh .sample 0) decidedRun).hotstuff.committedBlocks.length = 2 := by
  decide +kernel

end Once

end Node

end VelaNetwork
