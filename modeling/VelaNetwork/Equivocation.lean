import VelaNetwork.NodeSteps
import VelaNetwork.Sample

namespace VelaNetwork

open Library.Runs

variable (P : Primitives)

inductive SignerEvent where
  | node (e : Event)
  | handlePropose (block : Block) (highQc : Option QuorumCert)
  | handleNewView (round : UInt64) (highQc : QuorumCert)

def SignerEvent.engineCall : SignerEvent → Option EngineCall
  | .node e => Node.engineCall e
  | .handlePropose block highQc => some (.handlePropose block highQc)
  | .handleNewView round highQc => some (.handleNewView round highQc)

def HotStuffMsg.toVote : HotStuffMsg → Option Vote
  | .vote v => some v
  | _ => none

def NetworkMessage.toVote : NetworkMessage → Option Vote
  | .consensusVote v => some v
  | _ => none

namespace Node

def signerStep (n : Node) : SignerEvent → Node
  | .node e => n.step P e
  | .handlePropose block highQc => { n with hotstuff := n.hotstuff.after P (.handlePropose block highQc) }
  | .handleNewView round highQc => { n with hotstuff := n.hotstuff.after P (.handleNewView round highQc) }

/-- The votes that the step signs: the answer of the engine and the one that the node sends. -/
def signs (n : Node) (e : SignerEvent) : List Vote :=
  (e.engineCall.bind fun c => (n.hotstuff.call P c).2.bind HotStuffMsg.toVote).toList ++
    match e with
    | .node e => (n.sends P e).filterMap NetworkMessage.toVote
    | _ => []

def takes (n : Node) : SignerEvent → List (UInt64 × Hash)
  | .node (.message (.newBlock block) _ _) =>
    if block.header.height = n.tipHeight + 1 then [(block.header.round, block.hash P)] else []
  | .node (.message (.consensusPropose block) _ _) =>
    if n.hotstuff.extendsLock block = true then
      [(n.hotstuff.round, block.hash P), (block.header.round, block.hash P)] else []
  | .handlePropose block _ =>
    if n.hotstuff.extendsLock block = true then [(n.hotstuff.round, block.hash P)] else []
  | _ => []

variable {P}

theorem signs_of_call_none {n : Node} {e : Event} (h : engineCall e = none) :
    n.signs P (.node e) = (n.sends P e).filterMap NetworkMessage.toVote := by
  have hcall : SignerEvent.engineCall (.node e) = none := h
  rw [signs, hcall]
  rfl

def ballot (v : Vote) : UInt64 × Hash := (v.round, v.blockHash)

theorem signs_newBlock (n : Node) (block : Block) (order : IterOrder) (saves : ℕ → Bool) :
    (n.signs P (.node (.message (.newBlock block) order saves))).map ballot =
      n.takes P (.node (.message (.newBlock block) order saves)) := by
  rw [signs_of_call_none rfl]
  change ((n.handleNewBlock P (saves 0) block).2.filterMap NetworkMessage.toVote).map ballot =
    if block.header.height = n.tipHeight + 1 then [(block.header.round, block.hash P)] else []
  unfold handleNewBlock
  split <;> rfl

theorem signs_consensusPropose (n : Node) (block : Block) (order : IterOrder) (saves : ℕ → Bool) :
    (n.signs P (.node (.message (.consensusPropose block) order saves))).map ballot =
      n.takes P (.node (.message (.consensusPropose block) order saves)) := by
  change (((n.hotstuff.handlePropose P block none).2.bind HotStuffMsg.toVote).toList ++
    (n.handleConsensusPropose P block).2.filterMap NetworkMessage.toVote).map ballot =
    if n.hotstuff.extendsLock block = true then
      [(n.hotstuff.round, block.hash P), (block.header.round, block.hash P)] else []
  unfold handleConsensusPropose HotStuffNode.handlePropose
  split <;> rfl

theorem signs_handlePropose (n : Node) (block : Block) (highQc : Option QuorumCert) :
    (n.signs P (.handlePropose block highQc)).map ballot = n.takes P (.handlePropose block highQc) := by
  change (((n.hotstuff.handlePropose P block highQc).2.bind HotStuffMsg.toVote).toList ++ []).map ballot =
    if n.hotstuff.extendsLock block = true then [(n.hotstuff.round, block.hash P)] else []
  unfold HotStuffNode.handlePropose
  split <;> rfl

theorem signs_handleNewView {n : Node} {round : UInt64} {highQc : QuorumCert} {v : Vote}
    (hv : v ∈ n.signs P (.handleNewView round highQc)) :
    ∃ block ∈ n.hotstuff.pendingBlock, ballot v = (n.hotstuff.round, block.hash P) := by
  change v ∈ ((n.hotstuff.handleNewView P round highQc).2.bind HotStuffMsg.toVote).toList ++ [] at hv
  rw [List.append_nil, Option.mem_toList] at hv
  obtain ⟨_, heq⟩ | ⟨_, _, heq⟩ | ⟨_, block, hblock, heq⟩ := n.hotstuff.handleNewView_cases P round highQc
  · rw [heq] at hv
    cases hv
  · rw [heq] at hv
    cases hv
  · rw [heq] at hv
    obtain rfl := Option.some.inj hv
    exact ⟨block, hblock, rfl⟩

theorem signs_silent (n : Node) {e : Event}
    (hblock : ∀ block order saves, e ≠ .message (.newBlock block) order saves)
    (hpropose : ∀ block order saves, e ≠ .message (.consensusPropose block) order saves) :
    n.signs P (.node e) = [] := by
  cases e with
  | message msg order saves =>
    cases msg with
    | newBlock block => exact absurd rfl (hblock block order saves)
    | newTransaction tx => rfl
    | consensusVote vote =>
      change ((n.hotstuff.handleVote P order vote).2.bind HotStuffMsg.toVote).toList ++
        (n.handleConsensusVote P order vote).2.filterMap NetworkMessage.toVote = []
      unfold handleConsensusVote
      obtain hsame | ⟨_, _, hrecord | ⟨_, hclose⟩⟩ := n.hotstuff.handleVote_cases P order vote
      · rw [hsame]; rfl
      · rw [hrecord]; rfl
      · rw [hclose]; rfl
    | consensusPropose block => exact absurd rfl (hpropose block order saves)
    | syncRequest fromHeight =>
      change (List.filterMap _ (if _ then [] else [_])) = []
      split <;> rfl
    | syncResponse blocks => rfl
  | requestSync =>
    change (n.requestSync).2.filterMap NetworkMessage.toVote = []
    unfold requestSync
    split <;> rfl
  | startProducer => rfl
  | tick now saved =>
    change (n.tick P now saved).2.filterMap NetworkMessage.toVote = []
    obtain ⟨_, round, htick⟩ | ⟨round, tip, _, _, _, _, htick⟩ := tick_cases P n now saved
    · rw [htick]; rfl
    · rw [htick]; rfl
  | request req => rfl
  | rpc i now =>
    change (n.advanceRpc P now i).2.filterMap NetworkMessage.toVote = []
    rw [List.filterMap_eq_nil_iff]
    intro msg hmsg
    unfold advanceRpc at hmsg
    split at hmsg
    · exact absurd hmsg List.not_mem_nil
    · split at hmsg <;>
      · obtain ⟨tx, _, rfl⟩ := List.mem_map.mp hmsg
        rfl
  | restart saved => rfl

theorem signs_eq_takes (n : Node) {e : SignerEvent} (he : ∀ round highQc, e ≠ .handleNewView round highQc) :
    (n.signs P e).map ballot = n.takes P e := by
  cases e with
  | node e =>
    by_cases hblock : ∃ block order saves, e = .message (.newBlock block) order saves
    · obtain ⟨block, order, saves, rfl⟩ := hblock
      exact signs_newBlock n block order saves
    · by_cases hpropose : ∃ block order saves, e = .message (.consensusPropose block) order saves
      · obtain ⟨block, order, saves, rfl⟩ := hpropose
        exact signs_consensusPropose n block order saves
      · rw [signs_silent n (fun block order saves h => hblock ⟨block, order, saves, h⟩)
          (fun block order saves h => hpropose ⟨block, order, saves, h⟩)]
        unfold takes
        split
        · exact absurd ⟨_, _, _, SignerEvent.node.inj ‹_›⟩ hblock
        · exact absurd ⟨_, _, _, SignerEvent.node.inj ‹_›⟩ hpropose
        · cases ‹SignerEvent.node e = _›
        · rfl
  | handlePropose block highQc => exact signs_handlePropose n block highQc
  | handleNewView round highQc => exact absurd rfl (he round highQc)

theorem signerStep_hotstuff (n : Node) (e : SignerEvent) : (n.signerStep P e).hotstuff.pendingBlock = none ∨
    (n.signerStep P e).hotstuff = (e.engineCall.map (n.hotstuff.after P)).getD n.hotstuff := by
  cases e with
  | node e =>
    cases he : e.isRestart with
    | false => exact Or.inr (step_engine P n he)
    | true =>
      obtain ⟨saved, rfl⟩ := Event.eq_restart he
      change (n.step P _).hotstuff.pendingBlock = none ∨ (n.step P _).hotstuff = n.hotstuff
      obtain hsame | ⟨db, blocks, hboot⟩ := restart_boot (P := P) n saved
      · rw [hsame]
        exact Or.inr rfl
      · rw [hboot]
        exact Or.inl rfl
  | handlePropose block highQc => exact Or.inr rfl
  | handleNewView round highQc => exact Or.inr rfl

theorem not_propose_of_engineCall {e : SignerEvent} {c : EngineCall} (h : e.engineCall = some c) (now : Int64)
    (transactions : List Transaction) : c ≠ .propose now transactions := by
  rintro rfl
  cases e with
  | node e =>
    change Node.engineCall e = _ at h
    unfold Node.engineCall at h
    split at h <;> cases h
  | handlePropose block highQc => cases h
  | handleNewView round highQc => cases h

theorem mem_takes_of_handlePropose {n : Node} {e : SignerEvent} {block : Block} {highQc : Option QuorumCert}
    (h : e.engineCall = some (.handlePropose block highQc)) (hlock : n.hotstuff.extendsLock block = true) :
    (n.hotstuff.round, block.hash P) ∈ n.takes P e := by
  cases e with
  | node e =>
    change Node.engineCall e = _ at h
    unfold Node.engineCall at h
    split at h
    · cases h
    · cases h
      unfold takes
      dsimp only
      rw [if_pos hlock]
      exact List.mem_cons_self
    · cases h
  | handlePropose block' highQc' =>
    cases h
    unfold takes
    dsimp only
    rw [if_pos hlock]
    exact List.mem_cons_self
  | handleNewView round highQc => cases h

end Node

structure Signer where
  node : Node
  signed : List Vote
  taken : List (UInt64 × Hash)

namespace Signer

def step (s : Signer) (e : SignerEvent) : Signer where
  node := s.node.signerStep P e
  signed := s.signed ++ s.node.signs P e
  taken := s.taken ++ s.node.takes P e

def NoEquivocation (s : Signer) : Prop :=
  ∀ v ∈ s.signed, ∀ v' ∈ s.signed, v.round = v'.round → v.blockHash = v'.blockHash

def TakesFirst (s : Signer) (e : SignerEvent) : Prop :=
  ∀ p ∈ s.node.takes P e, ∀ q ∈ s.taken ++ s.node.takes P e, p.1 = q.1 → p.2 = q.2

def SingleValued {α β : Type} (l : List (α × β)) : Prop := ∀ p ∈ l, ∀ q ∈ l, p.1 = q.1 → p.2 = q.2

theorem singleValued_append {α β : Type} {l m : List (α × β)} (hl : SingleValued l) :
    SingleValued (l ++ m) ↔ ∀ p ∈ m, ∀ q ∈ l ++ m, p.1 = q.1 → p.2 = q.2 := by
  constructor
  · intro h p hp q hq
    exact h p (List.mem_append_right l hp) q hq
  · intro h p hp q hq heq
    rcases List.mem_append.mp hp with hold | hnew
    · rcases List.mem_append.mp hq with hold' | hnew'
      · exact hl p hold q hold' heq
      · exact (h q hnew' p hp heq.symm).symm
    · exact h p hnew q hq heq

structure Matched (s : Signer) : Prop where
  ballots : ∀ p, p ∈ s.signed.map Node.ballot ↔ p ∈ s.taken
  pending : ∀ block ∈ s.node.hotstuff.pendingBlock, (s.node.hotstuff.round, block.hash P) ∈ s.taken

variable {P} {s : Signer}

theorem Matched.noEquivocation_iff (h : s.Matched P) : s.NoEquivocation ↔ SingleValued s.taken := by
  constructor
  · intro hno p hp q hq heq
    obtain ⟨v, hv, rfl⟩ := List.mem_map.mp ((h.ballots p).mpr hp)
    obtain ⟨v', hv', rfl⟩ := List.mem_map.mp ((h.ballots q).mpr hq)
    exact hno v hv v' hv' heq
  · intro hsingle v hv v' hv' heq
    exact hsingle _ ((h.ballots _).mp (List.mem_map_of_mem hv)) _
      ((h.ballots _).mp (List.mem_map_of_mem hv')) heq

theorem Matched.pending_step (h : s.Matched P) (e : SignerEvent) :
    ∀ block ∈ (s.step P e).node.hotstuff.pendingBlock,
      ((s.step P e).node.hotstuff.round, block.hash P) ∈ (s.step P e).taken := by
  intro block hblock
  change block ∈ (s.node.signerStep P e).hotstuff.pendingBlock at hblock
  change ((s.node.signerStep P e).hotstuff.round, _) ∈ s.taken ++ s.node.takes P e
  rcases s.node.signerStep_hotstuff (P := P) e with hnone | hengine
  · rw [hnone] at hblock
    cases hblock
  · rw [hengine] at hblock ⊢
    cases hcall : e.engineCall with
    | none =>
      rw [hcall] at hblock
      exact List.mem_append_left _ (h.pending block hblock)
    | some c =>
      rw [hcall] at hblock
      obtain ⟨hround, hold | ⟨highQc, rfl, hlock⟩⟩ :=
        s.node.hotstuff.pending_after (Node.not_propose_of_engineCall hcall) hblock
      · change ((s.node.hotstuff.after P c).round, _) ∈ _
        rw [hround]
        exact List.mem_append_left _ (h.pending block hold)
      · change ((s.node.hotstuff.after P _).round, _) ∈ _
        rw [hround]
        exact List.mem_append_right _ (Node.mem_takes_of_handlePropose hcall hlock)

theorem Matched.step (h : s.Matched P) (e : SignerEvent) : (s.step P e).Matched P := by
  refine ⟨?_, h.pending_step e⟩
  intro p
  change p ∈ (s.signed ++ s.node.signs P e).map Node.ballot ↔ p ∈ s.taken ++ s.node.takes P e
  rw [List.map_append, List.mem_append, List.mem_append, h.ballots]
  by_cases hview : ∃ round highQc, e = .handleNewView round highQc
  · obtain ⟨round, highQc, rfl⟩ := hview
    constructor
    · rintro (hold | hnew)
      · exact Or.inl hold
      · obtain ⟨v, hv, rfl⟩ := List.mem_map.mp hnew
        obtain ⟨block, hblock, hballot⟩ := Node.signs_handleNewView hv
        rw [hballot]
        exact Or.inl (h.pending block hblock)
    · rintro (hold | hnew)
      · exact Or.inl hold
      · exact absurd hnew List.not_mem_nil
  · rw [Node.signs_eq_takes s.node fun round highQc heq => hview ⟨round, highQc, heq⟩]

theorem no_equivocation_iff (P : Primitives) {saved : Bool} {i : Fin 3} {db : BlockDb} {n : Node}
    (hstart : Node.start P saved i db = some n) (es : List SignerEvent) :
    AllStates (step P) NoEquivocation ⟨n, [], []⟩ es ↔ AllSteps (step P) (TakesFirst P) ⟨n, [], []⟩ es := by
  have hpending : n.hotstuff.pendingBlock = none := by
    obtain ⟨db', _, rfl⟩ | ⟨blocks, _, rfl⟩ := Node.start_cases hstart
    · rfl
    · rfl
  have hmatched : Matched P ⟨n, [], []⟩ := by
    refine ⟨fun p => Iff.rfl, ?_⟩
    intro block hblock
    rw [hpending] at hblock
    cases hblock
  have hiff : ∀ (s : Signer) e, s.Matched P → True → s.NoEquivocation →
      ((s.step P e).NoEquivocation ↔ s.TakesFirst P e) := by
    intro s e hs _ hno
    rw [(hs.step e).noEquivocation_iff]
    exact singleValued_append (hs.noEquivocation_iff.mp hno)
  have hnone : NoEquivocation ⟨n, [], []⟩ := fun v hv => absurd hv List.not_mem_nil
  exact allStates_iff_allSteps (fun s e hs _ => hs.step e) hiff hmatched hnone
    (allSteps_of_forall fun _ _ => trivial)

section Runs

instance (s : Signer) (e : SignerEvent) : Decidable (s.TakesFirst P e) :=
  inferInstanceAs
    (Decidable (∀ p ∈ s.node.takes P e, ∀ q ∈ s.taken ++ s.node.takes P e, p.1 = q.1 → p.2 = q.2))

noncomputable def proposalAt (timestamp : Int64) : Block :=
  Block.new .sample timestamp 1 (Block.genesis.hash .sample) [] (sampleAddr 0) 0

noncomputable def proposalRun (timestamps : List Int64) : List SignerEvent :=
  timestamps.map fun t => .node (.message (.consensusPropose (proposalAt t)) .insertion fun _ => true)

noncomputable def twoRounds : List SignerEvent :=
  proposalRun [1] ++ [.node (.message (.newBlock (proposalAt 1)) .insertion fun _ => true),
    .handleNewView 1 ⟨(proposalAt 1).hash .sample, 0, []⟩,
    .node (.message
      (.consensusPropose (Block.new .sample 2 2 ((proposalAt 1).hash .sample) [] (sampleAddr 0) 1))
      .insertion fun _ => true)]

theorem no_equivocation_twoRounds :
    AllStates (step .sample) NoEquivocation ⟨Node.fresh .sample 0, [], []⟩ twoRounds :=
  (no_equivocation_iff .sample (Node.start_fresh sample_roundTrips 0) twoRounds).mpr (by decide +kernel)

theorem both_proposals_signed :
    ¬ AllStates (step .sample) NoEquivocation ⟨Node.fresh .sample 0, [], []⟩ (proposalRun [1, 2]) := by
  intro h
  have hlast := h.last
  revert hlast
  unfold NoEquivocation
  decide +kernel

end Runs

end Signer

end VelaNetwork
