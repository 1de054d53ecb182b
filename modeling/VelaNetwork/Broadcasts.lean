import VelaNetwork.Equivocation

namespace VelaNetwork

open Library.Runs

variable (P : Primitives)

def Event.block : Event → Option Block
  | .message (.newBlock block) _ _ => some block
  | .message (.consensusPropose block) _ _ => some block
  | _ => none

namespace Node

def returns (n : Node) (e : Event) : List Vote :=
  ((engineCall e).bind fun c => (n.hotstuff.call P c).2.bind HotStuffMsg.toVote).toList

def announces (n : Node) (e : Event) : List Vote := (n.sends P e).filterMap NetworkMessage.toVote

def adopts (n : Node) : Event → List Hash
  | .message (.consensusPropose block) _ _ =>
      if n.hotstuff.extendsLock block = true then [block.hash P] else []
  | _ => []

variable {P} (n : Node)

theorem returns_silent {e : Event}
    (hpropose : ∀ block order saves, e ≠ .message (.consensusPropose block) order saves) :
    n.returns P e = [] := by
  by_cases hblock : ∃ block order saves, e = .message (.newBlock block) order saves
  · obtain ⟨block, order, saves, rfl⟩ := hblock
    rfl
  · have hsigns :=
      signs_silent (P := P) n (fun block order saves h => hblock ⟨block, order, saves, h⟩) hpropose
    exact (List.append_eq_nil_iff.mp hsigns).1

theorem returns_eq (e : Event) :
    n.returns P e = (n.adopts P e).map fun h => Vote.sign P h n.hotstuff.round n.hotstuff.signingKey := by
  by_cases hpropose : ∃ block order saves, e = .message (.consensusPropose block) order saves
  · obtain ⟨block, order, saves, rfl⟩ := hpropose
    change ((n.hotstuff.handlePropose P block none).2.bind HotStuffMsg.toVote).toList =
      (if n.hotstuff.extendsLock block = true then [block.hash P] else []).map _
    unfold HotStuffNode.handlePropose
    split <;> rfl
  · rw [n.returns_silent fun block order saves h => hpropose ⟨block, order, saves, h⟩]
    unfold adopts
    split
    · exact absurd ⟨_, _, _, rfl⟩ hpropose
    · rfl

theorem announces_silent {e : Event} (h : e.block = none) : n.announces P e = [] := by
  have hsigns := signs_silent (P := P) n (e := e) (by rintro block order saves rfl; cases h)
    (by rintro block order saves rfl; cases h)
  exact (List.append_eq_nil_iff.mp hsigns).2

theorem announces_newBlock (block : Block) (order : IterOrder) (saves : ℕ → Bool) :
    n.announces P (.message (.newBlock block) order saves) =
      if block.header.height = n.tipHeight + 1 then
        [Vote.sign P (block.hash P) block.header.round n.hotstuff.signingKey] else [] := by
  change (n.handleNewBlock P (saves 0) block).2.filterMap NetworkMessage.toVote = _
  unfold handleNewBlock
  split <;> rfl

theorem announces_consensusPropose (block : Block) (order : IterOrder) (saves : ℕ → Bool) :
    n.announces P (.message (.consensusPropose block) order saves) =
      if n.hotstuff.extendsLock block = true then
        [Vote.sign P (block.hash P) block.header.round n.hotstuff.signingKey] else [] := by
  change (n.handleConsensusPropose P block).2.filterMap NetworkMessage.toVote = _
  unfold handleConsensusPropose HotStuffNode.handlePropose
  by_cases hlock : n.hotstuff.extendsLock block = true
  · simp [hlock, NetworkMessage.toVote]
  · simp [hlock]

end Node

/-- A node with the votes its engine has returned so far, and the proposals that these were for. -/
structure Announcer where
  node : Node
  returned : List Vote
  asked : List Hash

namespace Announcer

def step (c : Announcer) (e : Event) : Announcer where
  node := c.node.step P e
  returned := c.returned ++ c.node.returns P e
  asked := c.asked ++ c.node.adopts P e

structure EnginesVotes (c : Announcer) (e : Event) : Prop where
  returned : ∀ v ∈ c.node.announces P e, v ∈ c.returned ++ c.node.returns P e
  locked : ∀ v ∈ c.node.announces P e, ∀ block ∈ e.block, v.blockHash = block.hash P →
    ∀ l ∈ c.node.hotstuff.lockedQc, l.blockHash = block.header.parentHash

/-- A block is of the round of the engine, and one that is appended has been proposed to the engine before
and extends its lock. -/
def AsksEngine (c : Announcer) : Event → Prop
  | .message (.newBlock block) _ _ => block.header.height = c.node.tipHeight + 1 →
    block.header.round = c.node.hotstuff.round ∧ block.hash P ∈ c.asked ∧
      c.node.hotstuff.extendsLock block = true
  | .message (.consensusPropose block) _ _ => c.node.hotstuff.extendsLock block = true →
    block.header.round = c.node.hotstuff.round
  | _ => True

/-- `main` never calls `handle_new_view`, so the engine stays in round 0. -/
structure Steady (c : Announcer) : Prop where
  round : c.node.hotstuff.round = 0
  key : c.node.hotstuff.signingKey = validatorKey c.node.validatorIndex
  returned : c.returned = c.asked.map fun h => Vote.sign P h 0 (validatorKey c.node.validatorIndex)

variable {P} {c : Announcer}

theorem after_signer (n : HotStuffNode) {e : Event} {call : EngineCall} (h : Node.engineCall e = some call) :
    (n.after P call).round = n.round ∧ (n.after P call).signingKey = n.signingKey := by
  unfold Node.engineCall at h
  split at h
  · cases h
    rw [HotStuffNode.after_handleVote]
    split
    · obtain ⟨hround, hkey⟩ := (n.recordVote _).closePhase_signer ((n.recordVote _).formQc _ n.phase)
      rw [hround, hkey, HotStuffNode.recordVote_round, HotStuffNode.recordVote_signingKey]
      exact ⟨rfl, rfl⟩
    · split
      · rw [HotStuffNode.recordVote_round, HotStuffNode.recordVote_signingKey]
        exact ⟨rfl, rfl⟩
      · exact ⟨rfl, rfl⟩
  · cases h
    rw [HotStuffNode.after_handlePropose]
    split
    · exact ⟨rfl, rfl⟩
    · exact ⟨rfl, rfl⟩
  · cases h

theorem signer_step (n : Node) (e : Event) (hround : n.hotstuff.round = 0)
    (hkey : n.hotstuff.signingKey = validatorKey n.validatorIndex) :
    (n.step P e).hotstuff.round = 0 ∧ (n.step P e).hotstuff.signingKey = validatorKey n.validatorIndex := by
  cases he : e.isRestart with
  | true =>
    obtain ⟨saved, rfl⟩ := Event.eq_restart he
    obtain hsame | ⟨db, blocks, hboot⟩ := Node.restart_boot (P := P) n saved
    · rw [hsame]
      exact ⟨hround, hkey⟩
    · rw [hboot]
      exact ⟨rfl, rfl⟩
  | false =>
    rw [Node.step_engine P n he]
    cases hcall : Node.engineCall e with
    | none => exact ⟨hround, hkey⟩
    | some call =>
      obtain ⟨hsame, hsameKey⟩ := after_signer (P := P) n.hotstuff hcall
      exact ⟨hsame.trans hround, hsameKey.trans hkey⟩

theorem Steady.step (h : Steady P c) (e : Event) : Steady P (c.step P e) := by
  obtain ⟨hround, hkey⟩ := signer_step (P := P) c.node e h.round h.key
  have hindex : (c.step P e).node.validatorIndex = c.node.validatorIndex := c.node.step_validatorIndex e
  refine ⟨hround, ?_, ?_⟩
  · rw [hindex]
    exact hkey
  · rw [hindex]
    change c.returned ++ c.node.returns P e = (c.asked ++ c.node.adopts P e).map _
    rw [List.map_append, ← h.returned, Node.returns_eq, h.round, h.key]

theorem Steady.mem_returned_iff (h : Steady P c) (hash : Hash) (round : UInt64) :
    Vote.sign P hash round c.node.hotstuff.signingKey ∈ c.returned ↔ round = 0 ∧ hash ∈ c.asked := by
  rw [h.returned, h.key, List.mem_map]
  constructor
  · rintro ⟨hash', hasked, heq⟩
    obtain rfl : hash' = hash := congrArg Vote.blockHash heq
    exact ⟨(congrArg Vote.round heq).symm, hasked⟩
  · rintro ⟨rfl, hasked⟩
    exact ⟨hash, hasked, rfl⟩

theorem enginesVotes_of_silent {e : Event} (h : c.node.announces P e = []) : c.EnginesVotes P e := by
  constructor
  · rw [h]
    exact fun v hv => absurd hv List.not_mem_nil
  · rw [h]
    exact fun v hv => absurd hv List.not_mem_nil

theorem Steady.newBlock_iff (h : Steady P c) (block : Block) (order : IterOrder) (saves : ℕ → Bool) :
    c.EnginesVotes P (.message (.newBlock block) order saves) ↔
      c.AsksEngine P (.message (.newBlock block) order saves) := by
  have hannounces := c.node.announces_newBlock (P := P) block order saves
  have hreturns : c.node.returns P (.message (.newBlock block) order saves) = [] := rfl
  unfold AsksEngine
  dsimp only
  by_cases hheight : block.header.height = c.node.tipHeight + 1
  · rw [if_pos hheight] at hannounces
    rw [HotStuffNode.extendsLock_iff, h.round]
    constructor
    · rintro ⟨hreturned, hlocked⟩ _
      rw [hannounces] at hreturned hlocked
      have hvote := hreturned _ List.mem_cons_self
      rw [hreturns, List.append_nil, h.mem_returned_iff] at hvote
      exact ⟨hvote.1, hvote.2, hlocked _ List.mem_cons_self block rfl rfl⟩
    · intro hasks
      obtain ⟨hround, hasked, hlock⟩ := hasks hheight
      constructor
      · intro v hv
        rw [hannounces, List.mem_singleton] at hv
        rw [hreturns, List.append_nil, hv, h.mem_returned_iff]
        exact ⟨hround, hasked⟩
      · intro v _ block' hblock' _
        obtain rfl := Option.some.inj hblock'
        exact hlock
  · rw [if_neg hheight] at hannounces
    apply iff_of_true
    · exact enginesVotes_of_silent hannounces
    · exact fun hsame => absurd hsame hheight

theorem Steady.consensusPropose_iff (h : Steady P c) (block : Block) (order : IterOrder) (saves : ℕ → Bool) :
    c.EnginesVotes P (.message (.consensusPropose block) order saves) ↔
      c.AsksEngine P (.message (.consensusPropose block) order saves) := by
  have hannounces := c.node.announces_consensusPropose (P := P) block order saves
  have hreturns := c.node.returns_eq (P := P) (.message (.consensusPropose block) order saves)
  unfold AsksEngine
  unfold Node.adopts at hreturns
  dsimp only at hreturns ⊢
  by_cases hlock : c.node.hotstuff.extendsLock block = true
  · rw [if_pos hlock] at hannounces hreturns
    rw [List.map_singleton] at hreturns
    constructor
    · rintro ⟨hreturned, _⟩ _
      rw [hannounces, hreturns] at hreturned
      rcases List.mem_append.mp (hreturned _ List.mem_cons_self) with hold | hnow
      · rw [h.mem_returned_iff] at hold
        rw [hold.1, h.round]
      · exact congrArg Vote.round (List.mem_singleton.mp hnow)
    · intro hasks
      constructor
      · intro v hv
        rw [hannounces, hasks hlock] at hv
        rw [hreturns]
        exact List.mem_append_right _ hv
      · intro v _ block' hblock' _
        obtain rfl := Option.some.inj hblock'
        exact HotStuffNode.extendsLock_iff.mp hlock
  · rw [if_neg hlock] at hannounces
    apply iff_of_true
    · exact enginesVotes_of_silent hannounces
    · exact fun hsame => absurd hsame hlock

theorem Steady.enginesVotes_iff (h : Steady P c) (e : Event) : c.EnginesVotes P e ↔ c.AsksEngine P e := by
  cases e with
  | message msg order saves =>
    cases msg with
    | newBlock block => exact h.newBlock_iff block order saves
    | consensusPropose block => exact h.consensusPropose_iff block order saves
    | _ => exact iff_of_true (enginesVotes_of_silent (c.node.announces_silent rfl)) trivial
  | _ => exact iff_of_true (enginesVotes_of_silent (c.node.announces_silent rfl)) trivial

theorem engine_votes_iff (P : Primitives) {saved : Bool} {i : Fin 3} {db : BlockDb} {n : Node}
    (hstart : Node.start P saved i db = some n) (es : List Event) :
    AllSteps (step P) (EnginesVotes P) ⟨n, [], []⟩ es ↔ AllSteps (step P) (AsksEngine P) ⟨n, [], []⟩ es := by
  have hsteady : Steady P ⟨n, [], []⟩ := by
    obtain ⟨db', _, rfl⟩ | ⟨blocks, _, rfl⟩ := Node.start_cases hstart
    · exact ⟨rfl, rfl, rfl⟩
    · exact ⟨rfl, rfl, rfl⟩
  constructor
  · exact allSteps_of_invariant (fun c e h _ => h.step e) (fun c e h => (h.enginesVotes_iff e).mp) hsteady
  · exact allSteps_of_invariant (fun c e h _ => h.step e) (fun c e h => (h.enginesVotes_iff e).mpr) hsteady

section Runs

instance (c : Announcer) (e : Event) : Decidable (c.AsksEngine P e) := by
  unfold AsksEngine
  split <;> infer_instance

noncomputable def blockOfRound (round : UInt64) : Block :=
  Block.new .sample 5 1 (Block.genesis.hash .sample) [] Address.zero round

noncomputable def proposedThenSent (round : UInt64) : List Event :=
  [.message (.consensusPropose (blockOfRound round)) .insertion fun _ => true,
   .message (.newBlock (blockOfRound round)) .insertion fun _ => true]

theorem engine_votes_roundZero : AllSteps (step .sample) (EnginesVotes .sample) ⟨Node.fresh .sample 0, [], []⟩
    (proposedThenSent 0) :=
  (engine_votes_iff .sample (Node.start_fresh sample_roundTrips 0) _).mpr (by decide +kernel)

theorem announced_in_other_round : ∃ n, Node.start .sample true 0 .empty = some n ∧
    ¬ AllSteps (step .sample) (EnginesVotes .sample) ⟨n, [], []⟩ (proposedThenSent 1) := by
  refine ⟨_, Node.start_fresh sample_roundTrips 0, ?_⟩
  rintro ⟨hfirst, _⟩
  have hvote := hfirst.returned (Vote.sign .sample ((blockOfRound 1).hash .sample) 1 (validatorKey 0))
    (by decide +kernel)
  exact absurd hvote (by decide +kernel)

end Runs

end Announcer

end VelaNetwork
