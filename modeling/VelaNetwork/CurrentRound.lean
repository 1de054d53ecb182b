import VelaNetwork.Queries
import VelaNetwork.Broadcasts

namespace VelaNetwork

open Library.Runs

variable (P : Primitives)

def Primitives.DistinctValidators : Prop :=
  ∀ i j : Fin 3, Address.fromPubkey P (validatorKey i) = Address.fromPubkey P (validatorKey j) → i = j

structure Reported (s : NodeState) (i : Fin 3) : Prop where
  status : ∀ port peerCount, (getStatus port peerCount s).currentLeader = UInt64.ofNat i
  validators : (getValidators P s).currentLeader = UInt64.ofNat i
  entries : ∀ entry ∈ (getValidators P s).validators, entry.isLeader = true ↔ entry.index = i

structure OneRound (n : Node) : Prop where
  producer : ∀ round ∈ n.round, round = n.state.currentRound
  engine : n.hotstuff.round = n.state.currentRound
  enabled : ∀ round ∈ n.round, n.leads round = true ↔ Reported P n.state n.validatorIndex
  accepted : n.hotstuff.isLeader = true ↔ Reported P n.state n.validatorIndex

namespace Node

def Unproduced (n : Node) : Event → Prop
  | .startProducer => n.round = none → ∀ tip ∈ n.state.blocks.getLast?, tip.header.round + 1 = 0
  | .tick _ _ => n.round = none
  | _ => True

/-- Neither the engine nor the shared state leaves round 0: `main` calls no `handle_new_view`, and nothing
writes `current_round`. -/
structure Still (n : Node) : Prop where
  engine : n.hotstuff.round = 0
  shared : n.state.currentRound = 0
  address : n.hotstuff.address = Address.fromPubkey P (validatorKey n.validatorIndex)
  config : n.hotstuff.config = .new (validators P)
  nonempty : n.state.blocks ≠ []

variable {P} {n : Node}

section Engine

theorem closePhase_identity (h : HotStuffNode) (qc : QuorumCert) :
    (h.closePhase qc).address = h.address ∧ (h.closePhase qc).config = h.config := by
  unfold HotStuffNode.closePhase HotStuffNode.commitBlock
  split
  · exact ⟨rfl, rfl⟩
  · exact ⟨rfl, rfl⟩
  · split
    · exact ⟨rfl, rfl⟩
    · exact ⟨rfl, rfl⟩
  · exact ⟨rfl, rfl⟩

theorem recordVote_address (h : HotStuffNode) (vote : Vote) : (h.recordVote vote).address = h.address := by
  unfold HotStuffNode.recordVote
  split <;> rfl

theorem after_identity (h : HotStuffNode) {e : Event} {call : EngineCall} (hcall : engineCall e = some call) :
    (h.after P call).address = h.address ∧ (h.after P call).config = h.config := by
  unfold engineCall at hcall
  split at hcall
  · cases hcall
    rw [HotStuffNode.after_handleVote]
    split
    · obtain ⟨haddress, hconfig⟩ := closePhase_identity (h.recordVote _) ((h.recordVote _).formQc _ h.phase)
      rw [haddress, hconfig, recordVote_address, HotStuffNode.recordVote_config]
      exact ⟨rfl, rfl⟩
    · split
      · rw [recordVote_address, HotStuffNode.recordVote_config]
        exact ⟨rfl, rfl⟩
      · exact ⟨rfl, rfl⟩
  · cases hcall
    rw [HotStuffNode.after_handlePropose]
    split
    · exact ⟨rfl, rfl⟩
    · exact ⟨rfl, rfl⟩
  · cases hcall

theorem step_identity (n : Node) {e : Event} (he : e.isRestart = false) :
    (n.step P e).hotstuff.address = n.hotstuff.address ∧
      (n.step P e).hotstuff.config = n.hotstuff.config := by
  rw [step_engine P n he]
  cases hcall : engineCall e with
  | none => exact ⟨rfl, rfl⟩
  | some call => exact after_identity n.hotstuff hcall

end Engine

section Clocks

theorem importBlocks_rounds (saves : ℕ → Bool) (n : Node) (blocks : List Block) :
    (n.importBlocks P saves blocks).round = n.round ∧
      (n.importBlocks P saves blocks).state.currentRound = n.state.currentRound := by
  induction blocks generalizing n saves with
  | nil => exact ⟨rfl, rfl⟩
  | cons block rest ih =>
    rw [importBlocks]
    split
    · exact ih (fun i => saves (i + 1)) (n.append P (saves 0) block)
    · exact ih (fun i => saves (i + 1)) n

theorem message_rounds (msg : NetworkMessage) (order : IterOrder) (saves : ℕ → Bool) (n : Node) :
    (n.step P (.message msg order saves)).round = n.round ∧
      (n.step P (.message msg order saves)).state.currentRound = n.state.currentRound := by
  cases msg with
  | newBlock block =>
    rw [step_newBlock]
    exact importBlocks_rounds saves n [block]
  | newTransaction tx => exact ⟨rfl, rfl⟩
  | consensusVote vote =>
    rw [step_consensusVote]
    exact ⟨rfl, rfl⟩
  | consensusPropose block =>
    rw [step_consensusPropose]
    exact ⟨rfl, rfl⟩
  | syncRequest fromHeight => exact ⟨rfl, rfl⟩
  | syncResponse blocks => exact importBlocks_rounds saves n blocks

theorem rpc_rounds (i : ℕ) (now : Clock) (n : Node) :
    (n.step P (.rpc i now)).round = n.round ∧
      (n.step P (.rpc i now)).state.currentRound = n.state.currentRound := by
  obtain ⟨_, hsame⟩ | ⟨task, rpc, _, hstep, _⟩ := step_rpc P n i now
  · rw [hsame]
    exact ⟨rfl, rfl⟩
  · rw [hstep]
    refine ⟨rfl, ?_⟩
    change (task.advance P now n.state).1.currentRound = n.state.currentRound
    obtain hsame | ⟨_, _, _, hmark⟩ | ⟨_, _, hpush⟩ := advance_state P task now n.state
    · rw [hsame]
    · rw [hmark]
      rfl
    · rw [hpush]
      rfl

theorem step_currentRound (n : Node) {e : Event} (he : e.isRestart = false) :
    (n.step P e).state.currentRound = n.state.currentRound := by
  cases e with
  | message msg order saves => exact (message_rounds msg order saves n).2
  | requestSync => rw [step_requestSync]
  | startProducer =>
    obtain ⟨round, hround⟩ := step_startProducer P n
    rw [hround]
  | tick now saved =>
    change (n.tick P now saved).1.state.currentRound = _
    obtain ⟨_, round, htick⟩ | ⟨round, tip, _, _, _, _, htick⟩ := tick_cases P n now saved
    · rw [htick]
    · rw [htick]
      rfl
  | request req => rfl
  | rpc i now => exact (rpc_rounds i now n).2
  | restart saved => cases he

theorem boot_still (i : Fin 3) (db : BlockDb) {blocks : List Block} (h : blocks ≠ []) :
    Still P (boot P i db blocks) :=
  ⟨rfl, rfl, rfl, rfl, h⟩

theorem start_still {saved : Bool} {i : Fin 3} {db : BlockDb} (h : start P saved i db = some n) :
    Still P n ∧ n.round = none := by
  unfold start at h
  split at h
  · cases h
  · split at h
    · cases h
    · obtain rfl := Option.some.inj h
      exact ⟨boot_still _ _ (List.cons_ne_nil _ _), rfl⟩
  · rename_i blocks hne hload
    obtain rfl := Option.some.inj h
    exact ⟨boot_still _ _ fun hnil => hne (hnil ▸ rfl), rfl⟩

theorem Still.step (h : Still P n) (e : Event) : Still P (n.step P e) := by
  cases he : e.isRestart with
  | true =>
    obtain ⟨saved, rfl⟩ := Event.eq_restart he
    rcases restart_cases (P := P) n saved with hsame | hstart
    · rwa [hsame]
    · exact (start_still hstart).1
  | false =>
    obtain ⟨haddress, hconfig⟩ := step_identity (P := P) n he
    refine ⟨?_, (step_currentRound n he).trans h.shared, ?_, hconfig.trans h.config, ?_⟩
    · rw [step_engine P n he]
      cases hcall : engineCall e with
      | none => exact h.engine
      | some call => exact (Announcer.after_signer n.hotstuff hcall).1.trans h.engine
    · rw [haddress, step_validatorIndex]
      exact h.address
    · rw [(step_grows P n he).chain]
      exact List.append_ne_nil_of_left_ne_nil h.nonempty _

theorem startProducer_round {tip : Block} (hround : n.round = none)
    (htip : n.state.blocks.getLast? = some tip) :
    (n.step P .startProducer).round = some (tip.header.round + 1) := by
  change n.startProducer.round = _
  unfold startProducer
  rw [hround, htip]
  rfl

theorem tick_round {round : UInt64} (hround : n.round = some round) (hne : n.state.blocks ≠ [])
    (now : Int64) (saved : Bool) :
    (n.step P (.tick now saved)).round = some (round + 1) := by
  change (n.tick P now saved).1.round = _
  obtain ⟨tip, htip⟩ := Option.isSome_iff_exists.mp (List.getLast?_isSome.mpr hne)
  unfold tick
  rw [hround, htip]
  dsimp only
  split
  · rfl
  · rfl

theorem Still.round_iff (h : Still P n) (hzero : ∀ round ∈ n.round, round = 0) (e : Event) :
    (∀ round ∈ (n.step P e).round, round = 0) ↔ n.Unproduced e := by
  cases e with
  | message msg order saves =>
    rw [(message_rounds msg order saves n).1]
    exact iff_of_true hzero trivial
  | requestSync =>
    rw [step_requestSync]
    exact iff_of_true hzero trivial
  | startProducer =>
    cases hround : n.round with
    | none =>
      obtain ⟨tip, htip⟩ := Option.isSome_iff_exists.mp (List.getLast?_isSome.mpr h.nonempty)
      rw [startProducer_round hround htip, Unproduced, htip]
      constructor
      · rintro hnext _ _ ⟨⟩
        exact hnext _ rfl
      · rintro hnext _ ⟨⟩
        exact hnext hround tip rfl
    | some round =>
      have hsame : (n.step P .startProducer).round = n.round := by
        change n.startProducer.round = _
        unfold startProducer
        rw [hround]
        exact hround
      rw [hsame]
      apply iff_of_true hzero
      intro hnone
      rw [hround] at hnone
      cases hnone
  | tick now saved =>
    cases hround : n.round with
    | none =>
      have hsame : (n.step P (.tick now saved)).round = none := by
        change (n.tick P now saved).1.round = none
        unfold tick
        rw [hround]
        exact hround
      rw [hsame]
      exact iff_of_true (fun _ hnone => by cases hnone) hround
    | some round =>
      rw [tick_round hround h.nonempty, hzero round hround]
      apply iff_of_false
      · intro hnext
        exact absurd (hnext _ rfl) (by decide)
      · intro hnone
        rw [Unproduced, hround] at hnone
        cases hnone
  | request req => exact iff_of_true hzero trivial
  | rpc i now =>
    rw [(rpc_rounds i now n).1]
    exact iff_of_true hzero trivial
  | restart saved =>
    refine iff_of_true ?_ trivial
    obtain hsame | ⟨db, blocks, hboot⟩ := restart_boot (P := P) n saved
    · rwa [hsame]
    · rw [hboot]
      rintro _ ⟨⟩

end Clocks

section Leaders

theorem reported_iff {s : NodeState} {i : Fin 3} : Reported P s i ↔ s.currentRound % 3 = UInt64.ofNat i := by
  constructor
  · intro h
    exact h.validators
  · intro h
    refine ⟨fun _ _ => h, h, ?_⟩
    intro entry hentry
    obtain ⟨j, _, rfl⟩ := List.mem_map.mp hentry
    have hindex : (UInt64.ofNat i).toNat = i := UInt64.toNat_ofNat_of_lt' (Nat.lt_trans i.isLt (by decide))
    dsimp only
    rw [h, hindex]
    exact decide_eq_true_iff

theorem Still.isLeader_iff (h : Still P n) (hkeys : P.DistinctValidators) :
    n.hotstuff.isLeader = true ↔ n.validatorIndex = 0 := by
  have hleader : n.hotstuff.isLeader =
      decide (Address.fromPubkey P (validatorKey 0) =
        Address.fromPubkey P (validatorKey n.validatorIndex)) := by
    unfold HotStuffNode.isLeader
    rw [h.engine, h.config, h.address]
    rfl
  rw [hleader, decide_eq_true_iff]
  constructor
  · intro heq
    exact (hkeys 0 _ heq).symm
  · intro heq
    rw [heq]

theorem Still.oneRound_iff (h : Still P n) (hkeys : P.DistinctValidators) :
    OneRound P n ↔ ∀ round ∈ n.round, round = 0 := by
  have hzero : ∀ i : Fin 3, (0 : UInt64) % 3 = UInt64.ofNat i ↔ i = 0 := by decide
  constructor
  · intro hone round hround
    exact (hone.producer round hround).trans h.shared
  · intro hround
    refine ⟨?_, h.engine.trans h.shared.symm, ?_, ?_⟩
    · intro round hsome
      exact (hround round hsome).trans h.shared.symm
    · intro round hsome
      rw [reported_iff, h.shared, hround round hsome]
      exact decide_eq_true_iff
    · rw [reported_iff, h.shared, hzero]
      exact h.isLeader_iff hkeys

end Leaders

theorem one_round_iff (P : Primitives) (hkeys : P.DistinctValidators) {saved : Bool} {i : Fin 3}
    {db : BlockDb} {n : Node} (hstart : start P saved i db = some n) (es : List Event) :
    AllStates (step P) (OneRound P) n es ↔ AllSteps (step P) Unproduced n es := by
  obtain ⟨hstill, hnone⟩ := start_still hstart
  have hfirst : OneRound P n := by
    rw [hstill.oneRound_iff hkeys, hnone]
    rintro _ ⟨⟩
  have hanything : AllSteps (step P) (fun _ _ => True) n es := allSteps_of_forall fun _ _ => trivial
  apply allStates_iff_allSteps _ _ hstill hfirst hanything
  · exact fun _ e h _ => h.step e
  · intro n e h _ hone
    rw [(h.step e).oneRound_iff hkeys]
    exact h.round_iff ((h.oneRound_iff hkeys).mp hone) e

section Runs

theorem sample_distinctValidators : Primitives.sample.DistinctValidators := by
  unfold Primitives.DistinctValidators
  decide +kernel

noncomputable def lastRound : List Event :=
  [.message
    (.newBlock (Block.new .sample 5 1 (Block.genesis.hash .sample) [] Address.zero 18446744073709551615))
    .insertion fun _ => true, .startProducer]

instance (n : Node) (e : Event) : Decidable (n.Unproduced e) := by
  unfold Unproduced
  split <;> infer_instance

theorem one_round_lastRound : AllStates (step .sample) (OneRound .sample) (fresh .sample 0) lastRound :=
  (one_round_iff .sample sample_distinctValidators (start_fresh sample_roundTrips 0) _).mpr
    (by decide +kernel)

theorem rounds_differ : ∃ n, start .sample true 1 .empty = some n ∧
    ¬ AllStates (step .sample) (OneRound .sample) n [.startProducer] := by
  refine ⟨_, start_fresh sample_roundTrips 1, ?_⟩
  intro h
  exact absurd (h.last.producer 1 (by decide +kernel)) (by decide +kernel)

end Runs

end Node

end VelaNetwork
