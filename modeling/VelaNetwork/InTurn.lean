import VelaNetwork.NoFork
import VelaNetwork.Library.SharedLogs
import VelaNetwork.CurrentRound

namespace VelaNetwork

open Library.Runs
open Library.SharedLogs

variable (P : Primitives)

namespace Node

variable {P} {n : Node}

theorem round_step (hne : n.state.blocks ≠ []) {e : Event} (he : e.isRestart = false) :
    (n.step P e).round = n.round ∨
      (n.round = none ∧ ∃ tip, n.state.blocks.getLast? = some tip ∧
        (n.step P e).round = some (tip.header.round + 1)) ∨
      ∃ round, n.round = some round ∧ (n.step P e).round = some (round + 1) ∧
        (n.leads round = true → ∃ block, n.produced P e = some block) := by
  cases e with
  | message msg order saves => exact Or.inl (message_rounds msg order saves n).1
  | requestSync =>
    rw [step_requestSync]
    exact Or.inl rfl
  | startProducer =>
    cases hround : n.round with
    | none =>
      obtain ⟨tip, htip⟩ := Option.isSome_iff_exists.mp (List.getLast?_isSome.mpr hne)
      exact Or.inr (Or.inl ⟨rfl, tip, htip, startProducer_round hround htip⟩)
    | some round =>
      refine Or.inl ?_
      change n.startProducer.round = some round
      unfold startProducer
      rw [hround]
      exact hround
  | tick now saved =>
    cases hround : n.round with
    | none =>
      refine Or.inl ?_
      change (n.tick P now saved).1.round = none
      unfold tick
      rw [hround]
      exact hround
    | some round =>
      refine Or.inr (Or.inr ⟨round, rfl, tick_round hround hne now saved, fun hlead => ?_⟩)
      obtain ⟨tip, htip⟩ := Option.isSome_iff_exists.mp (List.getLast?_isSome.mpr hne)
      refine ⟨n.newBlock P now tip round, ?_⟩
      unfold produced
      rw [hround, htip]
      exact if_pos hlead
  | request req => exact Or.inl rfl
  | rpc i now => exact Or.inl (rpc_rounds i now n).1
  | restart saved => cases he

theorem produced_round_step (hne : n.state.blocks ≠ []) {e : Event} {block : Block}
    (h : n.produced P e = some block) :
    n.round = some block.header.round ∧ (n.step P e).round = some (block.header.round + 1) := by
  cases e with
  | tick now saved =>
    obtain ⟨hnone, _⟩ | ⟨round, tip, hround, _, _, hsome, _⟩ := tick_cases P n now saved
    · rw [h] at hnone
      cases hnone
    · obtain rfl := Option.some.inj (h.symm.trans hsome)
      exact ⟨hround, tick_round hround hne now saved⟩
  | _ => cases h

end Node

namespace Cluster

/-- The leader of a round holds the block of every round before it, as far as it can tell from their number,
and no local round has wrapped. -/
structure TakesItsTurn (c : Cluster) (x : Fin 3 × Event) : Prop where
  waits : ∀ block ∈ (c.node x.1).produced P x.2, block.header.round.toNat ≤ (c.node x.1).state.blocks.length
  counts : ∀ round ∈ ((c.node x.1).step P x.2).round, round ≠ 0

def log (c : Cluster) : SharedLog (Fin 3) Block := ⟨c.known, fun i => (c.node i).state.blocks.length⟩

structure ReadsOneLog (c : Cluster) : Prop where
  numbered : ∀ k (h : k < c.known.length), c.known[k].header.height.toNat = k ∧
    c.known[k].header.round.toNat = k
  chains : ∀ i, (c.node i).state.blocks = c.log.reads i
  ledgers : ∀ i, (c.node i).state.worldState.ledger = (WorldState.new.applyBlocks P (c.log.reads i)).ledger
  comparable : ∀ i j, (c.node i).state.blocks <+: (c.node j).state.blocks ∨
    (c.node j).state.blocks <+: (c.node i).state.blocks

structure TookTurns (c : Cluster) : Prop extends Kept P c where
  contiguous : Contiguous c.known
  heights : ∀ b ∈ c.known, b.header.height = b.header.round
  past : ∀ p ∈ c.produced, p.2.header.round ≠ 0 ∧ ∀ round ∈ (c.node p.1).round, p.2.header.round < round
  counted : ∀ i, ∀ round ∈ (c.node i).round, round ≠ 0
  bounded : c.known.length < 2 ^ 64

variable {P} {c : Cluster} {x : Fin 3 × Event}

theorem TookTurns.height_lt (h : TookTurns P c) {b : Block} (hb : b ∈ c.known) :
    b.header.height.toNat < c.known.length := by
  obtain ⟨k, hk, rfl⟩ := List.mem_iff_getElem.mp hb
  rw [h.contiguous k hk]
  exact hk

theorem TookTurns.length_le (h : TookTurns P c) (i : Fin 3) :
    (c.node i).state.blocks.length ≤ c.known.length := by
  obtain ⟨tip, htip⟩ := Option.isSome_iff_exists.mp (List.getLast?_isSome.mpr (h.consistent i).nonempty)
  have hlt := h.height_lt ((h.holds i).chain tip (List.mem_of_getLast? htip))
  rw [← (h.consistent i).heights.last htip]
  exact hlt

theorem TookTurns.chain_eq (h : TookTurns P c) (i : Fin 3) : (c.node i).state.blocks = c.log.reads i := by
  have hle := h.length_le i
  refine List.prefix_iff_eq_take.mp (List.prefix_iff_getElem.mpr ⟨hle, fun k hk => ?_⟩)
  obtain ⟨m, hm, hsame⟩ := List.mem_iff_getElem.mp ((h.holds i).chain _ (List.getElem_mem hk))
  have hkm : m = k := by
    rw [← h.contiguous m hm, hsame, (h.consistent i).heights k hk]
  subst hkm
  exact hsame.symm

theorem TookTurns.readsOneLog (h : TookTurns P c) : c.ReadsOneLog P := by
  refine ⟨fun k hk => ⟨h.contiguous k hk, ?_⟩, h.chain_eq, fun i => ?_, fun i j => ?_⟩
  · rw [← h.heights _ (List.getElem_mem hk)]
    exact h.contiguous k hk
  · rw [← h.chain_eq i]
    exact h.ledger i
  · rw [h.chain_eq i, h.chain_eq j]
    exact c.log.reads_comparable i j

/-- Were there a block of the round already, the leader would have made it itself, in an earlier tick. -/
theorem TookTurns.produced_last (h : TookTurns P c) (hrecorded : Recorded P c x) (hturn : c.TakesItsTurn P x)
    {block : Block} (hprod : (c.node x.1).produced P x.2 = some block) :
    (c.node x.1).state.blocks.length = c.known.length ∧ block.header.height.toNat = c.known.length ∧
      block.header.height = block.header.round := by
  obtain ⟨hround, _⟩ := Node.produced_round_step (h.consistent x.1).nonempty hprod
  have hwaits := hturn.waits block hprod
  have hheight := h.toKept.produced_height hrecorded hprod
  have hle := h.length_le x.1
  have hnew : c.known.length ≤ block.header.round.toNat := by
    by_contra hlt
    have hold := Nat.lt_of_not_le hlt
    have hknown := List.getElem_mem hold
    have hat : c.known[block.header.round.toNat].header.round = block.header.round := by
      rw [← h.heights _ hknown]
      exact UInt64.toNat_inj.mp (h.contiguous _ hold)
    generalize c.known[block.header.round.toNat] = old at hknown hat
    rcases List.mem_cons.mp hknown with rfl | hmade
    · exact h.counted x.1 _ hround hat.symm
    · obtain ⟨p, hp, rfl⟩ := List.mem_map.mp hmade
      have hsame : p.1 = x.1 := by
        apply Fin.val_inj.mp
        rw [← h.rounds p hp, hat, produced_round hprod, h.index]
      have hpast := (h.past p hp).2 block.header.round (hsame ▸ hround)
      rw [hat] at hpast
      exact absurd hpast (UInt64.lt_irrefl _)
  exact ⟨by omega, by omega, UInt64.toNat_inj.mp (by omega)⟩

theorem lt_next {round : UInt64} (h : round + 1 ≠ 0) : round < round + 1 := by
  rw [UInt64.lt_iff_toNat_lt, UInt64.toNat_add, UInt64.toNat_one]
  have hlt := round.toNat_lt
  have hne : (round + 1).toNat ≠ 0 := fun hzero => h (UInt64.toNat_inj.mp hzero)
  rw [UInt64.toNat_add, UInt64.toNat_one] at hne
  omega

theorem TookTurns.past_step (hP : P.BincodeRoundTrips) (h : TookTurns P c) (hturn : c.TakesItsTurn P x)
    {p : Fin 3 × Block} (hp : p ∈ c.produced) (hpx : p.1 = x.1) :
    ∀ round ∈ ((c.node x.1).step P x.2).round, p.2.header.round < round := by
  have hold : ∀ round ∈ (c.node x.1).round, p.2.header.round < round := hpx ▸ (h.past p hp).2
  have hconsistent := h.consistent x.1
  cases hrestart : x.2.isRestart with
  | true =>
    obtain ⟨saved, hsaved⟩ := Event.eq_restart hrestart
    rw [hsaved, Node.restart_of_consistent hP hconsistent]
    rintro round ⟨⟩
  | false =>
    obtain hsame | ⟨_, tip, htip, hset⟩ | ⟨g, hg, hset, _⟩ :=
      Node.round_step (P := P) hconsistent.nonempty hrestart
    · rw [hsame]
      exact hold
    · have hnext := hturn.counts _ hset
      rw [hset]
      rintro round ⟨⟩
      have htipknown := (h.holds x.1).chain tip (List.mem_of_getLast? htip)
      have hown := h.own p hp
      rw [hpx] at hown
      have hle : p.2.header.height.toNat ≤ tip.header.height.toNat := by
        have hlt := h.toKept.height_lt hown
        rw [← hconsistent.heights.last htip] at hlt
        exact Nat.le_of_lt_succ hlt
      have hle' : p.2.header.round ≤ tip.header.round := by
        rw [← h.heights p.2 (List.mem_cons_of_mem _ (List.mem_map_of_mem hp)), ← h.heights tip htipknown]
        exact UInt64.le_iff_toNat_le.mpr hle
      exact UInt64.lt_of_le_of_lt hle' (lt_next hnext)
    · have hnext := hturn.counts _ hset
      rw [hset]
      rintro round ⟨⟩
      exact UInt64.lt_trans (hold g hg) (lt_next hnext)

theorem known_step : (c.step P x).known = c.known ++ ((c.node x.1).produced P x.2).toList := by
  rw [known, step, List.map_append, List.map_map]
  simp [known, Function.comp_def]

theorem TookTurns.step (hP : P.BincodeRoundTrips) (h : TookTurns P c) (hx : c.Gossiped x)
    (hrecorded : Recorded P c x) (hturn : c.TakesItsTurn P x) : TookTurns P (c.step P x) := by
  refine ⟨h.toKept.step hP hx hrecorded, ?_, ?_, ?_, ?_, ?_⟩
  · rw [known_step]
    cases hprod : (c.node x.1).produced P x.2 with
    | none =>
      rw [Option.toList_none, List.append_nil]
      exact h.contiguous
    | some block => exact contiguous_concat.mpr ⟨h.contiguous, (h.produced_last hrecorded hturn hprod).2.1⟩
  · intro b hb
    rcases mem_known_step.mp hb with hold | hprod
    · exact h.heights b hold
    · exact (h.produced_last hrecorded hturn hprod).2.2
  · intro p hp
    rcases (mem_step_produced P).mp hp with hold | ⟨hpx, hprod⟩
    · refine ⟨(h.past p hold).1, ?_⟩
      apply forall_step_node P (fun i n => p.1 = i → ∀ round ∈ n.round, p.2.header.round < round) _ _ p.1 rfl
      · exact h.past_step hP hturn hold
      · rintro i _ rfl
        exact (h.past p hold).2
    · obtain ⟨hround, hset⟩ := Node.produced_round_step (h.consistent x.1).nonempty hprod
      have hnext := hturn.counts _ hset
      refine ⟨h.counted x.1 _ hround, ?_⟩
      rw [hpx, step_node_self, hset]
      rintro round ⟨⟩
      exact lt_next hnext
  · exact forall_step_node P (fun _ n => ∀ round ∈ n.round, round ≠ 0) hturn.counts fun i _ => h.counted i
  · rw [known_step, List.length_append]
    cases hprod : (c.node x.1).produced P x.2 with
    | none => exact h.bounded
    | some block =>
      obtain ⟨_, hlast, hheight⟩ := h.produced_last hrecorded hturn hprod
      obtain ⟨_, hset⟩ := Node.produced_round_step (h.consistent x.1).nonempty hprod
      have hnext := UInt64.lt_iff_toNat_lt.mp (lt_next (hturn.counts _ hset))
      have hbound := (block.header.round + 1).toNat_lt
      rw [hheight] at hlast
      rw [Option.toList_some, List.length_singleton]
      omega

theorem init_tookTurns (hP : P.BincodeRoundTrips) : TookTurns P (init P) := by
  refine ⟨init_kept hP, ?_, ?_, fun p hp => absurd hp List.not_mem_nil, ?_, ?_⟩
  · exact contiguous_genesis
  · intro b hb
    rw [List.mem_singleton.mp hb]
    rfl
  · rintro i round ⟨⟩
  · exact Nat.one_lt_two_pow (by decide)

theorem log_position_step (hP : P.BincodeRoundTrips) (h : TookTurns P c) : (c.step P x).log.position =
    Function.update c.log.position x.1
      ((c.node x.1).state.blocks.length + ((c.node x.1).appended P x.2).length) := by
  funext i
  by_cases hi : i = x.1
  · rw [hi, Function.update_self]
    change ((c.step P x).node x.1).state.blocks.length = _
    rw [step_node_self, (h.consistent x.1).chain hP, List.length_append]
  · rw [Function.update_of_ne hi]
    change ((c.step P x).node i).state.blocks.length = _
    rw [step_node_of_ne P c hi]
    rfl

theorem TookTurns.log_step (hP : P.BincodeRoundTrips) (h : TookTurns P c) (hx : c.Gossiped x)
    (hrecorded : Recorded P c x) (hturn : c.TakesItsTurn P x) : SharedLog.Step c.log (c.step P x).log := by
  have hentries : (c.step P x).log.entries = c.known ++ ((c.node x.1).produced P x.2).toList := known_step
  have hposition := log_position_step (x := x) hP h
  have hlog : (c.step P x).log = ⟨(c.step P x).log.entries, (c.step P x).log.position⟩ := rfl
  rw [hlog, hentries, hposition]
  cases hprod : (c.node x.1).produced P x.2 with
  | some block =>
    have hlast := (h.produced_last hrecorded hturn hprod).1
    have hone : ((c.node x.1).appended P x.2).length = 1 := by
      rw [Node.appended, Node.imported_of_produced P hprod, hprod]
      rfl
    rw [hone, hlast]
    exact .add x.1 block hlast
  | none =>
    have hnext := (h.step hP hx hrecorded hturn).length_le x.1
    rw [step_node_self, (h.consistent x.1).chain hP, List.length_append, known_step, hprod,
      Option.toList_none, List.append_nil] at hnext
    rw [Option.toList_none, List.append_nil]
    exact .read x.1 _ (Nat.le_add_right _ _) hnext

variable (P) in
def LogStep (c : Cluster) (x : Fin 3 × Event) : Prop :=
  SharedLog.Step c.log (c.step P x).log ∧ ∀ i, (c.node i).state.blocks <+: ((c.step P x).node i).state.blocks

theorem TookTurns.logStep (hP : P.BincodeRoundTrips) (h : TookTurns P c) (hx : c.Gossiped x)
    (hrecorded : Recorded P c x) (hturn : c.TakesItsTurn P x) : c.LogStep P x := by
  have hlog := h.log_step hP hx hrecorded hturn
  refine ⟨hlog, fun i => ?_⟩
  rw [h.chain_eq i, (h.step hP hx hrecorded hturn).chain_eq i]
  exact hlog.reads_prefix i

theorem tookTurns_run (hP : P.BincodeRoundTrips) {xs : List (Fin 3 × Event)}
    (hgossip : AllSteps (step P) Gossiped (init P) xs)
    (hrecorded : AllSteps (step P) (Recorded P) (init P) xs)
    (hturns : AllSteps (step P) (TakesItsTurn P) (init P) xs) :
    AllStates (step P) (TookTurns P) (init P) xs ∧ AllSteps (step P) (LogStep P) (init P) xs := by
  have hall : AllSteps (step P) (fun c x => c.Gossiped x ∧ Recorded P c x ∧ c.TakesItsTurn P x) (init P) xs :=
    allSteps_and.mpr ⟨hgossip, allSteps_and.mpr ⟨hrecorded, hturns⟩⟩
  have hkeep : ∀ c x, TookTurns P c → (c.Gossiped x ∧ Recorded P c x ∧ c.TakesItsTurn P x) →
      TookTurns P (c.step P x) :=
    fun _ _ h hx => h.step hP hx.1 hx.2.1 hx.2.2
  constructor
  · exact invariant hkeep (init_tookTurns hP) hall
  · exact allSteps_of_invariant hkeep (fun _ _ h hx => h.logStep hP hx.1 hx.2.1 hx.2.2)
      (init_tookTurns hP) hall

theorem chain_grows {xs : List (Fin 3 × Event)} (h : AllSteps (step P) (LogStep P) c xs) (i : Fin 3) :
    (c.node i).state.blocks <+: ((run (step P) c xs).node i).state.blocks := by
  induction xs generalizing c with
  | nil => exact List.prefix_rfl
  | cons x xs ih => exact (h.1.2 i).trans (ih h.2)

theorem turns_keep_one_log (P : Primitives) (hP : P.BincodeRoundTrips) (xs : List (Fin 3 × Event))
    (hgossip : AllSteps (step P) Gossiped (init P) xs)
    (hrecorded : AllSteps (step P) (Recorded P) (init P) xs)
    (hturns : AllSteps (step P) (TakesItsTurn P) (init P) xs) :
    AllStates (step P) (ReadsOneLog P) (init P) xs ∧ AllSteps (step P) (LogStep P) (init P) xs := by
  obtain ⟨hrun, hsteps⟩ := tookTurns_run hP hgossip hrecorded hturns
  exact ⟨hrun.mono fun _ h => h.readsOneLog, hsteps⟩

section Runs

instance (c : Cluster) (x : Fin 3 × Event) : Decidable (c.TakesItsTurn P x) :=
  have := Option.decidableForallMem (p := fun round : UInt64 => round ≠ 0) ((c.node x.1).step P x.2).round
  decidable_of_iff (_ ∧ _) ⟨fun h => ⟨h.1, h.2⟩, fun h => ⟨h.waits, h.counts⟩⟩

theorem orderlyRun_recorded : AllSteps (step .sample) (Recorded .sample) (init .sample) orderlyRun := by
  refine ⟨?_, ?_, ?_, ?_, ?_, ?_, ?_, trivial⟩ <;> exact ⟨by simp [Event.savesOk], by decide +kernel⟩

theorem takesItsTurn_restart {i : Fin 3} {saved : Bool} (h : (c.node i).round = none) :
    c.TakesItsTurn P (i, .restart saved) := by
  constructor
  · rintro block ⟨⟩
  · intro round hround
    obtain hsame | ⟨db, blocks, hboot⟩ := Node.restart_boot (P := P) (c.node i) saved
    · rw [hsame, h] at hround
      cases hround
    · rw [hboot] at hround
      cases hround

theorem orderlyRun_turns : AllSteps (step .sample) (TakesItsTurn .sample) (init .sample) orderlyRun := by
  refine ⟨?_, ?_, ?_, ?_, ?_, ?_, takesItsTurn_restart rfl, trivial⟩ <;> decide +kernel

theorem turns_keep_one_log_orderlyRun :
    AllStates (step .sample) (ReadsOneLog .sample) (init .sample) orderlyRun ∧
      AllSteps (step .sample) (LogStep .sample) (init .sample) orderlyRun :=
  turns_keep_one_log .sample sample_roundTrips orderlyRun (by decide +kernel) orderlyRun_recorded
    orderlyRun_turns

end Runs

end Cluster

end VelaNetwork
