import VelaNetwork.InTurn

namespace VelaNetwork

open Library.Runs
open Library.SharedLogs

variable (P : Primitives)

structure Listening where
  cluster : Cluster
  heard : List (Fin 3 × Block)

namespace Listening

open Cluster

def announced : Event → Option Block
  | .message (.newBlock block) _ _ => some block
  | _ => none

def step (s : Listening) (x : Fin 3 × Event) : Listening where
  cluster := s.cluster.step P x
  heard := s.heard ++ (announced x.2).toList.map fun block => (x.1, block)

def init : Listening := ⟨Cluster.init P, []⟩

/-- Messages take less time than a round: when a leader produces, the others have heard of every block before,
and no clock is behind. -/
structure Timely (s : Listening) (x : Fin 3 × Event) : Prop where
  running : x.2.isRestart = false
  counts : ∀ round ∈ ((s.cluster.node x.1).step P x.2).round, round ≠ 0
  heard : ∀ block ∈ (s.cluster.node x.1).produced P x.2, ∀ p ∈ s.cluster.produced, ∀ j, j ≠ p.1 →
    (j, p.2) ∈ s.heard
  clocks : ∀ block ∈ (s.cluster.node x.1).produced P x.2, ∀ j, ∃ round ∈ (s.cluster.node j).round,
    block.header.round ≤ round

structure KeepsPace (s : Listening) : Prop extends ReadsOneLog P s.cluster where
  progress : ∀ r : ℕ, (∀ i, ∃ round ∈ (s.cluster.node i).round, r < round.toNat) → r < s.cluster.known.length
  leaders : ∀ p ∈ s.cluster.produced, p.2.header.round.toNat % 3 = p.1
  close : ∀ i, s.cluster.known.length ≤ (s.cluster.node i).state.blocks.length + 1

structure InPace (s : Listening) : Prop extends TookTurns P s.cluster where
  passed : ∀ i, ∀ round ∈ (s.cluster.node i).round, ∀ r : ℕ, r < round.toNat → r % 3 = i →
    r < s.cluster.known.length
  close : ∀ i, s.cluster.known.length ≤ (s.cluster.node i).state.blocks.length + 1
  kept : ∀ p ∈ s.heard, p.2 ∈ (s.cluster.node p.1).state.blocks

variable {P} {s : Listening} {x : Fin 3 × Event}

theorem InPace.progress (h : InPace P s) {r : ℕ}
    (hpassed : ∀ i, ∃ round ∈ (s.cluster.node i).round, r < round.toNat) :
    r < s.cluster.known.length := by
  let leader : Fin 3 := ⟨r % 3, Nat.mod_lt _ (by decide)⟩
  obtain ⟨round, hround, hlt⟩ := hpassed leader
  exact h.passed leader round hround r hlt rfl

theorem InPace.keepsPace (h : InPace P s) : KeepsPace P s :=
  ⟨h.readsOneLog, fun _ => h.progress, h.toTookTurns.toKept.toLed.rounds, h.close⟩

theorem InPace.holds_all (h : InPace P s) (htimely : s.Timely P x) {block : Block}
    (hprod : (s.cluster.node x.1).produced P x.2 = some block) (j : Fin 3) :
    s.cluster.known.length ≤ (s.cluster.node j).state.blocks.length := by
  have hpos : 0 < (s.cluster.node j).state.blocks.length := List.length_pos_iff.mpr (h.consistent j).nonempty
  have hlast : s.cluster.known.length - 1 < s.cluster.known.length := Nat.sub_lt Nat.succ_pos' Nat.one_pos
  rcases List.mem_cons.mp (List.getElem_mem hlast) with hgenesis | hmade
  · have hat := h.contiguous _ hlast
    rw [hgenesis] at hat
    change 0 = _ at hat
    omega
  · obtain ⟨p, hp, hsame⟩ := List.mem_map.mp hmade
    have hheld : p.2 ∈ (s.cluster.node j).state.blocks := by
      by_cases hj : j = p.1
      · rw [hj]
        exact h.own p hp
      · exact h.kept (j, p.2) (htimely.heard block hprod p hp j hj)
    have hlt := h.toTookTurns.toKept.height_lt hheld
    rw [hsame, h.contiguous _ hlast] at hlt
    omega

theorem InPace.takesItsTurn (h : InPace P s) (htimely : s.Timely P x) : s.cluster.TakesItsTurn P x := by
  refine ⟨fun block hprod => ?_, htimely.counts⟩
  have hall := h.holds_all htimely hprod x.1
  by_contra hlate
  have hpassed : ∀ i, ∃ round ∈ (s.cluster.node i).round, block.header.round.toNat - 1 < round.toNat := by
    intro i
    obtain ⟨round, hround, hle⟩ := htimely.clocks block hprod i
    have hnat := UInt64.le_iff_toNat_le.mp hle
    exact ⟨round, hround, by omega⟩
  have hprogress := h.progress hpassed
  omega

theorem leads_of_mod {n : Node} {round : UInt64} (h : round.toNat % 3 = n.validatorIndex) :
    n.leads round = true := by
  unfold Node.leads
  rw [decide_eq_true_eq]
  apply UInt64.toNat_inj.mp
  have hindex : (UInt64.ofNat n.validatorIndex).toNat = n.validatorIndex := by
    apply UInt64.toNat_ofNat_of_lt'
    exact Nat.lt_trans n.validatorIndex.isLt (by decide)
  rw [UInt64.toNat_mod, hindex]
  exact h

theorem InPace.passed_step (h : InPace P s) (hrecorded : Recorded P s.cluster x) (htimely : s.Timely P x) :
    ∀ round ∈ ((s.cluster.node x.1).step P x.2).round, ∀ r : ℕ, r < round.toNat → r % 3 = x.1 →
      r < (s.cluster.step P x).known.length := by
  have hgrown : s.cluster.known.length ≤ (s.cluster.step P x).known.length := by
    rw [known_step, List.length_append]
    exact Nat.le_add_right _ _
  have hturn := h.takesItsTurn htimely
  obtain hsame | ⟨_, tip, htip, hset⟩ | ⟨g, hg, hset, hproduces⟩ :=
    Node.round_step (P := P) (h.consistent x.1).nonempty htimely.running
  · rw [hsame]
    intro round hround r hr hlead
    exact Nat.lt_of_lt_of_le (h.passed x.1 round hround r hr hlead) hgrown
  · rw [hset]
    rintro round ⟨⟩ r hr _
    have htipknown := (h.holds x.1).chain tip (List.mem_of_getLast? htip)
    have hheight := h.toTookTurns.height_lt htipknown
    rw [h.heights tip htipknown] at hheight
    have hnext := Nat.mod_le (tip.header.round.toNat + 1) (2 ^ 64)
    rw [UInt64.toNat_add, UInt64.toNat_one] at hr
    omega
  · rw [hset]
    rintro round ⟨⟩ r hr hlead
    have hnext := Nat.mod_le (g.toNat + 1) (2 ^ 64)
    rw [UInt64.toNat_add, UInt64.toNat_one] at hr
    by_cases hearlier : r < g.toNat
    · exact Nat.lt_of_lt_of_le (h.passed x.1 g hg r hearlier hlead) hgrown
    · have hr' : r = g.toNat := by omega
      rw [hr', ← h.index x.1] at hlead
      obtain ⟨block, hprod⟩ := hproduces (leads_of_mod hlead)
      obtain ⟨_, hlast, hround⟩ := h.toTookTurns.produced_last hrecorded hturn hprod
      obtain ⟨hlocal, _⟩ := Node.produced_round_step (h.consistent x.1).nonempty hprod
      obtain rfl := Option.some.inj (hlocal.symm.trans hg)
      rw [hround] at hlast
      rw [known_step, hprod, List.length_append, Option.toList_some, List.length_singleton]
      omega

theorem InPace.heard_kept (hP : P.BincodeRoundTrips) (h : InPace P s) {i : Fin 3} {block : Block}
    {order : IterOrder} {saves : ℕ → Bool} (hsent : .newBlock block ∈ s.cluster.sent) :
    block ∈ ((s.cluster.node i).step P (.message (.newBlock block) order saves)).state.blocks := by
  have hknown : block ∈ s.cluster.known := h.sent _ hsent block List.mem_cons_self
  have hlt := h.toTookTurns.height_lt hknown
  have hclose := h.close i
  rw [(h.consistent i).chain hP, h.chain_eq i]
  obtain ⟨k, hk, hsame⟩ := List.mem_iff_getElem.mp hknown
  have hat := h.contiguous k hk
  rw [hsame] at hat
  by_cases hold : k < (s.cluster.node i).state.blocks.length
  · apply List.mem_append_left
    rw [← hsame]
    exact List.mem_take_iff_getElem.mpr ⟨k, by rw [Nat.lt_min]; exact ⟨hold, hk⟩, rfl⟩
  · apply List.mem_append_right
    have hnext : block.header.height = (s.cluster.node i).tipHeight + 1 := by
      obtain ⟨tip, htip⟩ := Option.isSome_iff_exists.mp (List.getLast?_isSome.mpr (h.consistent i).nonempty)
      have htop := (h.consistent i).heights.last htip
      have hbound := block.header.height.toNat_lt
      apply UInt64.toNat_inj.mp
      rw [Node.tipHeight_eq htip, UInt64.toNat_add, UInt64.toNat_one]
      omega
    change block ∈ Node.accepted (s.cluster.node i).tipHeight [block] ++ _
    unfold Node.accepted
    rw [if_pos hnext]
    exact List.mem_cons_self

theorem InPace.step (hP : P.BincodeRoundTrips) (h : InPace P s) (hx : s.cluster.Gossiped x)
    (hrecorded : Recorded P s.cluster x) (htimely : s.Timely P x) : InPace P (s.step P x) := by
  have hturn := h.takesItsTurn htimely
  have hgrows := (h.toTookTurns.logStep hP hx hrecorded hturn).2
  refine ⟨h.toTookTurns.step hP hx hrecorded hturn, ?_, fun i => ?_, fun p hp => ?_⟩
  · apply forall_step_node P (fun i n => ∀ round ∈ n.round, ∀ r : ℕ, r < round.toNat → r % 3 = i →
      r < (s.cluster.step P x).known.length) (h.passed_step hrecorded htimely)
    intro i _ round hround r hr hlead
    rw [known_step, List.length_append]
    exact Nat.lt_of_lt_of_le (h.passed i round hround r hr hlead) (Nat.le_add_right _ _)
  · have hlength := (hgrows i).length_le
    change (s.cluster.step P x).known.length ≤ ((s.cluster.step P x).node i).state.blocks.length + 1
    rw [known_step, List.length_append]
    cases hprod : (s.cluster.node x.1).produced P x.2 with
    | none =>
      have hclose := h.close i
      rw [Option.toList_none, List.length_nil]
      omega
    | some block =>
      have hall := h.holds_all htimely hprod i
      rw [Option.toList_some, List.length_singleton]
      omega
  · rcases List.mem_append.mp hp with hold | hnew
    · exact (hgrows p.1).subset (h.kept p hold)
    · obtain ⟨block, hblock, rfl⟩ := List.mem_map.mp hnew
      obtain ⟨i, e⟩ := x
      cases e with
      | message msg order saves =>
        cases msg with
        | newBlock b =>
          obtain rfl := Option.some.inj (Option.mem_toList.mp hblock)
          change b ∈ ((s.cluster.step P (i, .message (.newBlock b) order saves)).node i).state.blocks
          rw [step_node_self]
          exact h.heard_kept hP hx
        | _ => cases hblock
      | _ => cases hblock

theorem init_inPace (hP : P.BincodeRoundTrips) : InPace P (init P) :=
  ⟨init_tookTurns hP, fun _ _ hround => absurd hround nofun, fun _ => Nat.le_succ 1,
    fun _ hp => absurd hp List.not_mem_nil⟩

theorem every_round_has_its_block (P : Primitives) (hP : P.BincodeRoundTrips) (xs : List (Fin 3 × Event))
    (hgossip : AllSteps (step P) (fun s x => s.cluster.Gossiped x) (init P) xs)
    (hrecorded : AllSteps (step P) (fun s x => Recorded P s.cluster x) (init P) xs)
    (htimely : AllSteps (step P) (Timely P) (init P) xs) : AllStates (step P) (KeepsPace P) (init P) xs := by
  have hall : AllSteps (step P) (fun s x => s.cluster.Gossiped x ∧ Recorded P s.cluster x ∧ s.Timely P x)
      (init P) xs :=
    allSteps_and.mpr ⟨hgossip, allSteps_and.mpr ⟨hrecorded, htimely⟩⟩
  have hrun : AllStates (step P) (InPace P) (init P) xs :=
    invariant (fun _ _ h hx => h.step hP hx.1 hx.2.1 hx.2.2) (init_inPace hP) hall
  exact hrun.mono fun _ h => h.keepsPace

section Runs

instance (s : Listening) (x : Fin 3 × Event) : Decidable (s.Timely P x) :=
  have := Option.decidableForallMem (p := fun round : UInt64 => round ≠ 0)
      ((s.cluster.node x.1).step P x.2).round
  have := fun (block : Block) j =>
    Option.decidableExistsMem (p := fun round : UInt64 => block.header.round ≤ round) (s.cluster.node j).round
  decidable_of_iff (_ ∧ _ ∧ _ ∧ _)
    ⟨fun h => ⟨h.1, h.2.1, h.2.2.1, h.2.2.2⟩, fun h => ⟨h.running, h.counts, h.heard, h.clocks⟩⟩

noncomputable def twoRounds : List (Fin 3 × Event) :=
  [(0, .startProducer), (1, .startProducer), (2, .startProducer), (1, .tick 10 true),
   (0, .message (.newBlock blockOfOne) .insertion fun _ => true),
   (2, .message (.newBlock blockOfOne) .insertion fun _ => true),
   (0, .tick 11 true), (2, .tick 12 true), (2, .tick 20 true)]

theorem twoRounds_recorded :
    AllSteps (step .sample) (fun s x => Recorded .sample s.cluster x) (init .sample) twoRounds := by
  refine ⟨?_, ?_, ?_, ?_, ?_, ?_, ?_, ?_, ?_, trivial⟩ <;> exact ⟨by simp [Event.savesOk], by decide +kernel⟩

theorem every_round_has_its_block_twoRounds :
    AllStates (step .sample) (KeepsPace .sample) (init .sample) twoRounds :=
  every_round_has_its_block .sample sample_roundTrips twoRounds (by decide +kernel)
    twoRounds_recorded (by decide +kernel)

end Runs

end Listening

end VelaNetwork
