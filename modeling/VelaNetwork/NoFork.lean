import VelaNetwork.Cluster
import VelaNetwork.Replay
import VelaNetwork.Sample

namespace VelaNetwork.Cluster

open Library.Runs

variable (P : Primitives)

def known (c : Cluster) : List Block := Block.genesis :: c.produced.map (·.2)

/-- No message comes from outside: what is delivered was sent, though it may come late, twice or never. -/
def Gossiped (c : Cluster) (x : Fin 3 × Event) : Prop :=
  match x.2 with
  | .message msg _ _ => msg ∈ c.sent
  | _ => True

/-- A node that produces has caught up: no block of the height it is about to produce exists, nor a
higher one. -/
def CaughtUp (c : Cluster) (x : Fin 3 × Event) : Prop :=
  (∃ block, (c.node x.1).produced P x.2 = some block) →
    ∀ block ∈ c.known, block.header.height < (c.node x.1).tipHeight + 1

def NoFork (c : Cluster) : Prop :=
  ∀ i j, ∀ b ∈ (c.node i).state.blocks, ∀ b' ∈ (c.node j).state.blocks,
    b.header.height = b'.header.height → b.hash P = b'.hash P

structure Sourced (c : Cluster) : Prop where
  holds : ∀ i, (c.node i).HoldsOnly P (· ∈ c.known)
  sent : ∀ msg ∈ c.sent, ∀ b ∈ msg.blocks, b ∈ c.known

structure Agreed (c : Cluster) : Prop extends Sourced P c where
  unique : ∀ b ∈ c.known, ∀ b' ∈ c.known, b.header.height = b'.header.height → b = b'

variable {P} {c : Cluster} {x : Fin 3 × Event}

theorem mem_known_step {b : Block} :
    b ∈ (c.step P x).known ↔ b ∈ c.known ∨ (c.node x.1).produced P x.2 = some b := by
  simp only [known, List.mem_cons, List.mem_map, mem_step_produced]
  constructor
  · rintro (h | ⟨p, hp | ⟨_, hp⟩, rfl⟩)
    · exact Or.inl (Or.inl h)
    · exact Or.inl (Or.inr ⟨p, hp, rfl⟩)
    · exact Or.inr hp
  · rintro ((h | ⟨p, hp, rfl⟩) | h)
    · exact Or.inl h
    · exact Or.inr ⟨p, Or.inl hp, rfl⟩
    · exact Or.inr ⟨(x.1, b), Or.inr ⟨rfl, h⟩, rfl⟩

theorem known_mono {b : Block} (hb : b ∈ c.known) : b ∈ (c.step P x).known := mem_known_step.mpr (Or.inl hb)

theorem Sourced.imported (h : Sourced P c) (hx : c.Gossiped x) :
    ∀ b ∈ (c.node x.1).imported x.2, b ∈ c.known := by
  intro b hb
  obtain ⟨i, e⟩ := x
  cases e with
  | message msg order saves => exact h.sent msg hx b (Node.imported_subset hb)
  | _ => exact absurd hb List.not_mem_nil

theorem Sourced.appended (h : Sourced P c) (hx : c.Gossiped x) :
    ∀ b ∈ (c.node x.1).appended P x.2, b ∈ (c.step P x).known := by
  intro b hb
  rw [mem_known_step]
  rcases List.mem_append.mp hb with himport | hprod
  · exact Or.inl (h.imported hx b himport)
  · exact Or.inr (Option.mem_toList.mp hprod)

theorem Sourced.step (hP : P.BincodeRoundTrips) (h : Sourced P c) (hx : c.Gossiped x) :
    Sourced P (c.step P x) := by
  constructor
  · apply forall_step_node P (fun _ n => n.HoldsOnly P _) _ (fun i _ => (h.holds i).mono fun _ => known_mono)
    exact ((h.holds x.1).mono fun _ => known_mono).step hP List.mem_cons_self (h.appended hx)
  · intro msg hmsg b hb
    rcases List.mem_append.mp hmsg with hold | hnew
    · exact known_mono (h.sent msg hold b hb)
    · rcases Node.sends_blocks hnew b hb with rfl | hprod | hheld
      · exact List.mem_cons_self
      · exact mem_known_step.mpr (Or.inr hprod)
      · exact known_mono ((h.holds x.1).chain b hheld)

theorem Agreed.step (hP : P.BincodeRoundTrips) (h : Agreed P c) (hx : c.Gossiped x)
    (hcaught : c.CaughtUp P x) :
    Agreed P (c.step P x) := by
  refine ⟨h.toSourced.step hP hx, ?_⟩
  intro b hb b' hb' hheight
  have hnew : ∀ {b b' : Block}, (c.node x.1).produced P x.2 = some b → b' ∈ c.known →
      b'.header.height < b.header.height := by
    intro b b' hprod hold
    rw [Node.produced_height P hprod]
    exact hcaught ⟨b, hprod⟩ b' hold
  rcases mem_known_step.mp hb with hb | hb <;> rcases mem_known_step.mp hb' with hb' | hb'
  · exact h.unique b hb b' hb' hheight
  · have hlt := hnew hb' hb
    rw [hheight] at hlt
    exact absurd hlt (UInt64.lt_irrefl _)
  · have hlt := hnew hb hb'
    rw [hheight] at hlt
    exact absurd hlt (UInt64.lt_irrefl _)
  · exact Option.some.inj (hb.symm.trans hb')

theorem init_agreed (hP : P.BincodeRoundTrips) : Agreed P (init P) := by
  refine ⟨⟨?_, fun msg hmsg => absurd hmsg List.not_mem_nil⟩, ?_⟩
  · intro i
    exact Node.fresh_holdsOnly hP List.mem_cons_self i
  · intro b hb b' hb' _
    rw [List.mem_singleton.mp hb, List.mem_singleton.mp hb']

theorem Agreed.noFork (h : Agreed P c) : c.NoFork P := by
  intro i j b hb b' hb' hheight
  rw [h.unique b ((h.holds i).chain b hb) b' ((h.holds j).chain b' hb') hheight]

theorem agreed_run (hP : P.BincodeRoundTrips) {xs : List (Fin 3 × Event)}
    (hgossip : AllSteps (step P) Gossiped (init P) xs)
    (hcaught : AllSteps (step P) (CaughtUp P) (init P) xs) :
    AllStates (step P) (Agreed P) (init P) xs := by
  have hboth : AllSteps (step P) (fun c x => c.Gossiped x ∧ c.CaughtUp P x) (init P) xs :=
    allSteps_and.mpr ⟨hgossip, hcaught⟩
  exact invariant (fun _ _ h hx => h.step hP hx.1 hx.2) (init_agreed hP) hboth

theorem no_fork (P : Primitives) (hP : P.BincodeRoundTrips) (xs : List (Fin 3 × Event))
    (hgossip : AllSteps (step P) Gossiped (init P) xs)
    (hcaught : AllSteps (step P) (CaughtUp P) (init P) xs) :
    AllStates (step P) (NoFork P) (init P) xs :=
  (agreed_run hP hgossip hcaught).mono fun _ h => h.noFork

section Behind

variable (P) in
def Recorded (c : Cluster) (x : Fin 3 × Event) : Prop :=
  x.2.savesOk ∧ ((c.node x.1).state.blocks ++ (c.node x.1).appended P x.2).length ≤ 2 ^ 64

variable (P) in
structure Kept (c : Cluster) : Prop extends Sourced P c, Led P c where
  consistent : ∀ i, Node.Consistent P (c.node i)
  own : ∀ p ∈ c.produced, p.2 ∈ (c.node p.1).state.blocks

theorem Kept.step (hP : P.BincodeRoundTrips) (h : Kept P c) (hx : c.Gossiped x) (hrecorded : Recorded P c x) :
    Kept P (c.step P x) := by
  have hchain := (h.consistent x.1).chain hP x.2
  refine ⟨h.toSourced.step hP hx, h.toLed.step x, ?_, ?_⟩
  · apply forall_step_node P (fun _ n => Node.Consistent P n) _ (fun i _ => h.consistent i)
    exact (h.consistent x.1).step hP hrecorded.1 hrecorded.2
  · intro p hp
    rcases (mem_step_produced P).mp hp with hold | ⟨hi, hprod⟩
    · apply forall_step_node P (fun i n => p.1 = i → p.2 ∈ n.state.blocks) _ _ p.1 rfl
      · intro hi
        rw [hchain]
        exact List.mem_append_left _ (hi ▸ h.own p hold)
      · intro i _ hi
        exact hi ▸ h.own p hold
    · rw [hi, step_node_self, hchain]
      exact List.mem_append_right _ (List.mem_append_right _ (Option.mem_toList.mpr hprod))

theorem init_kept (hP : P.BincodeRoundTrips) : Kept P (init P) :=
  ⟨(init_agreed hP).toSourced, init_led, fun i => (Node.start_consistent hP (Node.start_fresh hP i)).1,
    fun _ hp => absurd hp List.not_mem_nil⟩

theorem Kept.height_lt (h : Kept P c) {i : Fin 3} {b : Block} (hb : b ∈ (c.node i).state.blocks) :
    b.header.height.toNat < (c.node i).state.blocks.length := by
  obtain ⟨j, hj, rfl⟩ := List.mem_iff_getElem.mp hb
  rw [(h.consistent i).heights j hj]
  exact hj

theorem Kept.produced_height (h : Kept P c) (hrecorded : Recorded P c x) {block : Block}
    (hprod : (c.node x.1).produced P x.2 = some block) :
    block.header.height.toNat = (c.node x.1).state.blocks.length := by
  have hheights := (h.consistent x.1).contiguous_appended hrecorded.2
  have happended : (c.node x.1).appended P x.2 = [block] := by
    rw [Node.appended, Node.imported_of_produced P hprod, hprod]
    rfl
  rw [happended] at hheights
  exact (contiguous_concat.mp hheights).2

theorem Kept.fork (hP : P.BincodeRoundTrips) (h : Kept P c) (hrecorded : Recorded P c x) {block : Block}
    (hprod : (c.node x.1).produced P x.2 = some block) {p : Fin 3 × Block} (hp : p ∈ c.produced)
    (hheight : block.header.height ≤ p.2.header.height) (hfree : CollisionFree P (c.step P x).known) :
    ¬ (c.step P x).NoFork P := by
  intro hno
  have htop := h.produced_height hrecorded hprod
  have hlen : (c.node x.1).state.blocks.length < (c.node p.1).state.blocks.length := by
    rw [← htop]
    exact Nat.lt_of_le_of_lt (UInt64.le_iff_toNat_le.mp hheight) (h.height_lt (h.own p hp))
  have hother : p.1 ≠ x.1 := by
    intro hsame
    rw [hsame] at hlen
    exact absurd hlen (Nat.lt_irrefl _)
  obtain ⟨b, hb, hbheight⟩ : ∃ b ∈ (c.node p.1).state.blocks, b.header.height = block.header.height := by
    refine ⟨_, List.getElem_mem hlen, UInt64.toNat_inj.mp ?_⟩
    rw [(h.consistent p.1).heights _ hlen, htop]
  have hknown : b ∈ c.known := (h.holds p.1).chain b hb
  have hheader : b.header = block.header := by
    apply hfree b (known_mono hknown) block (mem_known_step.mpr (Or.inr hprod))
    apply hno p.1 x.1 b _ block _ hbheight
    · rw [step_node_of_ne P c hother]
      exact hb
    · rw [step_node_self, (h.consistent x.1).chain hP]
      exact List.mem_append_right _ (List.mem_append_right _ (Option.mem_toList.mpr hprod))
  rcases List.mem_cons.mp hknown with rfl | hmade
  · rw [← hbheight] at htop
    exact (h.consistent x.1).nonempty (List.length_eq_zero_iff.mp htop.symm)
  · obtain ⟨q, hq, rfl⟩ := List.mem_map.mp hmade
    have hround := h.rounds q hq
    rw [hheader, produced_round hprod, h.index] at hround
    have hheld := h.height_lt (h.own q hq)
    rw [← Fin.val_inj.mp hround, hbheight, htop] at hheld
    exact absurd hheld (Nat.lt_irrefl _)

theorem Kept.caughtUp (hP : P.BincodeRoundTrips) (h : Kept P c) (hrecorded : Recorded P c x)
    (hfree : CollisionFree P (c.step P x).known) (hno : (c.step P x).NoFork P) : c.CaughtUp P x := by
  rintro ⟨block, hprod⟩ b hb
  rw [← Node.produced_height P hprod]
  by_contra hlt
  have hle := UInt64.not_lt.mp hlt
  rcases List.mem_cons.mp hb with rfl | hmade
  · have htop := h.produced_height hrecorded hprod
    have hzero : block.header.height.toNat = 0 := Nat.le_zero.mp (UInt64.le_iff_toNat_le.mp hle)
    rw [hzero] at htop
    exact (h.consistent x.1).nonempty (List.length_eq_zero_iff.mp htop.symm)
  · obtain ⟨p, hp, rfl⟩ := List.mem_map.mp hmade
    exact h.fork hP hrecorded hprod hp hle hfree hno

theorem known_run_mono {xs : List (Fin 3 × Event)} {b : Block} (hb : b ∈ c.known) :
    b ∈ (run (step P) c xs).known := by
  induction xs generalizing c with
  | nil => exact hb
  | cons x xs ih => exact ih (known_mono hb)

theorem noFork_iff_caughtUp (hP : P.BincodeRoundTrips) {xs : List (Fin 3 × Event)}
    (hgossip : AllSteps (step P) Gossiped (init P) xs)
    (hrecorded : AllSteps (step P) (Recorded P) (init P) xs)
    (hfree : CollisionFree P (run (step P) (init P) xs).known) :
    AllStates (step P) (NoFork P) (init P) xs ↔ AllSteps (step P) (CaughtUp P) (init P) xs := by
  constructor
  · intro hno
    have hstates : AllStates (step P) (fun c => c.NoFork P ∧ CollisionFree P c.known) (init P) xs := by
      rintro xs' ⟨rest, rfl⟩
      rw [run, List.foldl_append] at hfree
      exact ⟨hno xs' (List.prefix_append xs' rest),
        fun b hb b' hb' => hfree b (known_run_mono hb) b' (known_run_mono hb')⟩
    have hboth : AllSteps (step P) (fun c x => c.Gossiped x ∧ Recorded P c x) (init P) xs :=
      allSteps_and.mpr ⟨hgossip, hrecorded⟩
    apply allSteps_of_allStates _ _ (init_kept hP) hboth hstates
    · exact fun _ _ h hx => h.step hP hx.1 hx.2
    · exact fun _ _ h hx _ hnext => h.caughtUp hP hx.2 hnext.2 hnext.1
  · intro hcaught
    exact (agreed_run hP hgossip hcaught).mono fun _ h => h.noFork

end Behind

section Runs

instance (c : Cluster) (x : Fin 3 × Event) : Decidable (c.Gossiped x) := by
  unfold Gossiped
  split <;> infer_instance

instance (c : Cluster) (x : Fin 3 × Event) : Decidable (c.CaughtUp P x) :=
  decidable_of_iff ((∃ block ∈ (c.node x.1).produced P x.2, True) → ∀ block ∈ c.known,
    block.header.height < (c.node x.1).tipHeight + 1) (by simp [CaughtUp])

instance (c : Cluster) : Decidable (c.NoFork P) :=
  inferInstanceAs (Decidable (∀ i j, ∀ b ∈ (c.node i).state.blocks, ∀ b' ∈ (c.node j).state.blocks, _ → _))

noncomputable def blockOfOne : Block :=
  (Node.startProducer (Node.fresh .sample 1)).newBlock .sample 10 Block.genesis 1

noncomputable def orderlyRun : List (Fin 3 × Event) :=
  [(1, .startProducer), (1, .tick 10 true), (2, .startProducer), (2, .tick 20 true),
   (2, .message (.newBlock blockOfOne) .insertion fun _ => true), (2, .tick 30 true), (0, .restart true)]

theorem no_fork_orderlyRun : AllStates (step .sample) (NoFork .sample) (init .sample) orderlyRun :=
  no_fork .sample sample_roundTrips orderlyRun (by decide +kernel) (by decide +kernel)

noncomputable def lossyRun : List (Fin 3 × Event) :=
  [(1, .startProducer), (1, .tick 10 true), (2, .startProducer), (2, .tick 20 true), (2, .tick 30 true)]

theorem fork_without_gossip : AllSteps (step .sample) Gossiped (init .sample) lossyRun ∧
    ¬ AllStates (step .sample) (NoFork .sample) (init .sample) lossyRun := by
  refine ⟨by decide +kernel, ?_⟩
  intro h
  exact absurd h.last (by decide +kernel)

end Runs

end VelaNetwork.Cluster
