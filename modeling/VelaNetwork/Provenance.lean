import VelaNetwork.Cluster
import VelaNetwork.Sample

namespace VelaNetwork.Cluster

open Library.Runs

variable (P : Primitives)

def ByValidator (c : Cluster) (block : Block) : Prop := ∃ j, (j, block) ∈ c.produced

structure ValidatorsOnly (c : Cluster) : Prop where
  blocks : ∀ i, ∀ b ∈ (c.node i).state.blocks, b.header.height ≠ 0 →
    ∃ j : Fin 3, (j, b) ∈ c.produced ∧ b.header.round.toNat % 3 = j
  ledger : ∀ i, (c.node i).state.worldState.ledger =
    (WorldState.new.applyBlocks P (c.node i).state.blocks).ledger

def ImportsProduced (c : Cluster) (x : Fin 3 × Event) : Prop :=
  ∀ b ∈ (c.node x.1).imported x.2, b.header.height ≠ 0 → c.ByValidator b

variable {P} {c : Cluster} {x : Fin 3 × Event}

theorem ByValidator.step {b : Block} (h : c.ByValidator b) : (c.step P x).ByValidator b := by
  obtain ⟨j, hj⟩ := h
  exact ⟨j, (mem_step_produced P).mpr (Or.inl hj)⟩

def Provenance (P : Primitives) (c : Cluster) : Prop :=
  ∀ i, (c.node i).HoldsOnly P fun b => b.header.height ≠ 0 → c.ByValidator b

theorem Provenance.step (hP : P.BincodeRoundTrips) (h : Provenance P c) (hx : c.ImportsProduced x) :
    Provenance P (c.step P x) := by
  have hmono : ∀ i, (c.node i).HoldsOnly P fun b => b.header.height ≠ 0 → (c.step P x).ByValidator b :=
    fun i => (h i).mono fun _ hb hheight => (hb hheight).step
  apply forall_step_node P (fun _ n => n.HoldsOnly P _) _ (fun i _ => hmono i)
  apply (hmono x.1).step hP (fun hheight => absurd rfl hheight)
  intro b hb hheight
  rcases List.mem_append.mp hb with himport | hprod
  · exact (hx b himport hheight).step
  · exact ⟨x.1, (mem_step_produced P).mpr (Or.inr ⟨rfl, Option.mem_toList.mp hprod⟩)⟩

theorem Provenance.validatorsOnly (h : Provenance P c) (hled : Led P c) : ValidatorsOnly P c := by
  refine ⟨?_, hled.ledger⟩
  intro i b hb hheight
  obtain ⟨j, hj⟩ := (h i).chain b hb hheight
  exact ⟨j, hj, hled.rounds _ hj⟩

theorem importsProduced_of_step (h : ValidatorsOnly P (c.step P x)) : c.ImportsProduced x := by
  intro b himport hheight
  have happended : b ∈ (c.node x.1).appended P x.2 := List.mem_append_left _ himport
  have hrun : x.2.isRestart = false := by
    obtain ⟨i, e⟩ := x
    cases e with
    | restart saved => exact absurd himport List.not_mem_nil
    | _ => rfl
  have hchain : b ∈ ((c.step P x).node x.1).state.blocks := by
    rw [step_node_self, (Node.step_grows P _ hrun).chain]
    exact List.mem_append_right _ happended
  obtain ⟨j, hj, _⟩ := h.blocks x.1 b hchain hheight
  rcases (mem_step_produced P).mp hj with hold | ⟨_, hprod⟩
  · exact ⟨j, hold⟩
  · rw [Node.imported_of_produced P hprod] at himport
    exact absurd himport List.not_mem_nil

theorem validators_only_iff (P : Primitives) (hP : P.BincodeRoundTrips) (xs : List (Fin 3 × Event)) :
    AllStates (step P) (ValidatorsOnly P) (init P) xs ↔ AllSteps (step P) ImportsProduced (init P) xs := by
  have hinit : Provenance P (init P) := fun i => Node.fresh_holdsOnly hP (fun hheight => absurd rfl hheight) i
  constructor
  · generalize init P = c
    intro h
    induction xs generalizing c with
    | nil => trivial
    | cons x xs ih =>
      obtain ⟨_, hrest⟩ := (allStates_cons _ c x xs).mp h
      exact ⟨importsProduced_of_step hrest.first, ih _ hrest⟩
  · intro h
    have hinv : AllStates (step P) (fun c => Provenance P c ∧ Led P c) (init P) xs :=
      invariant (fun _ x hc hx => ⟨hc.1.step hP hx, hc.2.step x⟩) ⟨hinit, init_led⟩ h
    exact hinv.mono fun _ hc => hc.1.validatorsOnly hc.2

section Runs

instance (c : Cluster) (block : Block) : Decidable (c.ByValidator block) :=
  inferInstanceAs (Decidable (∃ j, (j, block) ∈ c.produced))

instance (c : Cluster) (x : Fin 3 × Event) : Decidable (c.ImportsProduced x) :=
  inferInstanceAs (Decidable (∀ b ∈ (c.node x.1).imported x.2, b.header.height ≠ 0 → c.ByValidator b))

noncomputable def ledBlock : Block :=
  (Node.startProducer (Node.fresh .sample 1)).newBlock .sample 10 Block.genesis 1

noncomputable def relayedRun : List (Fin 3 × Event) :=
  [(1, .startProducer), (1, .tick 10 true), (0, .message (.newBlock ledBlock) .insertion fun _ => true),
   (2, .message (.syncResponse [ledBlock]) .insertion fun _ => true), (2, .restart true)]

theorem validators_only_relayedRun :
    AllStates (step .sample) (ValidatorsOnly .sample) (init .sample) relayedRun :=
  (validators_only_iff .sample sample_roundTrips relayedRun).mpr (by decide +kernel)

noncomputable def forgedBlock : Block :=
  Block.new .sample 5 1 Hash.zero
    [Transaction.new 5 (WorldState.treasuryAddr .sample) (sampleAddr 9) 900000000 0 1] Address.zero 7

noncomputable def injectedRun : List (Fin 3 × Event) :=
  [(0, .message (.newBlock forgedBlock) .insertion fun _ => true)]

theorem forged_block_accepted :
    ¬ AllStates (step .sample) (ValidatorsOnly .sample) (init .sample) injectedRun ∧
      (((run (step .sample) (init .sample) injectedRun).node 0).state.worldState.balance (sampleAddr 9) =
        900000000) := by
  refine ⟨?_, by decide +kernel⟩
  intro h
  have hblock : forgedBlock ∈ ((run (step .sample) (init .sample) injectedRun).node 0).state.blocks := by
    decide +kernel
  obtain ⟨j, hj, _⟩ := h.last.blocks 0 forgedBlock hblock (by decide +kernel)
  have hnone : (run (step .sample) (init .sample) injectedRun).produced = [] := by decide +kernel
  rw [hnone] at hj
  exact absurd hj List.not_mem_nil

end Runs

end VelaNetwork.Cluster
