import VelaNetwork.Holdings
import Mathlib.Logic.Function.Basic

namespace VelaNetwork

variable (P : Primitives)

/-- The three validators and the messages they have sent. `produced` is history: who has produced
which block. -/
structure Cluster where
  node : Fin 3 → Node
  sent : List NetworkMessage
  produced : List (Fin 3 × Block)

namespace Cluster

def init : Cluster where
  node i := Node.fresh P i
  sent := []
  produced := []

def step (c : Cluster) (x : Fin 3 × Event) : Cluster where
  node := Function.update c.node x.1 ((c.node x.1).step P x.2)
  sent := c.sent ++ (c.node x.1).sends P x.2
  produced := c.produced ++ ((c.node x.1).produced P x.2).toList.map fun block => (x.1, block)

theorem step_node_self (c : Cluster) (x : Fin 3 × Event) : (c.step P x).node x.1 = (c.node x.1).step P x.2 :=
  Function.update_self _ _ _

theorem step_node_of_ne (c : Cluster) {x : Fin 3 × Event} {i : Fin 3} (h : i ≠ x.1) :
    (c.step P x).node i = c.node i := Function.update_of_ne h _ _

theorem forall_step_node {c : Cluster} {x : Fin 3 × Event} (Q : Fin 3 → Node → Prop)
    (hself : Q x.1 ((c.node x.1).step P x.2)) (hother : ∀ i, i ≠ x.1 → Q i (c.node i)) (i : Fin 3) :
    Q i ((c.step P x).node i) :=
  (Function.forall_update_iff c.node Q).mpr ⟨hself, hother⟩ i

theorem mem_step_produced {c : Cluster} {x : Fin 3 × Event} {p : Fin 3 × Block} :
    p ∈ (c.step P x).produced ↔ p ∈ c.produced ∨ (p.1 = x.1 ∧ (c.node x.1).produced P x.2 = some p.2) := by
  change p ∈ c.produced ++ _ ↔ _
  rw [List.mem_append, List.mem_map]
  apply or_congr_right
  constructor
  · rintro ⟨block, hblock, rfl⟩
    exact ⟨rfl, Option.mem_toList.mp hblock⟩
  · rintro ⟨hi, hblock⟩
    exact ⟨p.2, Option.mem_toList.mpr hblock, by rw [← hi]⟩

structure Led (c : Cluster) : Prop where
  index : ∀ i, (c.node i).validatorIndex = i
  rounds : ∀ p ∈ c.produced, p.2.header.round.toNat % 3 = p.1
  ledger : ∀ i, (c.node i).state.worldState.ledger =
    (WorldState.new.applyBlocks P (c.node i).state.blocks).ledger

variable {P} {c : Cluster} {x : Fin 3 × Event}

theorem produced_round {n : Node} {e : Event} {block : Block} (h : n.produced P e = some block) :
    block.header.round.toNat % 3 = n.validatorIndex := by
  cases e with
  | tick now saved =>
    obtain ⟨hnone, _⟩ | ⟨round, tip, _, hlead, _, hsome, _⟩ := Node.tick_cases P n now saved
    · rw [h] at hnone
      cases hnone
    · obtain rfl := Option.some.inj (h.symm.trans hsome)
      change round.toNat % 3 = _
      have hmod : round % 3 = UInt64.ofNat n.validatorIndex := by simpa [Node.leads] using hlead
      have hindex : (UInt64.ofNat n.validatorIndex).toNat = n.validatorIndex := by
        apply UInt64.toNat_ofNat_of_lt'
        exact Nat.lt_trans n.validatorIndex.isLt (by decide)
      have hnat := congrArg UInt64.toNat hmod
      rwa [UInt64.toNat_mod, hindex] at hnat
  | _ => cases h

theorem Led.step (h : Led P c) (x : Fin 3 × Event) : Led P (c.step P x) := by
  refine ⟨?_, ?_, ?_⟩
  · apply forall_step_node P (fun i n => n.validatorIndex = i) _ (fun i _ => h.index i)
    rw [Node.step_validatorIndex]
    exact h.index x.1
  · intro p hp
    rcases (mem_step_produced P).mp hp with hold | ⟨hi, hprod⟩
    · exact h.rounds p hold
    · rw [produced_round hprod, h.index, hi]
  · apply forall_step_node P
      (fun _ n => n.state.worldState.ledger = (WorldState.new.applyBlocks P n.state.blocks).ledger)
    · exact Node.step_replay (h.ledger x.1) x.2
    · exact fun i _ => h.ledger i

theorem init_led : Led P (init P) :=
  ⟨fun _ => rfl, fun _ hp => absurd hp List.not_mem_nil, fun _ => rfl⟩

end Cluster

end VelaNetwork
