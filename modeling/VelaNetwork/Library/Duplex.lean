import VelaNetwork.Library.Runs
import Mathlib.Tactic.Common

namespace Library.Duplex

open Library.Runs

/-- Two processes and the two bounded channels between them. The first takes messages from outside and
forwards them, the second answers them; a process that has something in hand does nothing else before it
has handed it on. The counters are history. -/
structure Link (σ ι ο : Type*) where
  state : σ
  inbound : List ι
  outbound : List ο
  incoming : Option ι
  answer : Option ο
  taken : ℕ
  queued : ℕ
  published : ℕ
  absorbed : ℕ

inductive Move (σ ι ο χ : Type*) where
  | take (message : ι)
  | forward
  | publish
  | receive (choice : χ)
  | reply
  | queue (message : ο)
  | other (state : σ)

namespace Link

variable {σ ι ο χ : Type*}

def idle (state : σ) : Link σ ι ο where
  state := state
  inbound := []
  outbound := []
  incoming := none
  answer := none
  taken := 0
  queued := 0
  published := 0
  absorbed := 0

variable (capacity : ℕ) (handle : χ → σ → ι → σ × Option ο)

/-- A move that is not possible changes nothing. -/
def step (l : Link σ ι ο) : Move σ ι ο χ → Link σ ι ο
  | .take message =>
    match l.incoming with
    | none => { l with incoming := some message, taken := l.taken + 1 }
    | some _ => l
  | .forward =>
    match l.incoming with
    | some message =>
      if l.inbound.length < capacity then { l with inbound := l.inbound ++ [message], incoming := none }
      else l
    | none => l
  | .publish =>
    match l.incoming, l.outbound with
    | none, _ :: rest => { l with outbound := rest, published := l.published + 1 }
    | _, _ => l
  | .receive choice =>
    match l.answer, l.inbound with
    | none, message :: rest =>
      let (state, answer) := handle choice l.state message
      { l with
        state, answer
        inbound := rest
        absorbed := if answer.isSome then l.absorbed else l.absorbed + 1 }
    | _, _ => l
  | .reply =>
    match l.answer with
    | some message =>
      if l.outbound.length < capacity then { l with outbound := l.outbound ++ [message], answer := none }
      else l
    | none => l
  | .queue message =>
    if l.outbound.length < capacity then
      { l with outbound := l.outbound ++ [message], queued := l.queued + 1 }
    else l
  | .other state => { l with state }

structure Deadlocked (l : Link σ ι ο) : Prop where
  incoming : l.incoming.isSome = true
  inbound : capacity ≤ l.inbound.length
  answer : l.answer.isSome = true
  outbound : capacity ≤ l.outbound.length

def inFlight (l : Link σ ι ο) : ℕ :=
  l.inbound.length + l.outbound.length + l.incoming.toList.length + l.answer.toList.length

structure Balanced (l : Link σ ι ο) : Prop where
  inbound : l.inbound.length ≤ capacity
  outbound : l.outbound.length ≤ capacity
  flow : l.taken + l.queued = l.published + l.absorbed + l.inFlight

def Outrun (l : Link σ ι ο) : Prop := l.published + l.absorbed + (2 * capacity + 2) ≤ l.taken + l.queued

variable {capacity handle} {l : Link σ ι ο}

theorem idle_balanced (state : σ) : (idle state : Link σ ι ο).Balanced capacity :=
  ⟨Nat.zero_le _, Nat.zero_le _, rfl⟩

theorem length_toList_le (a : Option ι) : a.toList.length ≤ 1 := by
  cases a <;> simp

theorem isSome_iff_length (a : Option ι) : a.isSome = true ↔ a.toList.length = 1 := by
  cases a <;> simp

theorem Balanced.deadlocked_iff (h : l.Balanced capacity) : l.Deadlocked capacity ↔ l.Outrun capacity := by
  have hin := length_toList_le l.incoming
  have hanswer := length_toList_le l.answer
  obtain ⟨hinbound, houtbound, hflow⟩ := h
  unfold Outrun
  unfold inFlight at hflow
  constructor
  · rintro ⟨hincoming, hfull, hhand, hfull'⟩
    rw [isSome_iff_length] at hincoming hhand
    omega
  · intro hout
    refine ⟨(isSome_iff_length _).mpr ?_, ?_, (isSome_iff_length _).mpr ?_, ?_⟩ <;> omega

theorem Balanced.step (h : l.Balanced capacity) (m : Move σ ι ο χ) :
    (l.step capacity handle m).Balanced capacity := by
  obtain ⟨hinbound, houtbound, hflow⟩ := h
  unfold inFlight at hflow
  cases m with
  | take message =>
    unfold Link.step
    dsimp only
    split
    · rename_i hhand
      refine ⟨hinbound, houtbound, ?_⟩
      simp only [hhand, inFlight, Option.toList_some, Option.toList_none, List.length_singleton,
        List.length_nil] at *
      omega
    · exact ⟨hinbound, houtbound, hflow⟩
  | forward =>
    unfold Link.step
    dsimp only
    split
    · rename_i message hhand
      split
      · rename_i hroom
        refine ⟨?_, houtbound, ?_⟩
        · simp only [List.length_append, List.length_singleton]
          omega
        · simp only [hhand, inFlight, Option.toList_some, Option.toList_none, List.length_append,
            List.length_singleton, List.length_nil] at *
          omega
      · exact ⟨hinbound, houtbound, hflow⟩
    · exact ⟨hinbound, houtbound, hflow⟩
  | publish =>
    unfold Link.step
    dsimp only
    split
    · rename_i message rest hhand hchannel
      rw [hchannel] at houtbound hflow
      simp only [List.length_cons] at houtbound hflow
      refine ⟨hinbound, ?_, ?_⟩
      · change rest.length ≤ capacity
        omega
      · simp only [inFlight]
        omega
    · exact ⟨hinbound, houtbound, hflow⟩
  | receive choice =>
    unfold Link.step
    dsimp only
    split
    · rename_i message rest hhand hchannel
      rw [hchannel] at hinbound hflow
      simp only [List.length_cons, hhand, Option.toList_none, List.length_nil] at hinbound hflow
      refine ⟨?_, houtbound, ?_⟩
      · change rest.length ≤ capacity
        omega
      · simp only [inFlight]
        cases (handle choice l.state message).2 with
        | none =>
          simp only [Option.isSome_none, Bool.false_eq_true, if_false, Option.toList_none, List.length_nil]
          omega
        | some answer =>
          simp only [Option.isSome_some, if_true, Option.toList_some, List.length_singleton]
          omega
    · exact ⟨hinbound, houtbound, hflow⟩
  | reply =>
    unfold Link.step
    dsimp only
    split
    · rename_i message hhand
      split
      · rename_i hroom
        refine ⟨hinbound, ?_, ?_⟩
        · simp only [List.length_append, List.length_singleton]
          omega
        · simp only [hhand, inFlight, Option.toList_some, Option.toList_none, List.length_append,
            List.length_singleton, List.length_nil] at *
          omega
      · exact ⟨hinbound, houtbound, hflow⟩
    · exact ⟨hinbound, houtbound, hflow⟩
  | queue message =>
    unfold Link.step
    dsimp only
    split
    · rename_i hroom
      refine ⟨hinbound, ?_, ?_⟩
      · simp only [List.length_append, List.length_singleton]
        omega
      · simp only [inFlight, List.length_append, List.length_singleton] at *
        omega
    · exact ⟨hinbound, houtbound, hflow⟩
  | other state => exact ⟨hinbound, houtbound, hflow⟩

theorem Deadlocked.step (h : l.Deadlocked capacity) (m : Move σ ι ο χ) :
    (l.step capacity handle m).Deadlocked capacity := by
  obtain ⟨message, hincoming⟩ := Option.isSome_iff_exists.mp h.incoming
  obtain ⟨answer, hanswer⟩ := Option.isSome_iff_exists.mp h.answer
  cases m with
  | take message =>
    rw [Link.step, hincoming]
    exact h
  | forward =>
    rw [Link.step, hincoming]
    dsimp only
    rw [if_neg (Nat.not_lt.mpr h.inbound)]
    exact h
  | publish =>
    rw [Link.step, hincoming]
    exact h
  | receive choice =>
    rw [Link.step, hanswer]
    exact h
  | reply =>
    rw [Link.step, hanswer]
    dsimp only
    rw [if_neg (Nat.not_lt.mpr h.outbound)]
    exact h
  | queue message =>
    rw [Link.step, if_neg (Nat.not_lt.mpr h.outbound)]
    exact h
  | other state => exact ⟨h.incoming, h.inbound, h.answer, h.outbound⟩

theorem Deadlocked.run (h : l.Deadlocked capacity) (ms : List (Move σ ι ο χ)) :
    (Runs.run (Link.step capacity handle) l ms).Deadlocked capacity := by
  induction ms generalizing l with
  | nil => exact h
  | cons m ms ih => exact ih (h.step m)

theorem Balanced.allStates_iff (h : l.Balanced capacity) (ms : List (Move σ ι ο χ)) :
    AllStates (Link.step capacity handle) (fun l => ¬ l.Deadlocked capacity) l ms ↔
      AllStates (Link.step capacity handle) (fun l => ¬ l.Outrun capacity) l ms :=
  allStates_congr (fun _ m h => h.step m) (fun _ h => not_congr h.deadlocked_iff) h

end Link

end Library.Duplex
