import VelaNetwork.Library.Duplex
import VelaNetwork.Library.Flows

namespace Library.Duplex.Link

open Library.Flows

variable {σ ι ο χ : Type*} (capacity : ℕ) (handle : χ → σ → ι → σ × Option ο)

def takes (l : Link σ ι ο) : Move σ ι ο χ → List ι
  | .take message => if l.incoming.isNone then [message] else []
  | _ => []

def receives (l : Link σ ι ο) : Move σ ι ο χ → List ι
  | .receive _ => if l.answer.isNone then l.inbound.head?.toList else []
  | _ => []

def answers (l : Link σ ι ο) : Move σ ι ο χ → List ο
  | .receive choice => (l.receives (.receive choice : Move σ ι ο χ)).flatMap
      fun message => (handle choice l.state message).2.toList
  | _ => []

def replies (l : Link σ ι ο) : Move σ ι ο χ → List ο
  | .reply => if l.outbound.length < capacity then l.answer.toList else []
  | _ => []

def enqueues (l : Link σ ι ο) : Move σ ι ο χ → List ο
  | .queue message => if l.outbound.length < capacity then [message] else []
  | m => l.replies capacity m

def publishes (l : Link σ ι ο) : Move σ ι ο χ → List ο
  | .publish => if l.incoming.isNone then l.outbound.head?.toList else []
  | _ => []

variable (l : Link σ ι ο) (m : Move σ ι ο χ)

section Frames

theorem receive_cases (choice : χ) :
    l.receives (.receive choice : Move σ ι ο χ) = [] ∧ l.step capacity handle (.receive choice) = l ∨
      ∃ message rest, l.answer = none ∧ l.inbound = message :: rest ∧
        l.receives (.receive choice : Move σ ι ο χ) = [message] ∧
        l.step capacity handle (.receive choice) = { l with
          state := (handle choice l.state message).1
          answer := (handle choice l.state message).2
          inbound := rest
          absorbed := if (handle choice l.state message).2.isSome then l.absorbed else l.absorbed + 1 } := by
  unfold receives step
  dsimp only
  cases hanswer : l.answer with
  | some answer => exact Or.inl ⟨rfl, rfl⟩
  | none =>
    cases hinbound : l.inbound with
    | nil => exact Or.inl ⟨rfl, rfl⟩
    | cons message rest => exact Or.inr ⟨message, rest, rfl, rfl, rfl, rfl⟩

theorem take_frame (message : ι) :
    ∃ incoming taken, l.step capacity handle (.take message) = { l with incoming, taken } := by
  unfold step
  dsimp only
  split
  · exact ⟨_, _, rfl⟩
  · exact ⟨l.incoming, l.taken, rfl⟩

theorem forward_frame :
    ∃ inbound incoming, l.step capacity handle .forward = { l with inbound, incoming } := by
  unfold step
  dsimp only
  split
  · split
    · exact ⟨_, _, rfl⟩
    · exact ⟨l.inbound, l.incoming, rfl⟩
  · exact ⟨l.inbound, l.incoming, rfl⟩

theorem publish_frame :
    ∃ outbound published, l.step capacity handle .publish = { l with outbound, published } := by
  unfold step
  dsimp only
  split
  · exact ⟨_, _, rfl⟩
  · exact ⟨l.outbound, l.published, rfl⟩

theorem reply_frame : ∃ outbound answer, l.step capacity handle .reply = { l with outbound, answer } := by
  unfold step
  dsimp only
  split
  · split
    · exact ⟨_, _, rfl⟩
    · exact ⟨l.outbound, l.answer, rfl⟩
  · exact ⟨l.outbound, l.answer, rfl⟩

theorem queue_frame (message : ο) :
    ∃ outbound queued, l.step capacity handle (.queue message) = { l with outbound, queued } := by
  unfold step
  dsimp only
  split
  · exact ⟨_, _, rfl⟩
  · exact ⟨l.outbound, l.queued, rfl⟩

end Frames

variable {capacity handle}

theorem step_inbound : (l.inbound ++ l.incoming.toList) ++ l.takes m =
    l.receives m ++ ((l.step capacity handle m).inbound ++ (l.step capacity handle m).incoming.toList) := by
  cases m with
  | take message =>
    unfold takes receives step
    dsimp only
    cases hincoming : l.incoming with
    | none => simp
    | some waiting => simp [hincoming]
  | forward =>
    unfold takes receives step
    dsimp only
    cases hincoming : l.incoming with
    | none => simp [hincoming]
    | some message =>
      dsimp only
      split
      · simp
      · simp [hincoming]
  | receive choice =>
    obtain ⟨hnone, hstep⟩ | ⟨message, rest, _, hinbound, hone, hstep⟩ :=
      receive_cases capacity handle l choice
    · rw [hnone, hstep]
      exact List.append_nil _
    · rw [hone, hstep, hinbound]
      exact List.append_nil _
  | publish =>
    obtain ⟨_, _, hstep⟩ := publish_frame capacity handle l
    rw [hstep]
    exact List.append_nil _
  | reply =>
    obtain ⟨_, _, hstep⟩ := reply_frame capacity handle l
    rw [hstep]
    exact List.append_nil _
  | queue message =>
    obtain ⟨_, _, hstep⟩ := queue_frame capacity handle l message
    rw [hstep]
    exact List.append_nil _
  | other state => exact List.append_nil _

theorem step_answer :
    l.answer.toList ++ l.answers handle m =
      l.replies capacity m ++ (l.step capacity handle m).answer.toList := by
  cases m with
  | receive choice =>
    unfold answers
    dsimp only
    obtain ⟨hnone, hstep⟩ | ⟨message, rest, hanswer, _, hone, hstep⟩ := receive_cases capacity handle l choice
    · rw [hnone, hstep]
      exact List.append_nil _
    · rw [hone, hstep, hanswer]
      exact List.append_nil _
  | reply =>
    unfold answers replies step
    dsimp only
    cases hanswer : l.answer with
    | none => simp [hanswer]
    | some message =>
      dsimp only
      split
      · rfl
      · simp [hanswer]
  | take message =>
    obtain ⟨_, _, hstep⟩ := take_frame capacity handle l message
    rw [hstep]
    exact List.append_nil _
  | forward =>
    obtain ⟨_, _, hstep⟩ := forward_frame capacity handle l
    rw [hstep]
    exact List.append_nil _
  | publish =>
    obtain ⟨_, _, hstep⟩ := publish_frame capacity handle l
    rw [hstep]
    exact List.append_nil _
  | queue message =>
    obtain ⟨_, _, hstep⟩ := queue_frame capacity handle l message
    rw [hstep]
    exact List.append_nil _
  | other state => exact List.append_nil _

theorem step_outbound :
    l.outbound ++ l.enqueues capacity m = l.publishes m ++ (l.step capacity handle m).outbound := by
  cases m with
  | publish =>
    unfold enqueues replies publishes step
    dsimp only
    cases hincoming : l.incoming with
    | some message => exact List.append_nil _
    | none =>
      cases houtbound : l.outbound with
      | nil => simp [houtbound]
      | cons message rest => exact List.append_nil _
  | reply =>
    unfold enqueues replies publishes step
    dsimp only
    cases hanswer : l.answer with
    | none => simp
    | some message =>
      dsimp only
      split
      · rfl
      · exact List.append_nil _
  | queue message =>
    unfold enqueues publishes step
    dsimp only
    split
    · rfl
    · exact List.append_nil _
  | take message =>
    obtain ⟨_, _, hstep⟩ := take_frame capacity handle l message
    rw [hstep]
    exact List.append_nil _
  | forward =>
    obtain ⟨_, _, hstep⟩ := forward_frame capacity handle l
    rw [hstep]
    exact List.append_nil _
  | receive choice =>
    obtain ⟨_, hstep⟩ | ⟨message, rest, _, _, _, hstep⟩ := receive_cases capacity handle l choice
    · rw [hstep]
      exact List.append_nil _
    · rw [hstep]
      exact List.append_nil _
  | other state => exact List.append_nil _

end Library.Duplex.Link
