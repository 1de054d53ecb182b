import VelaNetwork.Channels
import VelaNetwork.SyncRequests
import VelaNetwork.Library.Conduits

namespace VelaNetwork

open Library.Duplex
open Library.Flows
open Library.Runs

def Event.received : Event → List NetworkMessage
  | .message msg _ _ => [msg]
  | _ => []

namespace Node

def answering (P : Primitives) (n : Node) (e : Event) : List NetworkMessage :=
  if e.isLocal then [] else n.sends P e

/-- A move of one of the tasks of `main`; those beside the two tasks at the channels take the steps of the
node that no message causes. -/
abbrev TaskMove := Library.Duplex.Move Event NetworkMessage NetworkMessage (IterOrder × (ℕ → Bool))

namespace Channels

variable (P : Primitives)

def move (c : Channels) : TaskMove → ChannelMove
  | .take msg => .take msg
  | .forward => .forward
  | .publish => .publish
  | .receive choice => .receive choice
  | .reply => .reply
  | .queue msg => .queue msg
  | .other e => .other (if e.isLocal then c.state.step P e else c.state)

def act (c : Channels) (m : TaskMove) : Channels := c.step P (c.move P m)

def events (c : Channels) : TaskMove → List Event
  | .receive choice => (Link.receives c (.receive choice : ChannelMove)).map
      fun msg => .message msg choice.1 choice.2
  | .other e => if e.isLocal then [e] else []
  | _ => []

def takes (c : Channels) (m : TaskMove) : List NetworkMessage := Link.takes c (c.move P m)

def replies (c : Channels) (m : TaskMove) : List NetworkMessage :=
  Link.replies CHANNEL_CAPACITY c (c.move P m)

def enqueues (c : Channels) (m : TaskMove) : List NetworkMessage :=
  Link.enqueues CHANNEL_CAPACITY c (c.move P m)

def publishes (c : Channels) (m : TaskMove) : List NetworkMessage := Link.publishes c (c.move P m)

structure Follows (n : Node) (ms : List TaskMove) (c : Channels) (es : List Event) : Prop where
  state : c.state = run (Node.step P) n es
  taken : collect (act P) (takes P) (Link.idle n) ms =
    es.flatMap Event.received ++ (c.inbound ++ c.incoming.toList)
  answered : collect (Node.step P) (answering P) n es =
    collect (act P) (replies P) (Link.idle n) ms ++ c.answer.toList
  published : collect (act P) (enqueues P) (Link.idle n) ms =
    collect (act P) (publishes P) (Link.idle n) ms ++ c.outbound
  bounded : c.inbound.length ≤ CHANNEL_CAPACITY ∧ c.outbound.length ≤ CHANNEL_CAPACITY

variable {P} {c : Channels}

theorem act_state (m : TaskMove) : (c.act P m).state = run (Node.step P) c.state (c.events m) := by
  cases m with
  | take msg =>
    obtain ⟨_, _, hstep⟩ := Link.take_frame CHANNEL_CAPACITY (respond P) c msg
    exact (congrArg Link.state hstep).trans rfl
  | forward =>
    obtain ⟨_, _, hstep⟩ := Link.forward_frame CHANNEL_CAPACITY (respond P) c
    exact (congrArg Link.state hstep).trans rfl
  | publish =>
    obtain ⟨_, _, hstep⟩ := Link.publish_frame CHANNEL_CAPACITY (respond P) c
    exact (congrArg Link.state hstep).trans rfl
  | receive choice =>
    unfold events
    dsimp only
    obtain ⟨hnone, hstep⟩ | ⟨message, rest, _, _, hone, hstep⟩ :=
      Link.receive_cases CHANNEL_CAPACITY (respond P) c choice
    · rw [hnone]
      exact congrArg Link.state hstep
    · rw [hone]
      exact congrArg Link.state hstep
  | reply =>
    obtain ⟨_, _, hstep⟩ := Link.reply_frame CHANNEL_CAPACITY (respond P) c
    exact (congrArg Link.state hstep).trans rfl
  | queue msg =>
    obtain ⟨_, _, hstep⟩ := Link.queue_frame CHANNEL_CAPACITY (respond P) c msg
    exact (congrArg Link.state hstep).trans rfl
  | other e =>
    change (if e.isLocal then c.state.step P e else c.state) =
      run (Node.step P) c.state (if e.isLocal then [e] else [])
    split <;> rfl

theorem received_events (m : TaskMove) :
    (c.events m).flatMap Event.received = Link.receives c (c.move P m) := by
  cases m with
  | receive choice =>
    change ((Link.receives c (.receive choice : ChannelMove)).map _).flatMap Event.received =
      Link.receives c (.receive choice)
    rw [List.flatMap_map]
    exact List.flatMap_singleton' _
  | other e =>
    change (if e.isLocal then [e] else []).flatMap Event.received = []
    split
    · rename_i he
      cases e with
      | message msg order saves => cases he
      | _ => rfl
    · rfl
  | _ => rfl

theorem answering_events (m : TaskMove) :
    collect (Node.step P) (answering P) c.state (c.events m) = Link.answers (respond P) c (c.move P m) := by
  cases m with
  | receive choice =>
    change collect _ _ _ ((Link.receives c (.receive choice : ChannelMove)).map _) =
      (Link.receives c (.receive choice : ChannelMove)).flatMap _
    obtain ⟨hnone, _⟩ | ⟨message, rest, _, _, hone, _⟩ :=
      Link.receive_cases CHANNEL_CAPACITY (respond P) c choice
    · rw [hnone]
      rfl
    · rw [hone]
      change (c.state.handleMessage P choice.1 choice.2 message).2 ++ [] =
        (c.state.respond P choice message).2.toList ++ []
      rw [respond_sends]
  | other e =>
    change collect _ _ _ (if e.isLocal then [e] else []) = []
    split
    · rename_i he
      change answering P c.state e ++ [] = []
      rw [answering, if_pos he]
      rfl
    · rfl
  | _ => rfl

theorem act_inbound (c : Channels) (m : TaskMove) : (c.inbound ++ c.incoming.toList) ++ takes P c m =
    Link.receives c (c.move P m) ++ ((c.act P m).inbound ++ (c.act P m).incoming.toList) :=
      Link.step_inbound c (c.move P m)

theorem act_answer (c : Channels) (m : TaskMove) :
    c.answer.toList ++ Link.answers (respond P) c (c.move P m) =
      replies P c m ++ (c.act P m).answer.toList := Link.step_answer c (c.move P m)

theorem act_outbound (c : Channels) (m : TaskMove) :
    c.outbound ++ enqueues P c m = publishes P c m ++ (c.act P m).outbound :=
  Link.step_outbound c (c.move P m)

theorem act_bounded (n : Node) (ms : List TaskMove) :
    (run (act P) (Link.idle n) ms).inbound.length ≤ CHANNEL_CAPACITY ∧
      (run (act P) (Link.idle n) ms).outbound.length ≤ CHANNEL_CAPACITY := by
  have hstep : ∀ (c : Channels) m, Link.Balanced CHANNEL_CAPACITY c → True →
      Link.Balanced CHANNEL_CAPACITY (c.act P m) := by
    intro c m h _
    change Link.Balanced CHANNEL_CAPACITY (Link.step CHANNEL_CAPACITY (respond P) c (c.move P m))
    exact h.step _
  have hbalanced : AllStates (act P) (fun c => Link.Balanced CHANNEL_CAPACITY c) (Link.idle n) ms :=
    invariant hstep (Link.idle_balanced n) (allSteps_of_forall fun _ _ => trivial)
  exact ⟨hbalanced.last.inbound, hbalanced.last.outbound⟩

theorem tasks_follow_node (P : Primitives) (n : Node) (ms : List TaskMove) :
    Follows P n ms (run (act P) (Link.idle n) ms) (collect (act P) events (Link.idle n) ms) := by
  have hstate : ∀ (c : Channels) n' m, c.state = n' →
      (c.act P m).state = run (Node.step P) n' (c.events m) := by
    rintro c _ m rfl
    exact act_state m
  have hflow : ∀ (c : Channels) n' m, c.state = n' →
      collect (Node.step P) (answering P) n' (c.events m) = Link.answers (respond P) c (c.move P m) := by
    rintro c _ m rfl
    exact answering_events m
  have hreceived : ∀ (c : Channels) n' m, c.state = n' →
      collect (Node.step P) (fun _ e => e.received) n' (c.events m) = Link.receives c (c.move P m) := by
    rintro c _ m rfl
    rw [collect_events]
    exact received_events m
  have hidle : (Link.idle n : Channels).state = n := rfl
  have hrefines : AllSteps (Node.step P) (fun _ _ => True) n (collect (act P) events (Link.idle n) ms) ∧
      (run (act P) (Link.idle n) ms).state = run (Node.step P) n (collect (act P) events (Link.idle n) ms) :=
    refines_run (fun c n' m h => ⟨allSteps_of_forall fun _ _ => trivial, hstate c n' m h⟩) hidle ms
  constructor
  · exact hrefines.2
  · rw [← collect_events Event.received n, collect_refines hstate hreceived hidle]
    exact collect_queue act_inbound (Link.idle n) ms
  · rw [collect_refines hstate hflow hidle]
    exact collect_queue act_answer (Link.idle n) ms
  · exact collect_queue act_outbound (Link.idle n) ms
  · exact act_bounded n ms

end Channels

end Node

end VelaNetwork
