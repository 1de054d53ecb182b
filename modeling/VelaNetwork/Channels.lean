import VelaNetwork.Node
import VelaNetwork.NodeSteps
import VelaNetwork.Sample
import VelaNetwork.Library.Duplex

namespace VelaNetwork

open Library.Runs Library.Duplex

variable (P : Primitives)

def CHANNEL_CAPACITY : ℕ := 256

namespace Node

/-- One turn of the incoming-message task: what it then sends to `tx_out` is at most one message. -/
def respond (choice : IterOrder × (ℕ → Bool)) (n : Node) (msg : NetworkMessage) :
    Node × Option NetworkMessage :=
  ((n.handleMessage P choice.1 choice.2 msg).1, (n.handleMessage P choice.1 choice.2 msg).2.head?)

theorem respond_sends (choice : IterOrder × (ℕ → Bool)) (n : Node) (msg : NetworkMessage) :
    (n.handleMessage P choice.1 choice.2 msg).2 = (n.respond P choice msg).2.toList := by
  have hone : ∀ messages : List NetworkMessage, messages.length ≤ 1 → messages = messages.head?.toList := by
    intro messages hlength
    match messages, hlength with
    | [], _ => rfl
    | [_], _ => rfl
  apply hone
  cases msg with
  | newBlock block =>
    change (n.handleNewBlock P (choice.2 0) block).2.length ≤ 1
    unfold handleNewBlock
    split <;> simp
  | newTransaction tx => exact Nat.zero_le 1
  | consensusVote vote =>
    change (n.handleConsensusVote P choice.1 vote).2.length ≤ 1
    unfold handleConsensusVote
    split <;> simp
  | consensusPropose block =>
    change (n.handleConsensusPropose P block).2.length ≤ 1
    unfold handleConsensusPropose
    split <;> simp
  | syncRequest fromHeight =>
    change (n.handleSyncRequest fromHeight).2.length ≤ 1
    unfold handleSyncRequest
    dsimp only
    split <;> simp
  | syncResponse blocks => exact Nat.zero_le 1

abbrev Channels := Link Node NetworkMessage NetworkMessage

abbrev ChannelMove := Move Node NetworkMessage NetworkMessage (IterOrder × (ℕ → Bool))

namespace Channels

def step (c : Channels) (m : ChannelMove) : Channels := Link.step CHANNEL_CAPACITY (respond P) c m

def Deadlocked (c : Channels) : Prop := Link.Deadlocked CHANNEL_CAPACITY c

/-- What has been taken from gossip or sent by the other tasks is 514 messages ahead of what has been
published or handled without an answer. -/
def Outrun (c : Channels) : Prop := c.published + c.absorbed + 514 ≤ c.taken + c.queued

theorem no_deadlock_iff (P : Primitives) (n : Node) (ms : List ChannelMove) :
    AllStates (step P) (fun c => ¬ Deadlocked c) (Link.idle n) ms ↔
      AllStates (step P) (fun c => ¬ Outrun c) (Link.idle n) ms := by
  have hbalanced : Link.Balanced CHANNEL_CAPACITY (Link.idle n : Channels) := Link.idle_balanced n
  change AllStates (Link.step CHANNEL_CAPACITY (respond P))
    (fun c => ¬ Link.Deadlocked CHANNEL_CAPACITY c) _ ms ↔
    AllStates (Link.step CHANNEL_CAPACITY (respond P)) (fun c => ¬ Link.Outrun CHANNEL_CAPACITY c) _ ms
  exact hbalanced.allStates_iff ms

section Runs

def rounds (k : ℕ) (moves : List ChannelMove) : List ChannelMove := (List.replicate k moves).flatten

noncomputable def jam : List ChannelMove :=
  let arrival := Move.take (.consensusPropose Block.genesis)
  let handled := Move.receive (IterOrder.insertion, fun _ => true)
  rounds 256 [arrival, .forward, handled, .reply] ++ [arrival, .forward, handled] ++
    rounds 256 [arrival, .forward] ++ [arrival]

instance (c : Channels) : Decidable (Deadlocked c) :=
  decidable_of_iff (c.incoming.isSome = true ∧ CHANNEL_CAPACITY ≤ c.inbound.length ∧ c.answer.isSome = true ∧
    CHANNEL_CAPACITY ≤ c.outbound.length)
      ⟨fun h => ⟨h.1, h.2.1, h.2.2.1, h.2.2.2⟩, fun h => ⟨h.1, h.2, h.3, h.4⟩⟩

theorem jam_deadlocks :
    ¬ AllStates (step .sample) (fun c => ¬ Deadlocked c) (Link.idle (fresh .sample 0)) jam ∧
      ∀ more, Deadlocked (run (step .sample) (Link.idle (fresh .sample 0)) (jam ++ more)) := by
  have hjam : Deadlocked (run (step .sample) (Link.idle (fresh .sample 0)) jam) := by decide +kernel
  refine ⟨fun h => h.last hjam, fun more => ?_⟩
  rw [run_append]
  change Link.Deadlocked CHANNEL_CAPACITY (run (Link.step CHANNEL_CAPACITY (respond .sample)) _ more)
  exact hjam.run more

end Runs

end Channels

end Node

end VelaNetwork
