import VelaNetwork.HotStuffSteps
import VelaNetwork.Library.Runs
import Mathlib.Data.Fintype.Card

namespace VelaNetwork

open Library.Runs

def HotStuffNode.handle (P : Primitives) (order : IterOrder) (n : HotStuffNode) :
    HotStuffMsg → HotStuffNode × Option HotStuffMsg
  | .propose block highQc => n.handlePropose P block highQc
  | .vote vote => n.handleVote P order vote
  | .newView round highQc => n.handleNewView P round highQc
  | .timeout _ _ => (n, none)

/-- The engines of `n` validators and the messages between them. `voted` and `seen` are history: who
signed a vote for which block, and the blocks that were ever pending somewhere. -/
structure EngineNet (n : ℕ) where
  node : Fin n → HotStuffNode
  sent : List HotStuffMsg
  voted : List (Fin n × Block)
  seen : List Block

inductive EngineEvent (n : ℕ) where
  | propose (i : Fin n) (now : Int64) (transactions : List Transaction)
  | deliver (i : Fin n) (msg : HotStuffMsg) (order : IterOrder)

variable {n : ℕ} (P : Primitives) (keys : Fin n → SigningKey) (byz : Finset (Fin n))

def addr (i : Fin n) : Address := Address.fromPubkey P (keys i)

def keyValidators : List Validator :=
  (List.finRange n).map fun i => { address := addr P keys i, stake := 1000, index := i }

def EngineNet.init : EngineNet n where
  node i := HotStuffNode.new (addr P keys i) (keys i) (ConsensusConfig.new (keyValidators P keys))
  sent := []
  voted := []
  seen := []

def votedBlock (r : HotStuffNode × Option HotStuffMsg) : List Block :=
  match r.2 with
  | some (.vote _) => r.1.pendingBlock.toList
  | _ => []

def EngineNet.update (net : EngineNet n) (i : Fin n) (r :
    HotStuffNode × Option HotStuffMsg) : EngineNet n where
  node := Function.update net.node i r.1
  sent := net.sent ++ r.2.toList
  voted := net.voted ++ (votedBlock r).map fun block => (i, block)
  seen := net.seen ++ r.1.pendingBlock.toList

def EngineNet.step (net : EngineNet n) : EngineEvent n → EngineNet n
  | .propose i now transactions => net.update i ((net.node i).propose P now transactions)
  | .deliver i msg order => net.update i ((net.node i).handle P order msg)

def SameBallot (vote : Vote) : HotStuffMsg → Prop
  | .vote sent => sent.voter = vote.voter ∧ sent.blockHash = vote.blockHash ∧ sent.round = vote.round
  | _ => False

/-- What Byzantine validators can send: anything, but no vote of an honest validator that it has not
signed itself for that block and round. -/
def Forgeable (net : EngineNet n) : HotStuffMsg → Prop
  | .vote vote => vote.verify P = true → ∀ j ∉ byz, vote.voter = addr P keys j →
      ∃ msg ∈ net.sent, SameBallot vote msg
  | _ => True

/-- Honest validators propose when they lead. A message that was sent may arrive late, twice or never;
any other message takes a Byzantine sender. -/
def Allowed (net : EngineNet n) : EngineEvent n → Prop
  | .propose i _ _ => i ∉ byz ∧ (net.node i).isLeader = true
  | .deliver i msg _ => i ∉ byz ∧ (msg ∈ net.sent ∨ (byz.Nonempty ∧ Forgeable P keys byz net msg))

def EngineNet.Agreement (net : EngineNet n) : Prop :=
  ∀ i ∉ byz, ∀ j ∉ byz, ∀ (k : ℕ) (b b' : Block), (net.node i).committedBlocks[k]? = some b →
    (net.node j).committedBlocks[k]? = some b' → b.hash P = b'.hash P

def HotStuffNode.VotesFor (n : HotStuffNode) (block : Block) : Prop :=
  ∀ vote ∈ n.allVotes, vote.blockHash = block.hash P

def EngineNet.FreshVote (net : EngineNet n) (i : Fin n) (block : Block) : Prop :=
  ∀ v ∈ net.voted, v.1 = i → v.2.header.height = block.header.height → v.2.hash P = block.hash P

/-- The checks the handlers leave out, as conditions on a message and the state that it meets. -/
def Checked (net : EngineNet n) : EngineEvent n → Prop
  | .propose i now transactions => (net.node i).VotesFor P ((net.node i).proposal P now transactions)
  | .deliver i (.propose block _) _ => (net.node i).extendsLock block = true →
      block.header.height = UInt64.ofNat (net.node i).committedBlocks.length ∧
        (net.node i).VotesFor P block ∧ net.FreshVote P i block
  | .deliver i (.vote vote) _ => vote.verify P = true → (net.node i).phase ≠ .decide →
      (∃ j, vote.voter = addr P keys j) ∧ ∃ block ∈ (net.node i).pendingBlock, vote.blockHash = block.hash P
  | .deliver i (.newView round _) _ => ¬ (net.node i).round < round →
      ∀ block ∈ (net.node i).pendingBlock, net.FreshVote P i block
  | .deliver _ (.timeout _ _) _ => True

instance (vote : Vote) (msg : HotStuffMsg) : Decidable (SameBallot vote msg) :=
  match msg with
  | .vote sent =>
      inferInstanceAs (Decidable (sent.voter = vote.voter ∧ sent.blockHash = vote.blockHash ∧ _ = _))
  | .propose _ _ => inferInstanceAs (Decidable False)
  | .newView _ _ => inferInstanceAs (Decidable False)
  | .timeout _ _ => inferInstanceAs (Decidable False)

instance (net : EngineNet n) (msg : HotStuffMsg) : Decidable (Forgeable P keys byz net msg) :=
  match msg with
  | .vote vote =>
      inferInstanceAs
        (Decidable (vote.verify P = true → ∀ j ∉ byz, _ → ∃ msg ∈ net.sent, SameBallot vote msg))
  | .propose _ _ => inferInstanceAs (Decidable True)
  | .newView _ _ => inferInstanceAs (Decidable True)
  | .timeout _ _ => inferInstanceAs (Decidable True)

instance (net : EngineNet n) (e : EngineEvent n) : Decidable (Allowed P keys byz net e) :=
  match e with
  | .propose i _ _ => inferInstanceAs (Decidable (i ∉ byz ∧ (net.node i).isLeader = true))
  | .deliver i msg _ => inferInstanceAs (Decidable (i ∉ byz ∧ (msg ∈ net.sent ∨ (byz.Nonempty ∧ _))))

instance (nd : HotStuffNode) (block : Block) : Decidable (nd.VotesFor P block) :=
  inferInstanceAs (Decidable (∀ vote ∈ nd.allVotes, vote.blockHash = block.hash P))

instance (net : EngineNet n) (i : Fin n) (block : Block) : Decidable (net.FreshVote P i block) :=
  inferInstanceAs (Decidable (∀ v ∈ net.voted, v.1 = i → _ = _ → v.2.hash P = block.hash P))

instance (net : EngineNet n) (e : EngineEvent n) : Decidable (Checked P keys net e) :=
  match e with
  | .propose _ _ _ => inferInstanceAs (Decidable (HotStuffNode.VotesFor P _ _))
  | .deliver i (.propose block _) _ =>
      inferInstanceAs (Decidable ((net.node i).extendsLock block = true → _ ∧ _ ∧ _))
  | .deliver i (.vote vote) _ =>
      inferInstanceAs (Decidable (vote.verify P = true → (net.node i).phase ≠ .decide → _))
  | .deliver i (.newView round _) _ => inferInstanceAs (Decidable (¬ (net.node i).round < round → _))
  | .deliver _ (.timeout _ _) _ => inferInstanceAs (Decidable True)

end VelaNetwork
