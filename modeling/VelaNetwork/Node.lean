import VelaNetwork.HotStuff
import VelaNetwork.BlockDb
import VelaNetwork.Network
import VelaNetwork.Rpc

namespace VelaNetwork

instance neZeroThree : NeZero 3 := ⟨Nat.succ_ne_zero 2⟩

def validatorKey (i : Fin 3) : SigningKey := ⟨(Vector.replicate 32 0).set 0 (UInt8.ofNat (i + 1))⟩

variable (P : Primitives)

def validators : List Validator :=
  (List.finRange 3).map fun i =>
    { address := Address.fromPubkey P (validatorKey i), stake := 1000, index := i }

/-- The process of `main`: the shared state, the database, the engine, whether the startup sync is
still to come, the local round of the production task (absent until that task first runs) and the
requests in flight. -/
structure Node where
  validatorIndex : Fin 3
  state : NodeState
  blockDb : BlockDb
  hotstuff : HotStuffNode
  syncDue : Bool
  round : Option UInt64
  rpc : List RpcTask

namespace Node

def boot (validatorIndex : Fin 3) (blockDb : BlockDb) (initialBlocks : List Block) : Node where
  validatorIndex := validatorIndex
  state := .newWithState initialBlocks (WorldState.new.applyBlocks P initialBlocks)
  blockDb := blockDb
  hotstuff := .new (Address.fromPubkey P (validatorKey validatorIndex)) (validatorKey validatorIndex)
    (.new (validators P))
  syncDue := true
  round := none
  rpc := []

/-- `none` when `main` returns an error before the node runs. -/
def start (saved : Bool) (validatorIndex : Fin 3) (blockDb : BlockDb) : Option Node :=
  match blockDb.loadAllBlocks P with
  | none => none
  | some [] =>
    match blockDb.saveBlock P saved Block.genesis with
    | none => none
    | some blockDb => some (boot P validatorIndex blockDb [Block.genesis])
  | some initialBlocks => some (boot P validatorIndex blockDb initialBlocks)

def tipHeight (n : Node) : UInt64 := (n.state.blocks.getLast?.map (·.header.height)).getD 0

/-- `apply_block(..).ok()`, `save_block(..).ok()` and the push, all under the lock of `blocks`. -/
def append (saved : Bool) (n : Node) (block : Block) : Node :=
  { n with
    state := { n.state with
      blocks := n.state.blocks ++ [block]
      worldState := n.state.worldState.applyBlock P block }
    blockDb := (n.blockDb.saveBlock P saved block).getD n.blockDb }

def handleNewBlock (saved : Bool) (n : Node) (block : Block) : Node × List NetworkMessage :=
  if block.header.height = n.tipHeight + 1 then
    (n.append P saved block,
      [.consensusVote (Vote.sign P (block.hash P) block.header.round n.hotstuff.signingKey)])
  else (n, [])

def handleNewTransaction (n : Node) (tx : Transaction) : Node × List NetworkMessage :=
  ({ n with state := n.state.pushTx tx }, [])

def handleConsensusVote (order : IterOrder) (n : Node) (vote : Vote) : Node × List NetworkMessage :=
  match n.hotstuff.handleVote P order vote with
  | (hotstuff, some _) => ({ n with hotstuff }, [.newBlock Block.genesis])
  | (hotstuff, none) => ({ n with hotstuff }, [])

def handleConsensusPropose (n : Node) (block : Block) : Node × List NetworkMessage :=
  match n.hotstuff.handlePropose P block none with
  | (hotstuff, some _) =>
    ({ n with hotstuff },
      [.consensusVote (Vote.sign P (block.hash P) block.header.round hotstuff.signingKey)])
  | (hotstuff, none) => ({ n with hotstuff }, [])

def handleSyncRequest (n : Node) (fromHeight : UInt64) : Node × List NetworkMessage :=
  let syncBlocks := n.state.blocks.filter fun b => fromHeight < b.header.height
  (n, if syncBlocks.isEmpty then [] else [.syncResponse syncBlocks])

/-- The loop over the blocks of a `SyncResponse`; `saves` tells which of its writes succeed. -/
def importBlocks (saves : ℕ → Bool) (n : Node) : List Block → Node
  | [] => n
  | block :: rest =>
    if block.header.height = n.tipHeight + 1 then
      importBlocks (fun i => saves (i + 1)) (n.append P (saves 0) block) rest
    else importBlocks (fun i => saves (i + 1)) n rest

def handleMessage (order : IterOrder) (saves : ℕ → Bool) (n : Node) : NetworkMessage →
    Node × List NetworkMessage
  | .newBlock block => n.handleNewBlock P (saves 0) block
  | .newTransaction tx => n.handleNewTransaction tx
  | .consensusVote vote => n.handleConsensusVote P order vote
  | .consensusPropose block => n.handleConsensusPropose P block
  | .syncRequest fromHeight => n.handleSyncRequest fromHeight
  | .syncResponse blocks => (n.importBlocks P saves blocks, [])

def requestSync (n : Node) : Node × List NetworkMessage :=
  if n.syncDue then ({ n with syncDue := false }, [.syncRequest n.tipHeight]) else (n, [])

def startProducer (n : Node) : Node :=
  match n.round with
  | none => { n with round := some ((n.state.blocks.getLast?.map fun b => b.header.round + 1).getD 1) }
  | some _ => n

def leads (n : Node) (round : UInt64) : Bool := round % 3 = UInt64.ofNat n.validatorIndex

/-- The block the leader builds on `tip`: `mempool.drain(..).take(100)` empties the whole mempool. -/
def newBlock (now : Int64) (n : Node) (tip : Block) (round : UInt64) : Block where
  header := { height := tip.header.height + 1
              parentHash := tip.hash P
              txRoot := merkleRoot P (n.state.mempool.take 100)
              stateRoot := Hash.zero
              timestamp := now
              proposer := Address.zero
              round := round }
  transactions := n.state.mempool.take 100
  qc := none

def drainMempool (n : Node) : Node := { n with state := { n.state with mempool := [] } }

def nextRound (n : Node) (round : UInt64) : Node := { n with round := some (round + 1) }

/-- One turn of the production loop, after the sleep. A leader without any block panics. -/
def tick (now : Int64) (saved : Bool) (n : Node) : Node × List NetworkMessage :=
  match n.round with
  | none => (n, [])
  | some round =>
    if n.leads round then
      match n.state.blocks.getLast? with
      | none => (n, [])
      | some tip =>
        let block := n.newBlock P now tip round
        ((n.drainMempool.append P saved block).nextRound round, [.consensusPropose block, .newBlock block])
    else (n.nextRound round, [])

def advanceRpc (now : Clock) (n : Node) (i : ℕ) : Node × List NetworkMessage :=
  match n.rpc[i]? with
  | none => (n, [])
  | some task =>
    match task.advance P now n.state with
    | (state, .running task, tx) =>
      ({ n with state, rpc := n.rpc.set i task }, tx.toList.map .newTransaction)
    | (state, .finished _, tx) =>
      ({ n with state, rpc := n.rpc.eraseIdx i }, tx.toList.map .newTransaction)

end Node

/-- What can happen to a node, each at the granularity of the locks it takes. -/
inductive Event where
  | message (msg : NetworkMessage) (order : IterOrder) (saves : ℕ → Bool)
  | requestSync
  | startProducer
  | tick (now : Int64) (saved : Bool)
  | request (req : RpcRequest)
  | rpc (i : ℕ) (now : Clock)
  | restart (saved : Bool)

namespace Node

/-- A step of the node and the messages it sends. A start that fails leaves the machine as it was. -/
def stepWith (n : Node) : Event → Node × List NetworkMessage
  | .message msg order saves => n.handleMessage P order saves msg
  | .requestSync => n.requestSync
  | .startProducer => (n.startProducer, [])
  | .tick now saved => n.tick P now saved
  | .request req => ({ n with rpc := n.rpc ++ [req.task] }, [])
  | .rpc i now => n.advanceRpc P now i
  | .restart saved => ((start P saved n.validatorIndex n.blockDb).getD n, [])

def step (n : Node) (e : Event) : Node := (n.stepWith P e).1

def sends (n : Node) (e : Event) : List NetworkMessage := (n.stepWith P e).2

end Node

end VelaNetwork
