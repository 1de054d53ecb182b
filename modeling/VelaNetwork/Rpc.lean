import VelaNetwork.WorldState

namespace VelaNetwork

open Library.ByteStrings

structure NodeState where
  blocks : List Block
  mempool : List Transaction
  worldState : WorldState
  currentRound : UInt64

def NodeState.newWithState (blocks : List Block) (worldState : WorldState) : NodeState where
  blocks := blocks
  mempool := []
  worldState := worldState
  currentRound := 0

structure SendTxRequest where
  «from» : String
  «to» : String
  amount : UInt64
  fee : UInt64
  nonce : UInt64
  signature : Option String
  timestamp : Option Int64

structure TxResponse where
  status : String
  txHash : String

inductive StatusCode where
  | badRequest
  | tooManyRequests
  | notFound
deriving DecidableEq

structure RpcError where
  status : StatusCode
  error : String

structure Clock where
  millis : Int64
  secs : UInt64

def badRequest (error : String) : RpcError := ⟨.badRequest, error⟩

/-- `trim_start_matches("vela:")` removes the prefix as often as it occurs. -/
def trimVela : List Char → List Char
  | 'v' :: 'e' :: 'l' :: 'a' :: ':' :: rest => trimVela rest
  | s => s

def decodeHexAddress (s : String) : Option Bytes := hexDecode (String.ofList (trimVela s.toList))

def bytes32 (bs : Bytes) : Option Bytes32 :=
  if h : bs.length = 32 then some ⟨bs.toArray, by simpa using h⟩ else none

section Faucet

variable (P : Primitives)

def faucetCooldown (now : UInt64) (s : NodeState) (address : String) : Except RpcError Unit :=
  if s.worldState.canFaucet now address then .ok ()
  else .error ⟨.tooManyRequests, "Faucet cooldown: 24 hours between requests"⟩

def faucetRecipient (address : String) : Except RpcError Address :=
  match decodeHexAddress address with
  | none => .error (badRequest "invalid address")
  | some toBytes =>
    match bytes32 toBytes with
    | none => .error (badRequest "address must be 32 bytes")
    | some toArr => .ok ⟨toArr⟩

def faucetTx (now : Int64) (s : NodeState) («to» : Address) : Transaction :=
  let nonce := s.worldState.nonce (WorldState.faucetAddr P) + 1
  (Transaction.new now (WorldState.faucetAddr P) «to» FAUCET_AMOUNT 1 nonce).sign P faucetKey

end Faucet

section SendTx

variable (P : Primitives)

def sendTxAddresses (req : SendTxRequest) : Except RpcError (Address × Address) :=
  match decodeHexAddress req.from, decodeHexAddress req.to with
  | none, _ => .error (badRequest "invalid from")
  | _, none => .error (badRequest "invalid to")
  | some fromBytes, some toBytes =>
    match bytes32 fromBytes, bytes32 toBytes with
    | some fromArr, some toArr => .ok (⟨fromArr⟩, ⟨toArr⟩)
    | _, _ => .error (badRequest "address must be 32 bytes")

def sendTxCheck (s : NodeState) (req : SendTxRequest) (fromAddr : Address) : Except RpcError Unit :=
  let balance := s.worldState.balance fromAddr
  let expectedNonce := s.worldState.nonce fromAddr + 1
  if balance < req.amount + req.fee then
    .error (badRequest s!"insufficient balance: have {balance}, need {req.amount + req.fee}")
  else if req.nonce ≠ expectedNonce then
    .error (badRequest s!"invalid nonce: expected {expectedNonce}, got {req.nonce}")
  else .ok ()

def sendTxBuild (now : Int64) (req : SendTxRequest) (fromAddr toAddr : Address) : Transaction :=
  { Transaction.new now fromAddr toAddr req.amount req.fee req.nonce with
    timestamp := req.timestamp.getD now
    signature := req.signature.bind hexDecode }

def sendTxVerify (tx : Transaction) : Except RpcError Unit :=
  if tx.signature.isSome ∧ ¬ tx.verify P then .error (badRequest "invalid signature") else .ok ()

def sendTxDuplicate (s : NodeState) (tx : Transaction) : Except RpcError Unit :=
  if s.mempool.any fun t => (t.hash P).toHex = (tx.hash P).toHex then
    .error (badRequest "tx already in mempool")
  else .ok ()

/-- `post_send_tx` up to the check of the mempool: one read of the world state. -/
def sendTxAdmit (now : Int64) (s : NodeState) (req : SendTxRequest) : Except RpcError Transaction := do
  let (fromAddr, toAddr) ← sendTxAddresses req
  sendTxCheck s req fromAddr
  let tx := sendTxBuild now req fromAddr toAddr
  sendTxVerify P tx
  return tx

end SendTx

def NodeState.pushTx (s : NodeState) (tx : Transaction) : NodeState := { s with mempool := s.mempool ++ [tx] }

def NodeState.markFaucet (now : UInt64) (s : NodeState) (address : String) : NodeState :=
  { s with worldState := s.worldState.markFaucet now address }

inductive RpcRequest where
  | faucet (address : String)
  | sendTx (req : SendTxRequest)

/-- A request in flight. Each constructor is a point between two lock scopes of its handler. -/
inductive RpcTask where
  | faucetCheck (address : String)
  | faucetNonce (address : String) («to» : Address)
  | faucetMark (address : String) (tx : Transaction)
  | sendTxCheck (req : SendTxRequest)
  | sendTxDuplicate (tx : Transaction)
  | push (tx : Transaction)
  | broadcast (tx : Transaction)

inductive RpcProgress where
  | running (task : RpcTask)
  | finished (response : Except RpcError TxResponse)

def RpcRequest.task : RpcRequest → RpcTask
  | .faucet address => .faucetCheck address
  | .sendTx req => .sendTxCheck req

namespace RpcTask

variable (P : Primitives)

/-- The next lock scope of a request; the last component is what goes to `tx_broadcast`. -/
def advance (now : Clock) (s : NodeState) : RpcTask → NodeState × RpcProgress × Option Transaction
  | .faucetCheck address =>
    match faucetCooldown now.secs s address with
    | .error e => (s, .finished (.error e), none)
    | .ok _ =>
      match faucetRecipient address with
      | .error e => (s, .finished (.error e), none)
      | .ok recipient => (s, .running (.faucetNonce address recipient), none)
  | .faucetNonce address recipient =>
      (s, .running (.faucetMark address (faucetTx P now.millis s recipient)), none)
  | .faucetMark address tx => (s.markFaucet now.secs address, .running (.push tx), none)
  | .sendTxCheck req =>
    match sendTxAdmit P now.millis s req with
    | .error e => (s, .finished (.error e), none)
    | .ok tx => (s, .running (.sendTxDuplicate tx), none)
  | .sendTxDuplicate tx =>
    match VelaNetwork.sendTxDuplicate P s tx with
    | .error e => (s, .finished (.error e), none)
    | .ok _ => (s, .running (.push tx), none)
  | .push tx => (s.pushTx tx, .running (.broadcast tx), none)
  | .broadcast tx => (s, .finished (.ok ⟨"accepted", (tx.hash P).toHex⟩), some tx)

end RpcTask

end VelaNetwork
