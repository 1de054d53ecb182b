import VelaNetwork.Requests

namespace VelaNetwork

open Library.ByteStrings

variable (P : Primitives)

structure BalanceResponse where
  address : String
  balance : UInt64
  nonce : UInt64

structure TxEntry where
  hash : String
  «from» : String
  «to» : String
  amount : UInt64
  fee : UInt64
  nonce : UInt64
  block : UInt64
  timestamp : Int64
deriving DecidableEq

structure HistoryResponse where
  address : String
  transactions : List TxEntry

/-- The array of `get_balance`, which stays zero when the decoding fails or has another length. -/
def balanceAddress (address : String) : Address :=
  match decodeHexAddress address with
  | none => Address.zero
  | some bytes =>
    match bytes32 bytes with
    | none => Address.zero
    | some addrArr => ⟨addrArr⟩

def getBalance (s : NodeState) (address : String) : BalanceResponse where
  address := address
  balance := s.worldState.balance (balanceAddress address)
  nonce := s.worldState.nonce (balanceAddress address)

def txEntry (block : Block) (tx : Transaction) : TxEntry where
  hash := (tx.hash P).toHex
  «from» := "vela:" ++ tx.from.hex
  «to» := "vela:" ++ tx.to.hex
  amount := tx.amount
  fee := tx.fee
  nonce := tx.nonce
  block := block.header.height
  timestamp := block.header.timestamp

/-- The address of the path as text, which `get_transactions` compares with the text of each account. -/
def trimmed (address : String) : String := String.ofList (trimVela address.toList)

def getTransactions (s : NodeState) (address : String) : HistoryResponse where
  address := address
  transactions := s.blocks.flatMap fun block =>
    (block.transactions.filter fun tx => tx.from.hex = trimmed address ∨ tx.to.hex = trimmed address).map
      (txEntry P block)

def getTx (s : NodeState) (hash : String) : Except RpcError TxEntry :=
  match s.blocks.findSome? fun block =>
      (block.transactions.find? fun tx => (tx.hash P).toHex = hash).map (txEntry P block) with
  | some entry => .ok entry
  | none => .error ⟨.notFound, "transaction not found"⟩

structure BlockResponse where
  height : UInt64
  hash : String
  parentHash : String
  txCount : ℕ
  timestamp : Int64
  proposer : String
  round : UInt64
deriving DecidableEq

def blockResponse (b : Block) : BlockResponse where
  height := b.header.height
  hash := (b.hash P).toHex
  parentHash := b.header.parentHash.toHex
  txCount := b.transactions.length
  timestamp := b.header.timestamp
  proposer := b.header.proposer.hex
  round := b.header.round

def getBlock (s : NodeState) (height : UInt64) : Except RpcError BlockResponse :=
  match s.blocks.find? fun b => b.header.height = height with
  | some b => .ok (blockResponse P b)
  | none => .error ⟨.notFound, s!"Block {height} not found"⟩

structure StatusResponse where
  node : String
  version : String
  port : UInt16
  peerCount : ℕ
  blockHeight : UInt64
  mempoolSize : ℕ
  totalSupply : UInt64
  totalTxs : UInt64
  currentLeader : UInt64

/-- The port and the count of peers are no part of `NodeState` here. -/
def getStatus (port : UInt16) (peerCount : ℕ) (s : NodeState) : StatusResponse where
  node := "vela-node"
  version := "0.1.0"
  port := port
  peerCount := peerCount
  blockHeight := (s.blocks.getLast?.map (·.header.height)).getD 0
  mempoolSize := s.mempool.length
  totalSupply := s.worldState.totalSupply
  totalTxs := s.worldState.totalTxs
  currentLeader := s.currentRound % 3

structure ValidatorEntry where
  index : ℕ
  address : String
  isLeader : Bool
  stake : ℕ

structure ValidatorsResponse where
  validators : List ValidatorEntry
  currentLeader : UInt64

def getValidators (s : NodeState) : ValidatorsResponse where
  validators := (List.finRange 3).map fun (i : Fin 3) =>
    { index := i
      address := "vela:" ++ (Address.fromPubkey P (validatorKey i)).hex
      isLeader := i.val = (s.currentRound % 3).toNat
      stake := 1000 }
  currentLeader := s.currentRound % 3

section Hexadecimal

theorem trimVela_of_head {s : List Char} (h : s.head? ≠ some 'v') : trimVela s = s := by
  unfold trimVela
  split
  · exact absurd rfl h
  · rfl

theorem hexDigit_ne {n : ℕ} (h : n < 16) : hexDigit n ≠ 'v' := by
  have hall : ∀ m : Fin 16, hexDigit m ≠ 'v' := by decide
  exact hall ⟨n, h⟩

theorem trimVela_hexChars (bs : Bytes) : trimVela (hexChars bs) = hexChars bs := by
  apply trimVela_of_head
  cases bs with
  | nil => exact Option.some_ne_none 'v' |>.symm
  | cons b bs =>
    have hb := b.toNat_lt
    have hfirst := hexDigit_ne (show b.toNat / 16 < 16 by omega)
    exact fun heq => hfirst (Option.some.inj heq)

theorem trimmed_hex (a : Address) : trimmed a.hex = a.hex := by
  unfold trimmed Address.hex hexEncode
  rw [String.toList_ofList, trimVela_hexChars]

theorem decodeHexAddress_eq (address : String) : decodeHexAddress address = hexDecode (trimmed address) := rfl

theorem decodeHexAddress_of_trimmed {address : String} {a : Address} (h : trimmed address = a.hex) :
    decodeHexAddress address = some a.bytes.toList := by
  rw [decodeHexAddress_eq, h]
  exact hexDecode_encode _

theorem balanceAddress_of_trimmed {address : String} {a : Address} (h : trimmed address = a.hex) :
    balanceAddress address = a := by
  unfold balanceAddress
  rw [decodeHexAddress_of_trimmed h]
  dsimp only
  rw [bytes32_iff.mpr rfl]

end Hexadecimal

end VelaNetwork
