import VelaNetwork.Library.ByteStrings
import Mathlib.Data.Vector.Basic

namespace VelaNetwork

open Library.ByteStrings

abbrev Bytes := List UInt8

abbrev Bytes32 := Vector UInt8 32

structure Hash where
  bytes : Bytes32
deriving DecidableEq

def Hash.zero : Hash := ⟨Vector.replicate 32 0⟩

def Hash.toHex (h : Hash) : String := hexEncode h.bytes.toList

structure Address where
  bytes : Bytes32
deriving DecidableEq

def Address.zero : Address := ⟨Vector.replicate 32 0⟩

/-- `hex::encode(addr.as_bytes())`, the key of the address in every map. -/
def Address.hex (a : Address) : String := hexEncode a.bytes.toList

theorem Address.hex_inj {a b : Address} : a.hex = b.hex ↔ a = b := by
  rw [Address.hex, Address.hex, hexEncode_inj, Vector.toList_inj]
  exact ⟨fun h => by cases a; cases b; exact congrArg Address.mk h, fun h => by rw [h]⟩

structure SigningKey where
  seed : Bytes32
deriving DecidableEq

structure Transaction where
  «from» : Address
  «to» : Address
  amount : UInt64
  fee : UInt64
  nonce : UInt64
  timestamp : Int64
  data : Bytes
  signature : Option Bytes
deriving DecidableEq

structure BlockHeader where
  height : UInt64
  parentHash : Hash
  txRoot : Hash
  stateRoot : Hash
  timestamp : Int64
  proposer : Address
  round : UInt64
deriving DecidableEq

structure Vote where
  blockHash : Hash
  round : UInt64
  voter : Address
  signature : Bytes
deriving DecidableEq

structure QuorumCert where
  blockHash : Hash
  round : UInt64
  votes : List Vote
deriving DecidableEq

structure Block where
  header : BlockHeader
  transactions : List Transaction
  qc : Option QuorumCert
deriving DecidableEq

structure Account where
  address : Address
  balance : UInt64
  nonce : UInt64
deriving DecidableEq

structure Validator where
  address : Address
  stake : UInt64
  index : ℕ
deriving DecidableEq

/-- The third-party functions the node calls: Blake3, Ed25519 and bincode. -/
structure Primitives where
  blake3 : Bytes → Bytes32
  verifyingKey : SigningKey → Bytes32
  sign : SigningKey → Bytes → Bytes
  signatureFromSlice : Bytes → Option Bytes
  verifyingKeyFromBytes : Bytes32 → Option Bytes32
  verify : Bytes32 → Bytes → Bytes → Bool
  serializeHeader : BlockHeader → Option Bytes
  serializeBlock : Block → Option Bytes
  deserializeBlock : Bytes → Option Block

namespace Primitives

variable (P : Primitives)

def SignVerifies : Prop := ∀ key msg, ∃ sig pk, P.signatureFromSlice (P.sign key msg) = some sig ∧
  P.verifyingKeyFromBytes (P.verifyingKey key) = some pk ∧ P.verify pk msg sig = true

def BincodeRoundTrips : Prop := ∀ block, ∃ val, P.serializeBlock block = some val ∧
  P.deserializeBlock val = some block

end Primitives

variable (P : Primitives)

def Hash.of (data : Bytes) : Hash := ⟨P.blake3 data⟩

def Address.fromPubkey (key : SigningKey) : Address := ⟨P.verifyingKey key⟩

def u64LeBytes (n : UInt64) : Bytes := leBytes 8 n.toNat

def i64LeBytes (n : Int64) : Bytes := leBytes 8 n.toBitVec.toNat

def u64BeBytes (n : UInt64) : Bytes := beBytes 8 n.toNat

namespace Transaction

/-- `Utc::now()` is the argument `now`. -/
def new (now : Int64) («from» «to» : Address) (amount fee nonce : UInt64) : Transaction :=
  { «from», «to», amount, fee, nonce, timestamp := now, data := [], signature := none }

def signingPreimage (tx : Transaction) : Bytes :=
  tx.from.bytes.toList ++ tx.to.bytes.toList ++ u64LeBytes tx.amount ++ u64LeBytes tx.fee ++
    u64LeBytes tx.nonce ++ i64LeBytes tx.timestamp ++ tx.data

def signingBytes (tx : Transaction) : Bytes := (P.blake3 tx.signingPreimage).toList

def sign (tx : Transaction) (key : SigningKey) : Transaction :=
  { tx with signature := some (P.sign key (tx.signingBytes P)) }

def verify (tx : Transaction) : Bool :=
  match tx.signature with
  | none => false
  | some sigBytes =>
    match P.signatureFromSlice sigBytes, P.verifyingKeyFromBytes tx.from.bytes with
    | some sig, some pk => P.verify pk (tx.signingBytes P) sig
    | _, _ => false

def hash (tx : Transaction) : Hash := Hash.of P (tx.signingBytes P)

theorem verify_sign (hP : P.SignVerifies) (tx : Transaction) (key : SigningKey)
    (hfrom : tx.from = Address.fromPubkey P key) : (tx.sign P key).verify P = true := by
  obtain ⟨sig, pk, hsig, hpk, hverify⟩ := hP key (tx.signingBytes P)
  have hbytes : (tx.sign P key).signingBytes P = tx.signingBytes P := rfl
  have hkey : (tx.sign P key).from.bytes = P.verifyingKey key := by
    change tx.from.bytes = _
    rw [hfrom]; rfl
  simp only [verify, hbytes, hkey, hpk]
  simp only [sign, hsig]
  exact hverify

end Transaction

def BlockHeader.hash (header : BlockHeader) : Hash := Hash.of P ((P.serializeHeader header).getD [])

def padOdd (hashes : List Hash) : List Hash :=
  if hashes.length % 2 = 1 then hashes ++ hashes.getLast?.toList else hashes

def hashPairs : List Hash → List Hash
  | a :: b :: rest => ⟨P.blake3 (a.bytes.toList ++ b.bytes.toList)⟩ :: hashPairs rest
  | _ => []

theorem hashPairs_length (hashes : List Hash) : (hashPairs P hashes).length = hashes.length / 2 := by
  induction hashes using hashPairs.induct with
  | case1 a b rest ih => simp only [hashPairs, List.length_cons, ih]; omega
  | case2 hashes hshort =>
    match hashes, hshort with
    | [], _ => rfl
    | [a], _ => simp [hashPairs]
    | a :: b :: rest, h => exact absurd rfl (h a b rest)

theorem padOdd_length_le (hashes : List Hash) : (padOdd hashes).length ≤ hashes.length + 1 := by
  unfold padOdd
  split
  · cases hashes.getLast? <;> simp
  · omega

def merkleLevels (hashes : List Hash) : Hash :=
  if 1 < hashes.length then merkleLevels (hashPairs P (padOdd hashes)) else hashes.headD Hash.zero
termination_by hashes.length
decreasing_by
  rw [hashPairs_length]
  have := padOdd_length_le hashes
  omega

def merkleRoot (txs : List Transaction) : Hash :=
  if txs.isEmpty then Hash.zero else merkleLevels P (txs.map (·.hash P))

@[simp] theorem merkleRoot_nil : merkleRoot P [] = Hash.zero := rfl

namespace Block

def new (now : Int64) (height : UInt64) (parentHash : Hash) (transactions : List Transaction)
    (proposer : Address) (round : UInt64) : Block where
  header := { height, parentHash, txRoot := merkleRoot P transactions, stateRoot := Hash.zero,
              timestamp := now, proposer, round }
  transactions := transactions
  qc := none

def hash (block : Block) : Hash := block.header.hash P

def genesis : Block where
  header := { height := 0, parentHash := Hash.zero, txRoot := Hash.zero, stateRoot := Hash.zero,
              timestamp := 1700000000000, proposer := Address.zero, round := 0 }
  transactions := []
  qc := none

end Block

/-- Blake3 and bincode tell the headers of these blocks apart. -/
def CollisionFree (blocks : List Block) : Prop :=
  ∀ b ∈ blocks, ∀ b' ∈ blocks, b.hash P = b'.hash P → b.header = b'.header

instance (blocks : List Block) : Decidable (CollisionFree P blocks) :=
  inferInstanceAs (Decidable (∀ b ∈ blocks, ∀ b' ∈ blocks, b.hash P = b'.hash P → b.header = b'.header))

namespace Vote

def signingPreimage (blockHash : Hash) (round : UInt64) : Bytes := blockHash.bytes.toList ++ u64LeBytes round

def signingBytes (blockHash : Hash) (round : UInt64) : Bytes :=
  (P.blake3 (signingPreimage blockHash round)).toList

def sign (blockHash : Hash) (round : UInt64) (key : SigningKey) : Vote where
  blockHash := blockHash
  round := round
  voter := Address.fromPubkey P key
  signature := P.sign key (signingBytes P blockHash round)

def verify (vote : Vote) : Bool :=
  match P.signatureFromSlice vote.signature, P.verifyingKeyFromBytes vote.voter.bytes with
  | some sig, some pk => P.verify pk (signingBytes P vote.blockHash vote.round) sig
  | _, _ => false

theorem verify_sign (hP : P.SignVerifies) (blockHash : Hash) (round : UInt64) (key : SigningKey) :
    (sign P blockHash round key).verify P = true := by
  obtain ⟨sig, pk, hsig, hpk, hverify⟩ := hP key (signingBytes P blockHash round)
  change (match P.signatureFromSlice (P.sign key (signingBytes P blockHash round)),
    P.verifyingKeyFromBytes (P.verifyingKey key) with
    | some sig, some pk => P.verify pk (signingBytes P blockHash round) sig
    | _, _ => false) = true
  rw [hsig, hpk]
  exact hverify

@[simp] theorem sign_blockHash (h : Hash) (r : UInt64) (key : SigningKey) : (sign P h r key).blockHash = h :=
  rfl

@[simp] theorem sign_round (h : Hash) (r : UInt64) (key : SigningKey) : (sign P h r key).round = r := rfl

@[simp] theorem sign_voter (h : Hash) (r : UInt64) (key : SigningKey) :
    (sign P h r key).voter = Address.fromPubkey P key := rfl

end Vote

def Account.new (address : Address) : Account := { address, balance := 0, nonce := 0 }

end VelaNetwork
