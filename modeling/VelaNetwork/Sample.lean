import VelaNetwork.Types
import Mathlib.Tactic.DeriveCountable
import Mathlib.Data.Countable.Basic
import Mathlib.Logic.Equiv.List

namespace VelaNetwork

open Library.ByteStrings

instance countableUInt8 : Countable UInt8 :=
  Function.Injective.countable (f := UInt8.toNat) fun _ _ => UInt8.toNat_inj.mp

instance countableUInt64 : Countable UInt64 :=
  Function.Injective.countable (f := UInt64.toNat) fun _ _ => UInt64.toNat_inj.mp

instance countableInt64 : Countable Int64 :=
  Function.Injective.countable (f := Int64.toInt) fun _ _ => Int64.toInt_inj.mp

instance countableBytes32 : Countable Bytes32 :=
  Function.Injective.countable (f := Vector.toList) fun _ _ => Vector.toList_inj.mp

deriving instance Countable for Hash, Address, Transaction, BlockHeader, Vote, QuorumCert, Block

noncomputable instance : Encodable Block := Encodable.ofCountable Block

def wordOfNat (n : ℕ) : Bytes32 := ⟨(leBytes 32 n).toArray, by simp⟩

def mix (bs : Bytes) : ℕ := bs.foldl (fun acc b => acc * 1099511628211 + b.toNat + 1) 7

/-- Stand-ins for the third-party functions: a mixing hash, a signature that is the public key and
the digest in clear, and an encoding of headers and blocks that can be undone. They show that what is
assumed of the real ones can be met, and let runs be computed. -/
noncomputable def Primitives.sample : Primitives where
  blake3 bs := wordOfNat (mix bs)
  verifyingKey key := key.seed
  sign key msg := key.seed.toList ++ msg
  signatureFromSlice sig := some sig
  verifyingKeyFromBytes pk := some pk
  verify pk msg sig := sig = pk.toList ++ msg
  serializeHeader h := some (u64LeBytes h.height ++ h.parentHash.bytes.toList ++ h.txRoot.bytes.toList ++
    h.stateRoot.bytes.toList ++ i64LeBytes h.timestamp ++ h.proposer.bytes.toList ++ u64LeBytes h.round)
  serializeBlock b := some (List.replicate (Encodable.encode b) 0)
  deserializeBlock val := Encodable.decode val.length

theorem sample_signVerifies : Primitives.sample.SignVerifies := by
  intro key msg
  exact ⟨_, _, rfl, rfl, by simp [Primitives.sample]⟩

theorem sample_roundTrips : Primitives.sample.BincodeRoundTrips := by
  intro b
  exact ⟨_, rfl, by simp [Primitives.sample]⟩

def sampleKey (i : ℕ) : SigningKey := ⟨Vector.replicate 32 (UInt8.ofNat i)⟩

def sampleAddr (i : ℕ) : Address := ⟨Vector.replicate 32 (UInt8.ofNat i)⟩

end VelaNetwork
