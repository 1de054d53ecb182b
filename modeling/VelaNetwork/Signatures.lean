import VelaNetwork.Merkle

namespace VelaNetwork

open Library.ByteStrings

variable (P : Primitives)

def Vote.preimage (vote : Vote) : Bytes := signingPreimage vote.blockHash vote.round

def preimages (txs : List Transaction) (votes : List Vote) : List Bytes :=
  txs.map (·.signingPreimage) ++ votes.map (·.preimage)

def digests (txs : List Transaction) (votes : List Vote) : List Bytes :=
  txs.map (·.signingBytes P) ++ votes.map fun vote => Vote.signingBytes P vote.blockHash vote.round

/-- No signature that `key` makes for one of `msgs` verifies for another of them. -/
def Primitives.NoForgery (key : SigningKey) (msgs : List Bytes) : Prop :=
  ∀ msg ∈ msgs, ∀ msg' ∈ msgs, msg ≠ msg' → ∀ sig pk, P.signatureFromSlice (P.sign key msg) = some sig →
    P.verifyingKeyFromBytes (P.verifyingKey key) = some pk → P.verify pk msg' sig = false

structure Transaction.SignedBy (tx : Transaction) (key : SigningKey) : Prop where
  sender : tx.from = Address.fromPubkey P key
  signature : tx.signature = some (P.sign key (tx.signingBytes P))

structure Vote.SignedBy (vote : Vote) (key : SigningKey) : Prop where
  voter : vote.voter = Address.fromPubkey P key
  signature : vote.signature = P.sign key (Vote.signingBytes P vote.blockHash vote.round)

structure FitsOnePayload (txs : List Transaction) (votes : List Vote) : Prop where
  transfers : ∀ tx ∈ txs, ∀ tx' ∈ txs, tx.signingBytes P = tx'.signingBytes P ↔
    tx.from = tx'.from ∧ tx.to = tx'.to ∧ tx.amount = tx'.amount ∧ tx.fee = tx'.fee ∧ tx.nonce = tx'.nonce ∧
      tx.timestamp = tx'.timestamp ∧ tx.data = tx'.data
  ballots : ∀ vote ∈ votes, ∀ vote' ∈ votes,
    Vote.signingBytes P vote.blockHash vote.round = Vote.signingBytes P vote'.blockHash vote'.round →
      vote.blockHash = vote'.blockHash ∧ vote.round = vote'.round
  apart : ∀ tx ∈ txs, ∀ vote ∈ votes, tx.signingBytes P ≠ Vote.signingBytes P vote.blockHash vote.round
  voteReplayed : ∀ key, P.NoForgery key (digests P txs votes) → ∀ vote ∈ votes, vote.SignedBy P key →
    ∀ tx ∈ txs, tx.from = vote.voter → tx.signature = some vote.signature → tx.verify P = false
  transferReplayed : ∀ key, P.NoForgery key (digests P txs votes) → ∀ tx ∈ txs, tx.SignedBy P key →
    ∀ vote ∈ votes, vote.voter = tx.from → some vote.signature = tx.signature → vote.verify P = false

section Payloads

variable {P} {inputs : List Bytes} {tx tx' : Transaction} {vote vote' : Vote}

theorem NoCollision.digest_inj (h : NoCollision P inputs) {x y : Bytes} (hx : x ∈ inputs) (hy : y ∈ inputs) :
    (P.blake3 x).toList = (P.blake3 y).toList ↔ x = y := by
  constructor
  · intro heq
    exact h x hx y hy (Vector.toList_inj.mp heq)
  · rintro rfl
    rfl

theorem signingPreimage_eq_iff : tx.signingPreimage = tx'.signingPreimage ↔
    tx.from = tx'.from ∧ tx.to = tx'.to ∧ tx.amount = tx'.amount ∧ tx.fee = tx'.fee ∧ tx.nonce = tx'.nonce ∧
      tx.timestamp = tx'.timestamp ∧ tx.data = tx'.data := by
  constructor
  · intro heq
    have hunsigned := signingPreimage_injective heq
    obtain ⟨hfrom, hto, hamount, hfee, hnonce, htimestamp, hdata, _⟩ := Transaction.mk.inj hunsigned
    exact ⟨hfrom, hto, hamount, hfee, hnonce, htimestamp, hdata⟩
  · rintro ⟨hfrom, hto, hamount, hfee, hnonce, htimestamp, hdata⟩
    unfold Transaction.signingPreimage
    rw [hfrom, hto, hamount, hfee, hnonce, htimestamp, hdata]

theorem votePreimage_injective (h : vote.preimage = vote'.preimage) :
    vote.blockHash = vote'.blockHash ∧ vote.round = vote'.round := by
  obtain ⟨hhash, hround⟩ := bytes32_append_inj h
  refine ⟨?_, u64LeBytes_injective hround⟩
  calc
    vote.blockHash = ⟨vote.blockHash.bytes⟩ := rfl
    _ = ⟨vote'.blockHash.bytes⟩ := congrArg Hash.mk hhash
    _ = vote'.blockHash := rfl

/-- 40 bytes are hashed for a vote and at least 96 for a transaction. -/
theorem signingPreimage_ne_vote : tx.signingPreimage ≠ vote.preimage := by
  intro heq
  have hlength := congrArg List.length heq
  simp only [Transaction.signingPreimage, Vote.preimage, Vote.signingPreimage, u64LeBytes, i64LeBytes,
    List.length_append, Vector.length_toList, leBytes_length] at hlength
  omega

theorem NoCollision.apart (h : NoCollision P inputs) (htx : tx.signingPreimage ∈ inputs)
    (hvote : vote.preimage ∈ inputs) :
    tx.signingBytes P ≠ Vote.signingBytes P vote.blockHash vote.round := by
  intro heq
  exact signingPreimage_ne_vote ((h.digest_inj htx hvote).mp heq)

theorem verify_of_other_message {key : SigningKey} {msgs : List Bytes} {msg : Bytes}
    (hforgery : P.NoForgery key msgs) (hmsg : msg ∈ msgs) (htx : tx.signingBytes P ∈ msgs)
    (hfrom : tx.from = Address.fromPubkey P key) (hsignature : tx.signature = some (P.sign key msg))
    (hother : tx.signingBytes P ≠ msg) : tx.verify P = false := by
  unfold Transaction.verify
  rw [hsignature, hfrom]
  dsimp only
  split
  · rename_i sig pk hsig hpk
    exact hforgery msg hmsg _ htx hother.symm sig pk hsig hpk
  · rfl

theorem Vote.verify_of_other_message {key : SigningKey} {msgs : List Bytes} {msg : Bytes}
    (hforgery : P.NoForgery key msgs) (hmsg : msg ∈ msgs)
    (hvote : Vote.signingBytes P vote.blockHash vote.round ∈ msgs)
    (hvoter : vote.voter = Address.fromPubkey P key) (hsignature : vote.signature = P.sign key msg)
    (hother : Vote.signingBytes P vote.blockHash vote.round ≠ msg) : vote.verify P = false := by
  unfold Vote.verify
  rw [hsignature, hvoter]
  split
  · rename_i sig pk hsig hpk
    exact hforgery msg hmsg _ hvote hother.symm sig pk hsig hpk
  · rfl

theorem mem_digests_tx {txs : List Transaction} (htx : tx ∈ txs) (votes : List Vote) :
    tx.signingBytes P ∈ digests P txs votes := List.mem_append_left _ (List.mem_map_of_mem htx)

theorem mem_digests_vote {votes : List Vote} (hvote : vote ∈ votes) (txs : List Transaction) :
    Vote.signingBytes P vote.blockHash vote.round ∈ digests P txs votes :=
  List.mem_append_right _ (List.mem_map_of_mem hvote)

theorem mem_preimages_tx {txs : List Transaction} (htx : tx ∈ txs) (votes : List Vote) :
    tx.signingPreimage ∈ preimages txs votes := List.mem_append_left _ (List.mem_map_of_mem htx)

theorem mem_preimages_vote {votes : List Vote} (hvote : vote ∈ votes) (txs : List Transaction) :
    vote.preimage ∈ preimages txs votes := List.mem_append_right _ (List.mem_map_of_mem hvote)

end Payloads

theorem signature_fits_one (P : Primitives) {txs : List Transaction} {votes : List Vote}
    (hcollision : NoCollision P (preimages txs votes)) : FitsOnePayload P txs votes := by
  have hapart : ∀ tx ∈ txs, ∀ vote ∈ votes, tx.signingBytes P ≠
      Vote.signingBytes P vote.blockHash vote.round := by
    intro tx htx vote hvote
    exact hcollision.apart (mem_preimages_tx htx votes) (mem_preimages_vote hvote txs)
  refine ⟨?_, ?_, hapart, ?_, ?_⟩
  · intro tx htx tx' htx'
    rw [← signingPreimage_eq_iff]
    exact hcollision.digest_inj (mem_preimages_tx htx votes) (mem_preimages_tx htx' votes)
  · intro vote hvote vote' hvote' heq
    apply votePreimage_injective
    exact (hcollision.digest_inj (mem_preimages_vote hvote txs) (mem_preimages_vote hvote' txs)).mp heq
  · intro key hforgery vote hvote hsigned tx htx hfrom hsignature
    rw [hsigned.voter] at hfrom
    rw [hsigned.signature] at hsignature
    exact verify_of_other_message hforgery (mem_digests_vote hvote txs) (mem_digests_tx htx votes) hfrom
      hsignature (hapart tx htx vote hvote)
  · intro key hforgery tx htx hsigned vote hvote hvoter hsignature
    rw [hsigned.sender] at hvoter
    rw [hsigned.signature] at hsignature
    exact Vote.verify_of_other_message hforgery (mem_digests_tx htx votes) (mem_digests_vote hvote txs) hvoter
      (Option.some.inj hsignature) (hapart tx htx vote hvote).symm

section Runs

theorem sample_noForgery (key : SigningKey) (msgs : List Bytes) : Primitives.sample.NoForgery key msgs := by
  intro msg _ msg' _ hne sig pk hsig hpk
  obtain rfl := Option.some.inj hsig
  obtain rfl := Option.some.inj hpk
  apply decide_eq_false
  intro (heq : key.seed.toList ++ msg = key.seed.toList ++ msg')
  exact hne (List.append_cancel_left heq)

noncomputable def treasuryVote : Vote := Vote.sign .sample (Block.genesis.hash .sample) 0 treasuryKey

noncomputable def replayedVote : Transaction :=
  { WorldState.transfer 2 with signature := some treasuryVote.signature }

theorem signature_fits_treasury :
    Primitives.sample.NoForgery treasuryKey
      (digests .sample [WorldState.transfer 1, replayedVote] [treasuryVote]) ∧
      FitsOnePayload .sample [WorldState.transfer 1, replayedVote] [treasuryVote] := by
  refine ⟨sample_noForgery _ _, signature_fits_one .sample ?_⟩
  unfold NoCollision
  decide +kernel

end Runs

end VelaNetwork
