import VelaNetwork.Requests
import VelaNetwork.Duplicates

namespace VelaNetwork

open Library.ByteStrings

variable (P : Primitives)

namespace SendTxRequest

structure Submits (req : SendTxRequest) (tx : Transaction) : Prop where
  fromBytes : decodeHexAddress req.from = some tx.from.bytes.toList
  toBytes : decodeHexAddress req.to = some tx.to.bytes.toList
  amount : tx.amount = req.amount
  fee : tx.fee = req.fee
  nonce : tx.nonce = req.nonce
  timestamp : ∀ timestamp ∈ req.timestamp, tx.timestamp = timestamp
  data : tx.data = []

structure ValidTransfer (s : NodeState) (req : SendTxRequest) (tx : Transaction) :
    Prop extends req.Submits tx where
  funded : req.amount.toNat + req.fee.toNat ≤ (s.worldState.balance tx.from).toNat
  minimumFee : 1 ≤ req.fee.toNat
  nextNonce : req.nonce.toNat = (s.worldState.nonce tx.from).toNat + 1
  signed : ∃ sig ∈ req.signature, hexDecode sig = tx.signature ∧ tx.verify P = true
  new : tx.hash P ∉ s.mempool.map (·.hash P)

inductive AdmitsValid (clock : ℕ → Clock) (s : NodeState) (req : SendTxRequest) : Prop where
  | accepted (tx : Transaction) (handled : postSendTx P clock s req = (s.pushTx tx, some (accepted P tx)))
      (valid : req.ValidTransfer P s tx)
  | rejected (e : RpcError) (answer : (postSendTx P clock s req).2 = some (.error e))
      (mempool : (postSendTx P clock s req).1.mempool = s.mempool)
      (worldState : (postSendTx P clock s req).1.worldState = s.worldState)

structure Passes (now : Int64) (s : NodeState) (req : SendTxRequest) (sender recipient : Address) : Prop where
  fromBytes : decodeHexAddress req.from = some sender.bytes.toList
  toBytes : decodeHexAddress req.to = some recipient.bytes.toList
  balance : req.amount + req.fee ≤ s.worldState.balance sender
  nonce : req.nonce = s.worldState.nonce sender + 1
  signature : (sendTxBuild now req sender recipient).signature.isSome = true →
    (sendTxBuild now req sender recipient).verify P = true
  new : (sendTxBuild now req sender recipient).hash P ∉ s.mempool.map (·.hash P)

structure Complete (req : SendTxRequest) : Prop where
  sum : req.amount.toNat + req.fee.toNat < 2 ^ 64
  fee : 1 ≤ req.fee.toNat
  nonce : req.nonce ≠ 0
  signature : (req.signature.bind hexDecode).isSome = true

section Handler

variable {P} {now : Int64} {s : NodeState} {req : SendTxRequest} {sender recipient : Address}

theorem sendTxCheck_iff : sendTxCheck s req sender = .ok () ↔
    req.amount + req.fee ≤ s.worldState.balance sender ∧ req.nonce = s.worldState.nonce sender + 1 := by
  unfold sendTxCheck
  dsimp only
  split
  · rename_i hbalance
    exact iff_of_false (by rintro ⟨⟩) fun h => absurd hbalance (UInt64.not_lt.mpr h.1)
  · rename_i hbalance
    split
    · rename_i hnonce
      exact iff_of_false (by rintro ⟨⟩) fun h => hnonce h.2
    · rename_i hnonce
      exact iff_of_true rfl ⟨UInt64.not_lt.mp hbalance, Classical.not_not.mp hnonce⟩

theorem sendTxVerify_iff {tx : Transaction} :
    sendTxVerify P tx = .ok () ↔ (tx.signature.isSome = true → tx.verify P = true) := by
  unfold sendTxVerify
  split
  · rename_i hbad
    exact iff_of_false (by rintro ⟨⟩) fun h => hbad.2 (h hbad.1)
  · rename_i hbad
    exact iff_of_true rfl fun hsigned => Classical.not_not.mp fun hverify => hbad ⟨hsigned, hverify⟩

theorem sendTxAdmit_iff {tx : Transaction} : sendTxAdmit P now s req = .ok tx ↔
    ∃ sender recipient, sendTxAddresses req = .ok (sender, recipient) ∧ sendTxCheck s req sender = .ok () ∧
      sendTxVerify P (sendTxBuild now req sender recipient) = .ok () ∧
        tx = sendTxBuild now req sender recipient := by
  unfold sendTxAdmit
  cases sendTxAddresses req with
  | error e => exact iff_of_false (by rintro ⟨⟩) (by rintro ⟨_, _, ⟨⟩, _⟩)
  | ok addrs =>
    obtain ⟨sender, recipient⟩ := addrs
    simp only [bind, Except.bind, pure, Except.pure]
    constructor
    · intro h
      refine ⟨sender, recipient, rfl, ?_⟩
      cases hcheck : sendTxCheck s req sender with
      | error e => rw [hcheck] at h; cases h
      | ok _ =>
        cases hverify : sendTxVerify P (sendTxBuild now req sender recipient) with
        | error e => rw [hcheck] at h; dsimp only at h; rw [hverify] at h; cases h
        | ok _ =>
          rw [hcheck] at h
          dsimp only at h
          rw [hverify] at h
          exact ⟨rfl, rfl, (Except.ok.inj h).symm⟩
    · rintro ⟨sender, recipient, heq, hcheck, hverify, rfl⟩
      cases heq
      rw [hcheck]
      dsimp only
      rw [hverify]

theorem passes_iff : req.Passes P now s sender recipient ↔ sendTxAddresses req = .ok (sender, recipient) ∧
    sendTxCheck s req sender = .ok () ∧ sendTxVerify P (sendTxBuild now req sender recipient) = .ok () ∧
    sendTxDuplicate P s (sendTxBuild now req sender recipient) = .ok () := by
  rw [sendTxAddresses_iff, sendTxCheck_iff, sendTxVerify_iff, Node.sendTxDuplicate_iff]
  constructor
  · intro h
    exact ⟨⟨h.fromBytes, h.toBytes⟩, ⟨h.balance, h.nonce⟩, h.signature, h.new⟩
  · rintro ⟨⟨hsender, hrecipient⟩, ⟨hbalance, hnonce⟩, hsignature, hnew⟩
    exact ⟨hsender, hrecipient, hbalance, hnonce, hsignature, hnew⟩

theorem postSendTx_passes {clock : ℕ → Clock} (h : req.Passes P (clock 0).millis s sender recipient) :
    postSendTx P clock s req = (s.pushTx (sendTxBuild (clock 0).millis req sender recipient),
      some (accepted P (sendTxBuild (clock 0).millis req sender recipient))) := by
  obtain ⟨haddresses, hcheck, hverify, hduplicate⟩ := passes_iff.mp h
  rw [postSendTx_eq, sendTxAdmit_iff.mpr ⟨sender, recipient, haddresses, hcheck, hverify, rfl⟩]
  dsimp only
  rw [hduplicate]

theorem postSendTx_fails {clock : ℕ → Clock}
    (h : ∀ sender recipient, ¬ req.Passes P (clock 0).millis s sender recipient) :
    ∃ e, postSendTx P clock s req = (s, some (.error e)) := by
  rw [postSendTx_eq]
  cases hadmit : sendTxAdmit P (clock 0).millis s req with
  | error e => exact ⟨e, rfl⟩
  | ok tx =>
    dsimp only
    cases hduplicate : sendTxDuplicate P s tx with
    | error e => exact ⟨e, rfl⟩
    | ok _ =>
      obtain ⟨sender, recipient, haddresses, hcheck, hverify, rfl⟩ := sendTxAdmit_iff.mp hadmit
      exact absurd (passes_iff.mpr ⟨haddresses, hcheck, hverify, hduplicate⟩) (h sender recipient)

theorem sendTxBuild_submits (hsender : decodeHexAddress req.from = some sender.bytes.toList)
    (hrecipient : decodeHexAddress req.to = some recipient.bytes.toList) :
    req.Submits (sendTxBuild now req sender recipient) := by
  refine ⟨hsender, hrecipient, rfl, rfl, rfl, ?_, rfl⟩
  intro timestamp htimestamp
  change req.timestamp.getD now = timestamp
  rw [htimestamp]
  rfl

theorem ValidTransfer.complete {tx : Transaction} (h : req.ValidTransfer P s tx) : req.Complete := by
  have hfunded := h.funded
  have hfits := UInt64.toNat_lt (s.worldState.balance tx.from)
  obtain ⟨sig, hsig, hdecode, hverify⟩ := h.signed
  refine ⟨by omega, h.minimumFee, ?_, ?_⟩
  · intro hzero
    have hnext := h.nextNonce
    rw [hzero] at hnext
    exact absurd hnext (Nat.succ_ne_zero _).symm
  · rw [hsig, Option.bind_some, hdecode]
    unfold Transaction.verify at hverify
    cases hsignature : tx.signature with
    | none => rw [hsignature] at hverify; cases hverify
    | some bytes => rfl

theorem Passes.validTransfer (h : req.Passes P now s sender recipient) (hcomplete : req.Complete) :
    req.ValidTransfer P s (sendTxBuild now req sender recipient) := by
  have hbalance := UInt64.le_iff_toNat_le.mp h.balance
  have hnonce := congrArg UInt64.toNat h.nonce
  rw [UInt64.toNat_add] at hbalance hnonce
  have hone : (1 : UInt64).toNat = 1 := rfl
  have hsum := hcomplete.sum
  have hcount := UInt64.toNat_lt (s.worldState.nonce sender)
  have hpositive : req.nonce.toNat ≠ 0 := fun hzero => hcomplete.nonce (UInt64.toNat_inj.mp hzero)
  refine ⟨sendTxBuild_submits h.fromBytes h.toBytes, ?_, hcomplete.fee, ?_, ?_, h.new⟩
  · change _ ≤ (s.worldState.balance sender).toNat
    omega
  · change _ = (s.worldState.nonce sender).toNat + 1
    omega
  · obtain ⟨bytes, hbytes⟩ := Option.isSome_iff_exists.mp hcomplete.signature
    obtain ⟨sig, hsig, hdecode⟩ := Option.bind_eq_some_iff.mp hbytes
    refine ⟨sig, hsig, hdecode.trans hbytes.symm, h.signature ?_⟩
    exact hcomplete.signature

theorem Passes.complete {clock : ℕ → Clock} (h : req.Passes P (clock 0).millis s sender recipient)
    (hadmits : req.AdmitsValid P clock s) : req.Complete := by
  cases hadmits with
  | accepted tx haccepted hvalid => exact hvalid.complete
  | rejected e hanswer hmempool hworld =>
    rw [postSendTx_passes h] at hanswer
    cases hanswer

end Handler

theorem valid_admission_iff (clock : ℕ → Clock) (s : NodeState) (req : SendTxRequest) :
    req.AdmitsValid P clock s ↔
      ∀ sender recipient, req.Passes P (clock 0).millis s sender recipient → req.Complete := by
  constructor
  · intro hadmits sender recipient hpasses
    exact hpasses.complete hadmits
  · intro hcomplete
    by_cases hpasses : ∃ sender recipient, req.Passes P (clock 0).millis s sender recipient
    · obtain ⟨sender, recipient, hpasses⟩ := hpasses
      exact .accepted _ (postSendTx_passes hpasses)
        (hpasses.validTransfer (hcomplete sender recipient hpasses))
    · obtain ⟨e, hrejected⟩ := postSendTx_fails fun sender recipient h => hpasses ⟨sender, recipient, h⟩
      refine .rejected e ?_ ?_ ?_
      · rw [hrejected]
      · rw [hrejected]
      · rw [hrejected]

section Runs

instance (now : Int64) (s : NodeState) (req : SendTxRequest) (sender recipient : Address) :
    Decidable (req.Passes P now s sender recipient) :=
  decidable_of_iff (decodeHexAddress req.from = some sender.bytes.toList ∧
      decodeHexAddress req.to = some recipient.bytes.toList ∧
        req.amount + req.fee ≤ s.worldState.balance sender ∧
      req.nonce = s.worldState.nonce sender + 1 ∧
      ((sendTxBuild now req sender recipient).signature.isSome = true →
        (sendTxBuild now req sender recipient).verify P = true) ∧
      (sendTxBuild now req sender recipient).hash P ∉ s.mempool.map (·.hash P))
    ⟨fun ⟨hsender, hrecipient, hbalance, hnonce, hsignature, hnew⟩ =>
      ⟨hsender, hrecipient, hbalance, hnonce, hsignature, hnew⟩,
    fun h => ⟨h.fromBytes, h.toBytes, h.balance, h.nonce, h.signature, h.new⟩⟩

noncomputable def fromTreasury (amount fee : UInt64) (signature : Option String) : SendTxRequest :=
  ⟨(WorldState.treasuryAddr .sample).hex, (sampleAddr 7).hex, amount, fee, 1, signature, some 6⟩

noncomputable def treasurySignature (amount fee : UInt64) : String :=
  let tx := sendTxBuild 6 (fromTreasury amount fee none) (WorldState.treasuryAddr .sample) (sampleAddr 7)
  hexEncode (Primitives.sample.sign treasuryKey (tx.signingBytes .sample))

noncomputable def incompleteRequests : List SendTxRequest :=
  [fromTreasury 50 1 none, fromTreasury 50 1 (some "unsigned"),
   fromTreasury 50 0 (some (treasurySignature 50 0)),
   fromTreasury 18446744073709551615 1 (some (treasurySignature 18446744073709551615 1))]

theorem incomplete_accepted : incompleteRequests.Forall fun req =>
    ¬ req.AdmitsValid .sample (fun _ => ⟨6, 6⟩) (Node.fresh .sample 0).state := by
  have hpasses : ∀ req ∈ incompleteRequests, req.Passes .sample 6 (Node.fresh .sample 0).state
      (WorldState.treasuryAddr .sample) (sampleAddr 7) := by decide +kernel
  have hincomplete : ∀ req ∈ incompleteRequests,
      ¬ (req.amount.toNat + req.fee.toNat < 2 ^ 64 ∧ 1 ≤ req.fee.toNat ∧
      (req.signature.bind hexDecode).isSome = true) := by decide +kernel
  rw [List.forall_iff_forall_mem]
  intro req hreq hadmits
  have hcomplete := (hpasses req hreq).complete hadmits
  exact hincomplete req hreq ⟨hcomplete.sum, hcomplete.fee, hcomplete.signature⟩

end Runs

end SendTxRequest

end VelaNetwork
