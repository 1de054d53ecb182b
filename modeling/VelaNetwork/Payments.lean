import VelaNetwork.SendTx
import VelaNetwork.Wallet

namespace VelaNetwork

open Library.ByteStrings
open Library.JavaScript

structure Transaction.Pays (tx : Transaction) (sender recipient : Address)
    (amount nonce timestamp : SafeInteger) : Prop where
  sender : tx.from = sender
  recipient : tx.to = recipient
  amount : tx.amount.toNat = amount.value
  fee : tx.fee = 1
  nonce : tx.nonce.toNat = nonce.value
  timestamp : tx.timestamp = Int64.ofNat timestamp.value
  data : tx.data = []

structure Wallet.Affords (P : Primitives) (w : Wallet) (s : NodeState)
    (amount nonce : SafeInteger) (tx : Transaction) : Prop where
  funded : amount.value + 1 ≤ (getBalance s w.address).balance.toNat
  next : nonce.value = (getBalance s w.address).nonce.toNat + 1
  new : tx.hash P ∉ s.mempool.map (·.hash P)

inductive Wallet.Delivers (P : Primitives) (N : Noble) (w : Wallet) (sender : Address)
    (toAddress digits : String)
    (amount : SafeInteger) (typed fetched : Option SafeInteger) (nonce now : SafeInteger) : Prop where
  | delivers (req : WalletRequest) (recipient : Address) (tx : Transaction)
    (sent : w.sendTx N toAddress (some amount) typed fetched now = some req)
    (parsed : SendTxRequest.ofBody req.body = some req.received)
    (written : hexDecode digits = some recipient.bytes.toList)
    (payment : tx.Pays sender recipient amount nonce now)
    (verified : tx.verify P = true)
    (answered : ∀ clock s,
      (w.Affords P s amount nonce tx →
        postSendTx P clock s req.received = (s.pushTx tx, some (accepted P tx))) ∧
        (¬ w.Affords P s amount nonce tx → ∃ e, postSendTx P clock s req.received = (s, some (.error e))))

section Received

variable {P : Primitives} {N : Noble} {key : SigningKey} {w : Wallet} {s : NodeState}
    {sender recipient : Address}
  {amount nonce : SafeInteger}

theorem toNat_ofNat_safe (n : SafeInteger) : (UInt64.ofNat n.value).toNat = n.value :=
  UInt64.toNat_ofNat_of_lt' (Nat.lt_trans n.lt_word (by decide))

theorem getBalance_of_address (s : NodeState) {address : String} {account : Address}
    (haddress : address = "vela:" ++ account.hex) :
    getBalance s address = ⟨address, s.worldState.balance account, s.worldState.nonce account⟩ := by
  have htrimmed : trimmed address = account.hex := by
    rw [haddress]
    exact (WrittenAddress.of_address account).trimmed
  unfold getBalance
  rw [balanceAddress_of_trimmed htrimmed]

theorem passes_received_iff {req : WalletRequest} {now : Int64} (hamount : req.amount = amount)
    (hfee : req.fee.value = 1) (hnonce : req.nonce = nonce) (hzero : nonce.value ≠ 0)
    (haddress : w.address = "vela:" ++ sender.hex)
    (hfrom : decodeHexAddress req.received.from = some sender.bytes.toList)
    (hto : decodeHexAddress req.received.to = some recipient.bytes.toList)
    (hverify : (sendTxBuild now req.received sender recipient).verify P = true) :
    req.received.Passes P now s sender recipient ↔
      w.Affords P s amount nonce (sendTxBuild now req.received sender recipient) := by
  have hbalance := getBalance_of_address s haddress
  have hamounts : req.received.amount.toNat = amount.value := by
    rw [← hamount]
    exact toNat_ofNat_safe req.amount
  have hfees : req.received.fee.toNat = 1 := (toNat_ofNat_safe req.fee).trans hfee
  have hnonces : req.received.nonce.toNat = nonce.value := by
    rw [← hnonce]
    exact toNat_ofNat_safe req.nonce
  have hsafe := amount.lt_word
  have hsum : (req.received.amount + req.received.fee).toNat = amount.value + 1 := by
    rw [UInt64.toNat_add, hamounts, hfees]
    omega
  have hcount := (s.worldState.nonce sender).toNat_lt
  constructor
  · intro h
    refine ⟨?_, ?_, h.new⟩
    · rw [hbalance, ← hsum]
      exact UInt64.le_iff_toNat_le.mp h.balance
    · have hnext := congrArg UInt64.toNat h.nonce
      rw [hnonces, UInt64.toNat_add, UInt64.toNat_one] at hnext
      rw [hbalance]
      dsimp only
      omega
  · intro h
    have hfunded := h.funded
    have hnext := h.next
    rw [hbalance] at hfunded hnext
    refine ⟨hfrom, hto, UInt64.le_iff_toNat_le.mpr (hsum ▸ hfunded), ?_, fun _ => hverify, h.new⟩
    apply UInt64.toNat_inj.mp
    have hword := nonce.lt_word
    rw [hnonces, UInt64.toNat_add, UInt64.toNat_one]
    dsimp only at hnext
    omega

theorem sendTxBuild_received (now now' : Int64) (req : WalletRequest) (sender recipient : Address) :
    sendTxBuild now req.received sender recipient = sendTxBuild now' req.received sender recipient := rfl

theorem sendTx_of_nonce {toAddress digits : String} (hto : WrittenAddress toAddress digits)
    (hamount : amount.value ≠ 0) {typed fetched : Option SafeInteger}
    (hnonce : (typed.filter (·.value ≠ 0)).or fetched = some nonce) (now : SafeInteger) :
    w.sendTx N toAddress (some amount) typed fetched now =
      w.signedRequest N toAddress amount ⟨1, by decide⟩ nonce now := by
  have hamounts : (some amount).filter (·.value ≠ 0) = some amount := by
    rw [Option.filter_some, if_pos (decide_eq_true hamount)]
  unfold Wallet.sendTx
  rw [hto.trim, hamounts, hnonce]
  simp only [Option.bind_eq_bind, Option.bind_some, if_neg hto.ne_empty]

theorem postSendTx_received {req : WalletRequest} {clock : ℕ → Clock} {affords : Prop}
    (hpasses : req.received.Passes P (clock 0).millis s sender recipient ↔ affords)
    (hfrom : decodeHexAddress req.received.from = some sender.bytes.toList)
    (hto : decodeHexAddress req.received.to = some recipient.bytes.toList) {tx : Transaction}
    (htx : tx = sendTxBuild (clock 0).millis req.received sender recipient) :
    (affords → postSendTx P clock s req.received = (s.pushTx tx, some (accepted P tx))) ∧
      (¬ affords → ∃ e, postSendTx P clock s req.received = (s, some (.error e))) := by
  constructor
  · intro h
    rw [SendTxRequest.postSendTx_passes (hpasses.mpr h), htx]
  · intro hnot
    apply SendTxRequest.postSendTx_fails
    intro sender' recipient' h
    have hsender : sender' = sender := by
      have hbytes := Option.some.inj (h.fromBytes.symm.trans hfrom)
      exact congrArg Address.mk (Vector.toList_inj.mp hbytes)
    have hrecipient : recipient' = recipient := by
      have hbytes := Option.some.inj (h.toBytes.symm.trans hto)
      exact congrArg Address.mk (Vector.toList_inj.mp hbytes)
    rw [hsender, hrecipient] at h
    exact hnot (hpasses.mp h)

end Received

theorem wallet_payment (P : Primitives) (N : Noble) (hhashes : N.HashesFor P) (hsigns : N.SignsFor P)
    {key : SigningKey} {w : Wallet} (hw : w.Of N key) {toAddress digits : String}
    (hto : WrittenAddress toAddress digits) {amount nonce : SafeInteger} (hamount : amount.value ≠ 0)
    (hzero : nonce.value ≠ 0) {typed fetched : Option SafeInteger}
    (hnonce : (typed.filter (·.value ≠ 0)).or fetched = some nonce) (now : SafeInteger) :
    w.Delivers P N (Address.fromPubkey P key) toAddress digits amount typed fetched nonce now := by
  obtain ⟨hpriv, haddress⟩ := hw.holds hsigns
  obtain ⟨recipient, hrecipient⟩ := hto.decode
  have hfrom : Wallet.withoutVela w.address = (Address.fromPubkey P key).hex := by
    rw [haddress, Wallet.withoutVela_append]
  obtain ⟨bytes, sig, pk, hbytes, hsig, hpk, hverify⟩ := (hsigns key (.hex w.priv) hpriv).2
    (N.blake3 (Wallet.preimage (Address.fromPubkey P key) recipient amount ⟨1, by decide⟩ nonce now))
  let req : WalletRequest :=
    ⟨w.address, toAddress, amount, ⟨1, by decide⟩, nonce, now, Wallet.bytesToHex bytes⟩
  have hsent : w.sendTx N toAddress (some amount) typed fetched now = some req :=
    (sendTx_of_nonce hto hamount hnonce now).trans (Wallet.signedRequest_eq hfrom hto hrecipient hbytes)
  have hsender : decodeHexAddress req.received.from = some (Address.fromPubkey P key).bytes.toList := by
    change decodeHexAddress w.address = _
    rw [haddress, decodeHexAddress_eq, (WrittenAddress.of_address _).trimmed]
    exact hexDecode_encode _
  have hreceiver : decodeHexAddress req.received.to = some recipient.bytes.toList := by
    change decodeHexAddress toAddress = _
    rw [decodeHexAddress_eq, hto.trimmed, hrecipient]
  have hsigned : ∀ millis,
      (sendTxBuild millis req.received (Address.fromPubkey P key) recipient).verify P = true :=
    fun millis => verify_received rfl (signingBytes_received hhashes req millis _ recipient) hsig hpk hverify
  refine .delivers req recipient (sendTxBuild 0 req.received (Address.fromPubkey P key) recipient) hsent
    (ofBody_body req) hrecipient ⟨rfl, rfl, toNat_ofNat_safe amount, rfl, toNat_ofNat_safe nonce, rfl, rfl⟩
    (hsigned 0) fun clock s => ?_
  have hpasses : req.received.Passes P (clock 0).millis s (Address.fromPubkey P key) recipient ↔ _ :=
    passes_received_iff rfl rfl rfl hzero haddress hsender hreceiver (hsigned _)
  exact postSendTx_received hpasses hsender hreceiver (sendTxBuild_received _ _ req _ _)

theorem wallet_payment_treasury :
    treasuryWallet.Delivers .sample .sample (WorldState.treasuryAddr .sample) ("vela:" ++ capitals)
      capitals ⟨50, by decide⟩ none (some ⟨1, by decide⟩) ⟨1, by decide⟩ ⟨1700000000000, by decide⟩ :=
  wallet_payment .sample .sample (fun _ => rfl) sample_signsFor (.generated rfl)
    ⟨Or.inr rfl, by decide +kernel, List.all_eq_true.mp (by decide +kernel)⟩ (by decide) (by decide) rfl _

end VelaNetwork
