import VelaNetwork.Queries
import VelaNetwork.Sample
import Mathlib.Data.Set.Function

namespace VelaNetwork

open Library.ByteStrings

variable (P : Primitives)

def accountEntries (s : NodeState) (a : Address) : List TxEntry := s.blocks.flatMap fun block =>
  (block.transactions.filter fun tx => tx.from = a ∨ tx.to = a).map (txEntry P block)

structure Treats (text : String) (a : Address) : Prop where
  balance : ∀ s, (getBalance s text).balance = s.worldState.balance a ∧
    (getBalance s text).nonce = s.worldState.nonce a
  transactions : ∀ s, (getTransactions P s text).transactions = accountEntries P s a
  faucet : faucetRecipient text = .ok a
  sendTx : ∀ (req : SendTxRequest) (b : Address),
    sendTxAddresses { req with «from» := text, «to» := b.hex } = .ok (a, b) ∧
      sendTxAddresses { req with «from» := b.hex, «to» := text } = .ok (b, a)

structure Unread (text : String) : Prop where
  balance : ∀ s s', (getBalance s text).balance = (getBalance s' text).balance ∧
    (getBalance s text).nonce = (getBalance s' text).nonce
  transactions : ∀ s, (getTransactions P s text).transactions = []
  faucet : ∀ a, faucetRecipient text ≠ .ok a
  sendTx : ∀ (req : SendTxRequest) (other : String) (p : Address × Address),
    sendTxAddresses { req with «from» := text, «to» := other } ≠ .ok p ∧
      sendTxAddresses { req with «from» := other, «to» := text } ≠ .ok p

structure SameAnswers (text text' : String) : Prop where
  balance : ∀ s, (getBalance s text).balance = (getBalance s text').balance ∧
    (getBalance s text).nonce = (getBalance s text').nonce
  transactions : ∀ s, (getTransactions P s text).transactions = (getTransactions P s text').transactions
  faucet : ∀ clock s, (postFaucet P clock s text).2 = (postFaucet P clock s text').2
  sender : ∀ clock s (req : SendTxRequest),
    (postSendTx P clock s { req with «from» := text }).2 =
      (postSendTx P clock s { req with «from» := text' }).2
  recipient : ∀ clock s (req : SendTxRequest),
    (postSendTx P clock s { req with «to» := text }).2 = (postSendTx P clock s { req with «to» := text' }).2

/-- One partial function tells what every endpoint takes these strings for. -/
def OneReading (texts : Set String) : Prop := ∃ read : String → Option Address,
  (∀ text ∈ texts, match read text with
    | some a => Treats P text a
    | none => Unread P text) ∧
  ∀ text ∈ texts, ∀ text' ∈ texts, ∀ a, read text = some a → read text' = some a → SameAnswers P text text'

variable {P} {texts : Set String} {text text' : String} {a : Address}

theorem sendTxAddresses_of_trimmed {req : SendTxRequest} {sender recipient : Address}
    (hfrom : trimmed req.from = sender.hex) (hto : trimmed req.to = recipient.hex) :
    sendTxAddresses req = .ok (sender, recipient) :=
  sendTxAddresses_iff.mpr ⟨decodeHexAddress_of_trimmed hfrom, decodeHexAddress_of_trimmed hto⟩

theorem treats_of_trimmed (h : trimmed text = a.hex) : Treats P text a where
  balance := by
    intro s
    unfold getBalance
    rw [balanceAddress_of_trimmed h]
    exact ⟨rfl, rfl⟩
  transactions := by
    intro s
    unfold getTransactions accountEntries
    simp only [h, Address.hex_inj]
  faucet := faucetRecipient_iff.mpr (decodeHexAddress_of_trimmed h)
  sendTx := by
    intro req b
    exact ⟨sendTxAddresses_of_trimmed h (trimmed_hex b), sendTxAddresses_of_trimmed (trimmed_hex b) h⟩

theorem Treats.trimmed_eq (h : Treats P text a) : trimmed text = a.hex := by
  have hshown :=
    h.transactions
      (.newWithState [Block.new P 0 0 Hash.zero [Transaction.new 0 a a 0 0 0] Address.zero 0] .new)
  have hself : (Transaction.new 0 a a 0 0 0).from = a ∧ (Transaction.new 0 a a 0 0 0).to = a := ⟨rfl, rfl⟩
  unfold getTransactions accountEntries at hshown
  simp only [NodeState.newWithState, Block.new, List.flatMap_cons, List.flatMap_nil, List.append_nil,
    List.filter_cons, List.filter_nil, hself, or_self, decide_true, if_true] at hshown
  split at hshown
  · rename_i htext
    exact (of_decide_eq_true htext).symm
  · cases hshown

theorem not_unread (text : String) : ¬ Unread P text := by
  intro h
  have hsame := (h.balance (.newWithState [] .new) (.newWithState [] { WorldState.new with
    accounts := Finmap.insert (balanceAddress text).hex ⟨balanceAddress text, 1, 0⟩ ∅ })).1
  unfold getBalance WorldState.balance at hsame
  simp only [NodeState.newWithState, WorldState.new, Finmap.lookup_insert, Finmap.lookup_empty] at hsame
  have hzero : (0 : UInt64) = 1 := hsame
  exact absurd hzero (by decide)

theorem SameAnswers.eq_of_recipient (h : SameAnswers P text text')
    (hrecipient : faucetRecipient text' = .ok a) :
    text = text' := by
  by_contra hne
  let s : NodeState := .newWithState [] (WorldState.new.markFaucet 0 text)
  have hmarked : faucetCooldown 0 s text =
      .error ⟨.tooManyRequests, "Faucet cooldown: 24 hours between requests"⟩ := by
    unfold faucetCooldown WorldState.canFaucet
    rw [show s.worldState.faucetLast.lookup text = some 0 from Finmap.lookup_insert _]
    rfl
  have hother : faucetCooldown 0 s text' = .ok () := by
    unfold faucetCooldown WorldState.canFaucet
    rw [show s.worldState.faucetLast.lookup text' = none from Finmap.lookup_insert_of_ne _ (Ne.symm hne)]
    rfl
  have hanswers := h.faucet (fun _ => ⟨0, 0⟩) s
  rw [postFaucet_eq, postFaucet_eq] at hanswers
  dsimp only at hanswers
  rw [hmarked, hother] at hanswers
  dsimp only at hanswers
  rw [hrecipient] at hanswers
  cases hanswers

theorem OneReading.written (h : OneReading P texts) (htext : text ∈ texts) :
    ∃ a : Address, trimmed text = a.hex := by
  obtain ⟨read, htreats, _⟩ := h
  have hthis := htreats text htext
  cases hread : read text with
  | none =>
    rw [hread] at hthis
    exact absurd hthis (not_unread text)
  | some a =>
    rw [hread] at hthis
    exact ⟨a, hthis.trimmed_eq⟩

theorem OneReading.injOn (h : OneReading P texts) : Set.InjOn trimmed texts := by
  intro text htext text' htext' heq
  obtain ⟨a, ha⟩ := h.written htext
  obtain ⟨read, htreats, hsame⟩ := h
  have hread : ∀ t ∈ texts, trimmed t = a.hex → read t = some a := by
    intro t ht hta
    have hthis := htreats t ht
    cases hrt : read t with
    | none =>
      rw [hrt] at hthis
      exact absurd hthis (not_unread t)
    | some b =>
      rw [hrt] at hthis
      rw [Address.hex_inj.mp (hthis.trimmed_eq.symm.trans hta)]
  have htrimmed' : trimmed text' = a.hex := heq.symm.trans ha
  have hanswers := hsame text htext text' htext' a (hread text htext ha) (hread text' htext' htrimmed')
  exact hanswers.eq_of_recipient (faucetRecipient_iff.mpr (decodeHexAddress_of_trimmed htrimmed'))

def readAddress (text : String) : Option Address := (faucetRecipient text).toOption

theorem readAddress_of_trimmed (h : trimmed text = a.hex) : readAddress text = some a := by
  unfold readAddress
  rw [faucetRecipient_iff.mpr (decodeHexAddress_of_trimmed h)]
  rfl

theorem one_reading_iff (P : Primitives) (texts : Set String) :
    OneReading P texts ↔ (∀ text ∈ texts, ∃ a : Address, trimmed text = a.hex) ∧ Set.InjOn trimmed texts := by
  constructor
  · intro h
    exact ⟨fun text htext => h.written htext, h.injOn⟩
  · rintro ⟨hwritten, hinj⟩
    refine ⟨readAddress, fun text htext => ?_, fun text htext text' htext' a ha ha' => ?_⟩
    · obtain ⟨a, ha⟩ := hwritten text htext
      rw [readAddress_of_trimmed ha]
      exact treats_of_trimmed ha
    · obtain ⟨b, hb⟩ := hwritten text htext
      obtain ⟨b', hb'⟩ := hwritten text' htext'
      rw [readAddress_of_trimmed hb] at ha
      rw [readAddress_of_trimmed hb'] at ha'
      have hsame : b = b' := Option.some.inj (ha.trans ha'.symm)
      have htexts : text = text' := hinj htext htext' (by rw [hb, hb', hsame])
      rw [htexts]
      exact ⟨fun _ => ⟨rfl, rfl⟩, fun _ => rfl, fun _ _ => rfl, fun _ _ _ => rfl, fun _ _ _ => rfl⟩

section Runs

theorem encode_decode_of_trimmed (h : trimmed text = a.hex) :
    (decodeHexAddress text).map hexEncode = some (trimmed text) := by
  rw [decodeHexAddress_of_trimmed h, h]
  rfl

def capitals : String := "FACE" ++ String.ofList (List.replicate 58 '0') ++ "01"

theorem endpoints_disagree : ¬ OneReading .sample Set.univ ∧ ¬ OneReading .sample {"nobody"} ∧
    ¬ OneReading .sample {capitals} ∧
      ¬ OneReading .sample {(sampleAddr 8).hex, "vela:" ++ (sampleAddr 8).hex} := by
  have hnobody : ∀ texts : Set String, "nobody" ∈ texts → ¬ OneReading .sample texts := by
    intro texts hmem h
    obtain ⟨a, ha⟩ := h.written hmem
    exact absurd (encode_decode_of_trimmed ha) (by decide +kernel)
  refine ⟨hnobody _ (Set.mem_univ _), hnobody _ rfl, fun h => ?_, fun h => ?_⟩
  · obtain ⟨a, ha⟩ := h.written rfl
    exact absurd (encode_decode_of_trimmed ha) (by decide +kernel)
  · have heq := h.injOn (Set.mem_insert _ _) (Set.mem_insert_of_mem _ rfl) (by decide +kernel)
    exact absurd heq (by decide +kernel)

end Runs

end VelaNetwork
