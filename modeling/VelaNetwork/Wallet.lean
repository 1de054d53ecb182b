import VelaNetwork.Library.JavaScript
import VelaNetwork.Addresses
import VelaNetwork.Signatures

namespace VelaNetwork

open Library.ByteStrings
open Library.JavaScript

inductive PrivateKey where
  | bytes (bs : Bytes)
  | hex (text : String)

def PrivateKey.seed : PrivateKey → Option Bytes
  | .bytes bs => some bs
  | .hex text => hexDecode text

/-- What the page imports: Ed25519 and Blake3; `none` is an exception. -/
structure Noble where
  blake3 : Bytes → Bytes
  getPublicKeyAsync : PrivateKey → Option Bytes
  signAsync : Bytes → PrivateKey → Option Bytes

structure Wallet where
  priv : String
  pub : String
  address : String

structure WalletRequest where
  «from» : String
  «to» : String
  amount : SafeInteger
  fee : SafeInteger
  nonce : SafeInteger
  timestamp : SafeInteger
  signature : String

inductive JsonValue where
  | null
  | string (s : String)
  | number (n : ℕ)

abbrev JsonObject := List (String × JsonValue)

def WalletRequest.body (req : WalletRequest) : JsonObject :=
  [("from", .string req.from), ("to", .string req.to), ("amount", .number req.amount.value),
   ("fee", .number req.fee.value), ("nonce", .number req.nonce.value),
   ("timestamp", .number req.timestamp.value),
   ("signature", .string req.signature)]

namespace Wallet

def bytesToHex (b : Bytes) : String := String.ofList (b.flatMap fun x => padStart 2 '0' (toString16 x.toNat))

/-- `match` gives `null` when nothing matches, which has no `map`. -/
def hexToBytes (h : String) : Option Bytes :=
  let pairs := matchPairs h.toList
  if pairs.isEmpty then none else some (pairs.map fun b => toUint8 (parseIntHex b))

def putLE64 (view : Bytes) (offset : ℕ) (val : SafeInteger) : Option Bytes :=
  setBigUint64 view offset val.value

def withoutVela (s : String) : String := String.ofList (removeFirst "vela:".toList s.toList)

variable (N : Noble)

def signingBytes (fromHex toHex : String) (amount fee nonce timestamp : SafeInteger) : Option Bytes := do
  let fromBytes ← hexToBytes fromHex
  let toBytes ← hexToBytes toHex
  let buf := List.replicate (32 + 32 + 8 + 8 + 8 + 8) 0
  let buf ← setBytes buf 0 fromBytes
  let buf ← setBytes buf 32 toBytes
  let buf ← putLE64 buf 64 amount
  let buf ← putLE64 buf 72 fee
  let buf ← putLE64 buf 80 nonce
  let buf ← putLE64 buf 88 timestamp
  return N.blake3 buf

def signTx (privHex fromHex toHex : String) (amount fee nonce timestamp : SafeInteger) : Option String := do
  let hash ← signingBytes N fromHex toHex amount fee nonce timestamp
  let sig ← N.signAsync hash (.hex privHex)
  return bytesToHex sig

def ofPublicKey (priv : String) (pubBytes : Bytes) : Wallet where
  priv := priv
  pub := bytesToHex pubBytes
  address := "vela:" ++ bytesToHex pubBytes

/-- `ed.etc.randomBytes(32)` is the argument. -/
def generateWallet (privBytes : Bytes) : Option Wallet :=
  (N.getPublicKeyAsync (.bytes privBytes)).map (.ofPublicKey (bytesToHex privBytes))

def importWallet (importKey : String) : Option Wallet :=
  let privHex := trim importKey
  if privHex.length ≠ 64 then none else (N.getPublicKeyAsync (.hex privHex)).map (.ofPublicKey privHex)

def signedRequest (w : Wallet) («to» : String) (amount fee nonce timestamp : SafeInteger) :
    Option WalletRequest := do
  let signature ← signTx N w.priv (withoutVela w.address) (withoutVela «to») amount fee nonce timestamp
  return { «from» := w.address, «to», amount, fee, nonce, timestamp, signature }

/-- A typed number is `none` for `NaN`; `fetched` is the nonce after the one that the node reports, `none`
when it cannot be reached. -/
def sendTx (w : Wallet) (toAddress : String) (amount nonce fetched : Option SafeInteger) (now : SafeInteger) :
    Option WalletRequest := do
  let «to» := trim toAddress
  let amount ← amount.filter (·.value ≠ 0)
  if «to» = "" then none
  let nonce ← (nonce.filter (·.value ≠ 0)).or fetched
  signedRequest N w «to» amount ⟨1, by decide⟩ nonce now

end Wallet

section Body

def JsonObject.string (body : JsonObject) (field : String) : Option String :=
  match body.lookup field with
  | some (.string s) => some s
  | _ => none

def JsonObject.u64 (body : JsonObject) (field : String) : Option UInt64 :=
  match body.lookup field with
  | some (.number n) => if n < 2 ^ 64 then some (UInt64.ofNat n) else none
  | _ => none

def JsonObject.optionString (body : JsonObject) (field : String) : Option (Option String) :=
  match body.lookup field with
  | none | some .null => some none
  | some (.string s) => some (some s)
  | _ => none

def JsonObject.optionI64 (body : JsonObject) (field : String) : Option (Option Int64) :=
  match body.lookup field with
  | none | some .null => some none
  | some (.number n) => if n < 2 ^ 63 then some (some (Int64.ofNat n)) else none
  | _ => none

def SendTxRequest.ofBody (body : JsonObject) : Option SendTxRequest := do
  let «from» ← body.string "from"
  let «to» ← body.string "to"
  let amount ← body.u64 "amount"
  let fee ← body.u64 "fee"
  let nonce ← body.u64 "nonce"
  let signature ← body.optionString "signature"
  let timestamp ← body.optionI64 "timestamp"
  return { «from», «to», amount, fee, nonce, signature, timestamp }

end Body

def Noble.HashesFor (N : Noble) (P : Primitives) : Prop := ∀ data, N.blake3 data = (P.blake3 data).toList

def Noble.SignsFor (N : Noble) (P : Primitives) : Prop := ∀ (key : SigningKey) (k : PrivateKey),
  k.seed = some key.seed.toList → N.getPublicKeyAsync k = some (P.verifyingKey key).toList ∧
    ∀ msg, ∃ bytes sig pk, N.signAsync msg k = some bytes ∧ P.signatureFromSlice bytes = some sig ∧
      P.verifyingKeyFromBytes (P.verifyingKey key) = some pk ∧ P.verify pk msg sig = true

inductive Wallet.Of (N : Noble) (key : SigningKey) (w : Wallet) : Prop where
  | generated (h : generateWallet N key.seed.toList = some w)
  | imported (importKey : String)
      (hkey : hexDecode (trim importKey) = some key.seed.toList) (h : importWallet N importKey = some w)

structure WrittenAddress (text digits : String) : Prop where
  shape : text = digits ∨ text = "vela:" ++ digits
  length : digits.length = 64
  isHex : ∀ c ∈ digits.toList, (hexValue c).isSome = true

inductive SignsAlike (P : Primitives) (N : Noble) (w : Wallet) (sender : Address) (toAddress : String)
    (amount fee nonce timestamp : SafeInteger) : Prop where
  | alike (req : WalletRequest) (received : SendTxRequest) (recipient : Address)
    (sent : w.signedRequest N toAddress amount fee nonce timestamp = some req)
    (parsed : SendTxRequest.ofBody req.body = some received)
    (addresses : sendTxAddresses received = .ok (sender, recipient))
    (digest : ∀ now, Wallet.signingBytes N (Wallet.withoutVela w.address)
      (Wallet.withoutVela toAddress) amount fee nonce timestamp =
      some ((sendTxBuild now received sender recipient).signingBytes P))
    (verified : ∀ now, (sendTxBuild now received sender recipient).verify P = true)

section Texts

variable {text digits : String} {bs : Bytes}

theorem Wallet.bytesToHex_eq (bs : Bytes) : Wallet.bytesToHex bs = hexEncode bs :=
  congrArg String.ofList (flatMap_toString16 bs)

theorem Wallet.hexToBytes_of_decode (h : hexDecode text = some bs) (hne : bs ≠ []) :
    Wallet.hexToBytes text = some bs := by
  unfold Wallet.hexToBytes
  dsimp only
  rw [if_neg (by rw [List.isEmpty_iff]; exact matchPairs_ne_nil h hne), map_parseIntHex h]

theorem Wallet.withoutVela_append (s : String) : Wallet.withoutVela ("vela:" ++ s) = s := by
  unfold Wallet.withoutVela
  rw [String.toList_append, removeFirst_append _ _ (by decide), String.ofList_toList]

theorem Wallet.withoutVela_of_hex (h : ∀ c ∈ text.toList, (hexValue c).isSome = true) :
    Wallet.withoutVela text = text := by
  have hmark : 'v' ∉ text.toList := fun hmem => absurd (h 'v' hmem) (by decide)
  unfold Wallet.withoutVela
  rw [removeFirst_of_notMem (by decide) hmark, String.ofList_toList]

theorem trimVela_of_hex {s : List Char} (h : ∀ c ∈ s, (hexValue c).isSome = true) : trimVela s = s := by
  apply trimVela_of_head
  intro hhead
  exact absurd (h 'v' (List.mem_of_head? hhead)) (by decide)

theorem isHex_hexEncode (bs : Bytes) : ∀ c ∈ (hexEncode bs).toList, (hexValue c).isSome = true := by
  unfold hexEncode
  rw [String.toList_ofList]
  induction bs with
  | nil => exact List.forall_mem_nil _
  | cons b bs ih =>
    have hb := b.toNat_lt
    have hhi := hexValue_hexDigit (show b.toNat / 16 < 16 by omega)
    have hlo := hexValue_hexDigit (show b.toNat % 16 < 16 by omega)
    rw [hexChars, List.forall_mem_cons, List.forall_mem_cons, hhi, hlo]
    exact ⟨rfl, rfl, ih⟩

end Texts

namespace WrittenAddress

variable {text digits : String} {recipient : Address}

theorem decode (h : WrittenAddress text digits) :
    ∃ recipient : Address, hexDecode digits = some recipient.bytes.toList := by
  have hlength := h.length
  obtain ⟨bs, hbs⟩ := hexBytes_isSome h.isHex (by rw [String.length_toList, hlength])
  have hbytes := hexBytes_length hbs
  rw [String.length_toList, hlength] at hbytes
  exact ⟨⟨bs.toArray, by rw [List.size_toArray]; omega⟩, hbs⟩

theorem withoutVela (h : WrittenAddress text digits) : Wallet.withoutVela text = digits := by
  rcases h.shape with rfl | rfl
  · exact Wallet.withoutVela_of_hex h.isHex
  · exact Wallet.withoutVela_append digits

theorem trimmed (h : WrittenAddress text digits) : trimmed text = digits := by
  have htrim := trimVela_of_hex h.isHex
  unfold VelaNetwork.trimmed
  rcases h.shape with rfl | rfl
  · rw [htrim, String.ofList_toList]
  · rw [String.toList_append]
    change String.ofList (trimVela digits.toList) = digits
    rw [htrim, String.ofList_toList]

theorem trim (h : WrittenAddress text digits) : trim text = text := by
  have hdigits : ∀ c ∈ digits.toList, isWhiteSpace c = false := by
    intro c hc
    obtain ⟨v, hv⟩ := Option.isSome_iff_exists.mp (h.isHex c hc)
    exact isWhiteSpace_hexDigit hv
  have hmark : "vela:".toList.all (fun c => !isWhiteSpace c) = true := by decide
  apply trim_of_no_whiteSpace
  rcases h.shape with rfl | rfl
  · exact hdigits
  · rw [String.toList_append, List.forall_mem_append]
    refine ⟨fun c hc => ?_, hdigits⟩
    rw [← Bool.not_eq_true']
    exact List.all_eq_true.mp hmark c hc

theorem ne_empty (h : WrittenAddress text digits) : text ≠ "" := by
  rintro rfl
  have hlength := h.length
  rcases h.shape with hshape | hshape
  · rw [← hshape] at hlength
    cases hlength
  · have hmark := congrArg String.length hshape
    rw [String.length_append, hlength] at hmark
    cases hmark

theorem of_address (a : Address) : WrittenAddress ("vela:" ++ a.hex) a.hex where
  shape := Or.inr rfl
  length := by
    have hlength := hexBytes_length (hexDecode_encode a.bytes.toList)
    rw [Vector.length_toList, String.length_toList] at hlength
    exact hlength
  isHex := isHex_hexEncode a.bytes.toList

end WrittenAddress

section Requests

variable {P : Primitives} {N : Noble} {key : SigningKey} {w : Wallet} {sender recipient : Address}
  {toAddress digits fromHex toHex : String} {amount fee nonce timestamp : SafeInteger}

theorem bytes32_ne_nil (word : Bytes32) : word.toList ≠ [] := by
  intro hnil
  have hlength := word.length_toList
  rw [hnil] at hlength
  cases hlength

def Wallet.preimage (sender recipient : Address) (amount fee nonce timestamp : SafeInteger) : Bytes :=
  sender.bytes.toList ++ recipient.bytes.toList ++ leBytes 8 (amount.value % 2 ^ 64) ++ leBytes 8
    (fee.value % 2 ^ 64) ++
    leBytes 8 (nonce.value % 2 ^ 64) ++ leBytes 8 (timestamp.value % 2 ^ 64)

theorem Wallet.putLE64_zeros {front : Bytes} {off : ℕ} (hfront : front.length = off) (val : SafeInteger)
    (rest : ℕ) :
    Wallet.putLE64 (front ++ List.replicate (8 + rest) 0) off val =
      some (front ++ leBytes 8 (val.value % 2 ^ 64) ++ List.replicate rest 0) :=
  setBytes_zeros hfront (leBytes_length 8 _) rest

theorem Wallet.signingBytes_eq (N : Noble) (hfrom : hexDecode fromHex = some sender.bytes.toList)
    (hto : hexDecode toHex = some recipient.bytes.toList) (amount fee nonce timestamp : SafeInteger) :
    Wallet.signingBytes N fromHex toHex amount fee nonce timestamp =
      some (N.blake3 (Wallet.preimage sender recipient amount fee nonce timestamp)) := by
  have hfromBytes := Wallet.hexToBytes_of_decode hfrom (bytes32_ne_nil _)
  have htoBytes := Wallet.hexToBytes_of_decode hto (bytes32_ne_nil _)
  have h32 := sender.bytes.length_toList
  have h64 : (sender.bytes.toList ++ recipient.bytes.toList).length = 64 := by
    rw [List.length_append, h32, recipient.bytes.length_toList]
  have hnext : ∀ {front : Bytes} {off : ℕ} (n : ℕ), front.length = off →
      (front ++ leBytes 8 n).length = off + 8 := by
    intro front off n hfront
    rw [List.length_append, hfront, leBytes_length]
  have h72 := hnext (amount.value % 2 ^ 64) h64
  have h80 := hnext (fee.value % 2 ^ 64) h72
  have h88 := hnext (nonce.value % 2 ^ 64) h80
  have hsender : setBytes (List.replicate (32 + 32 + 8 + 8 + 8 + 8) 0) 0 sender.bytes.toList = _ :=
    setBytes_zeros List.length_nil h32 64
  have hrecipient := setBytes_zeros h32 recipient.bytes.length_toList 32
  have hamount := Wallet.putLE64_zeros h64 amount 24
  have hfee := Wallet.putLE64_zeros h72 fee 16
  have hnonce := Wallet.putLE64_zeros h80 nonce 8
  have htimestamp := Wallet.putLE64_zeros h88 timestamp 0
  unfold Wallet.signingBytes Wallet.preimage
  rw [hfromBytes, htoBytes]
  simp only [Option.bind_eq_bind, Option.bind_some, hsender, List.nil_append, hrecipient, hamount, hfee,
    hnonce, htimestamp, List.replicate_zero, List.append_nil]
  rfl

def WalletRequest.received (req : WalletRequest) : SendTxRequest where
  «from» := req.from
  «to» := req.to
  amount := UInt64.ofNat req.amount.value
  fee := UInt64.ofNat req.fee.value
  nonce := UInt64.ofNat req.nonce.value
  signature := some req.signature
  timestamp := some (Int64.ofNat req.timestamp.value)

theorem ofBody_body (req : WalletRequest) : SendTxRequest.ofBody req.body = some req.received := by
  have hunsigned : ∀ {field : String} {n : SafeInteger}, req.body.lookup field = some (.number n.value) →
      req.body.u64 field = some (UInt64.ofNat n.value) := by
    intro field n hfield
    have hn := n.lt_word
    unfold JsonObject.u64
    rw [hfield]
    exact if_pos (by omega)
  have hamount : req.body.u64 "amount" = some (UInt64.ofNat req.amount.value) := hunsigned rfl
  have hfee : req.body.u64 "fee" = some (UInt64.ofNat req.fee.value) := hunsigned rfl
  have hnonce : req.body.u64 "nonce" = some (UInt64.ofNat req.nonce.value) := hunsigned rfl
  have htimestamp : req.body.optionI64 "timestamp" = some (some (Int64.ofNat req.timestamp.value)) :=
    if_pos req.timestamp.lt_word
  unfold SendTxRequest.ofBody
  rw [hamount, hfee, hnonce, htimestamp]
  rfl

theorem sendTxBuild_preimage (req : WalletRequest) (now : Int64) (sender recipient : Address) :
    (sendTxBuild now req.received sender recipient).signingPreimage =
      Wallet.preimage sender recipient req.amount req.fee req.nonce req.timestamp := by
  have hunsigned : ∀ n : SafeInteger, u64LeBytes (UInt64.ofNat n.value) = leBytes 8 (n.value % 2 ^ 64) := by
    intro n
    unfold u64LeBytes
    rw [UInt64.toNat_ofNat']
  have hsigned : i64LeBytes (Int64.ofNat req.timestamp.value) = leBytes 8 (req.timestamp.value % 2 ^ 64) := by
    unfold i64LeBytes
    rw [Int64.toBitVec_ofNat', BitVec.toNat_ofNat]
  change sender.bytes.toList ++ recipient.bytes.toList ++ u64LeBytes (UInt64.ofNat req.amount.value) ++
    u64LeBytes (UInt64.ofNat req.fee.value) ++ u64LeBytes (UInt64.ofNat req.nonce.value) ++
    i64LeBytes (Int64.ofNat req.timestamp.value) ++ [] = _
  rw [hunsigned, hunsigned, hunsigned, hsigned, List.append_nil]
  rfl

theorem Wallet.Of.holds (hsigns : N.SignsFor P) (h : w.Of N key) :
    hexDecode w.priv = some key.seed.toList ∧ w.address = "vela:" ++ (Address.fromPubkey P key).hex := by
  have hpublic : ∀ k : PrivateKey, k.seed = some key.seed.toList →
      N.getPublicKeyAsync k = some (Address.fromPubkey P key).bytes.toList := fun k hk => (hsigns key k hk).1
  cases h with
  | generated hgenerated =>
    unfold Wallet.generateWallet at hgenerated
    rw [hpublic _ rfl, Wallet.bytesToHex_eq] at hgenerated
    obtain rfl := Option.some.inj hgenerated
    exact ⟨hexDecode_encode _, congrArg ("vela:" ++ ·) (Wallet.bytesToHex_eq _)⟩
  | imported importKey hkey himported =>
    unfold Wallet.importWallet at himported
    dsimp only at himported
    split at himported
    · cases himported
    · rw [hpublic (.hex (trim importKey)) hkey] at himported
      obtain rfl := Option.some.inj himported
      exact ⟨hkey, congrArg ("vela:" ++ ·) (Wallet.bytesToHex_eq _)⟩

theorem signingBytes_received (hhashes : N.HashesFor P) (req : WalletRequest) (now : Int64)
    (sender recipient : Address) :
    (sendTxBuild now req.received sender recipient).signingBytes P =
      N.blake3 (Wallet.preimage sender recipient req.amount req.fee req.nonce req.timestamp) := by
  unfold Transaction.signingBytes
  rw [sendTxBuild_preimage, hhashes]

theorem Wallet.signedRequest_eq (hsender : Wallet.withoutVela w.address = sender.hex)
    (hto : WrittenAddress toAddress digits) (hrecipient : hexDecode digits = some recipient.bytes.toList)
    {bytes : Bytes} (hsign : N.signAsync
      (N.blake3 (Wallet.preimage sender recipient amount fee nonce timestamp)) (.hex w.priv) = some bytes) :
    w.signedRequest N toAddress amount fee nonce timestamp =
      some ⟨w.address, toAddress, amount, fee, nonce, timestamp, Wallet.bytesToHex bytes⟩ := by
  have hdigest :=
    Wallet.signingBytes_eq N (hexDecode_encode sender.bytes.toList) hrecipient amount fee nonce timestamp
  unfold Wallet.signedRequest Wallet.signTx
  rw [hsender, hto.withoutVela]
  unfold Address.hex
  rw [hdigest]
  simp only [Option.bind_eq_bind, Option.bind_some, hsign]
  rfl

theorem verify_received {msg bytes sig : Bytes} {pk : Bytes32} {req : WalletRequest} {now : Int64}
    (hsignature : req.signature = Wallet.bytesToHex bytes)
    (hmsg : (sendTxBuild now req.received sender recipient).signingBytes P = msg)
    (hsig : P.signatureFromSlice bytes = some sig) (hpk : P.verifyingKeyFromBytes sender.bytes = some pk)
    (hverify : P.verify pk msg sig = true) :
    (sendTxBuild now req.received sender recipient).verify P = true := by
  have hbytes : (sendTxBuild now req.received sender recipient).signature = some bytes := by
    change hexDecode req.signature = some bytes
    rw [hsignature, Wallet.bytesToHex_eq, hexDecode_encode]
  have hfrom : (sendTxBuild now req.received sender recipient).from = sender := rfl
  unfold Transaction.verify
  rw [hbytes, hmsg, hfrom]
  dsimp only
  rw [hsig, hpk]
  exact hverify

end Requests

theorem wallet_signs_alike (P : Primitives) (N : Noble) (hhashes : N.HashesFor P) (hsigns : N.SignsFor P)
    {key : SigningKey} {w : Wallet} (hw : w.Of N key) {toAddress digits : String}
    (hto : WrittenAddress toAddress digits) (amount fee nonce timestamp : SafeInteger) :
    SignsAlike P N w (Address.fromPubkey P key) toAddress amount fee nonce timestamp := by
  obtain ⟨hpriv, haddress⟩ := hw.holds hsigns
  obtain ⟨recipient, hrecipient⟩ := hto.decode
  have hsender := hexDecode_encode (Address.fromPubkey P key).bytes.toList
  have hfrom : Wallet.withoutVela w.address = (Address.fromPubkey P key).hex := by
    rw [haddress, Wallet.withoutVela_append]
  obtain ⟨bytes, sig, pk, hbytes, hsig, hpk, hverify⟩ := (hsigns key (.hex w.priv) hpriv).2
    (N.blake3 (Wallet.preimage (Address.fromPubkey P key) recipient amount fee nonce timestamp))
  let req : WalletRequest := ⟨w.address, toAddress, amount, fee, nonce, timestamp, Wallet.bytesToHex bytes⟩
  refine .alike req req.received recipient (Wallet.signedRequest_eq hfrom hto hrecipient hbytes)
    (ofBody_body req) ?_ ?_ ?_
  · rw [sendTxAddresses_iff, decodeHexAddress_eq, decodeHexAddress_eq]
    change hexDecode (trimmed w.address) = _ ∧ hexDecode (trimmed toAddress) = _
    rw [haddress, (WrittenAddress.of_address _).trimmed, hto.trimmed]
    exact ⟨hsender, hrecipient⟩
  · intro now
    rw [signingBytes_received hhashes, hfrom, hto.withoutVela]
    exact Wallet.signingBytes_eq N hsender hrecipient amount fee nonce timestamp
  · intro now
    exact verify_received rfl (signingBytes_received hhashes req now _ recipient) hsig hpk hverify

section Runs

noncomputable def Noble.sample : Noble where
  blake3 data := (Primitives.sample.blake3 data).toList
  getPublicKeyAsync k := k.seed
  signAsync msg k := k.seed.map (· ++ msg)

theorem sample_signsFor : Noble.sample.SignsFor .sample := by
  intro key k hseed
  refine ⟨hseed, fun msg => ⟨key.seed.toList ++ msg, _, _, ?_, rfl, rfl, ?_⟩⟩
  · change k.seed.map (· ++ msg) = _
    rw [hseed]
    rfl
  · exact decide_eq_true rfl

noncomputable def treasuryWallet : Wallet :=
  .ofPublicKey (Wallet.bytesToHex treasuryKey.seed.toList) treasuryKey.seed.toList

theorem wallet_signs_treasury :
    SignsAlike .sample .sample treasuryWallet (WorldState.treasuryAddr .sample) ("vela:" ++ capitals)
      ⟨50, by decide⟩ ⟨1, by decide⟩ ⟨1, by decide⟩ ⟨1700000000000, by decide⟩ :=
  wallet_signs_alike .sample .sample (fun _ => rfl) sample_signsFor (.generated rfl)
    ⟨Or.inr rfl, by decide +kernel, List.all_eq_true.mp (by decide +kernel)⟩ _ _ _ _

end Runs

end VelaNetwork
