import VelaNetwork.Payments

namespace VelaNetwork

open Library.ByteStrings
open Library.JavaScript

structure WalletFile where
  secretKeyHex : String
  publicKeyHex : String
  address : String
deriving DecidableEq

structure WalletFormat where
  toStringPretty : WalletFile → String
  fromStr : String → Option WalletFile

def WalletFormat.Keeps (J : WalletFormat) (wf : WalletFile) : Prop :=
  J.fromStr (J.toStringPretty wf) = some wf

inductive LoadError where
  | noFile
  | noJson
  | noHex
  | panic
deriving DecidableEq

namespace Cli

/-- `Commands::NewWallet`; `SigningKey::generate` is the argument. -/
def newWallet (P : Primitives) (signingKey : SigningKey) : WalletFile where
  secretKeyHex := hexEncode signingKey.seed.toList
  publicKeyHex := hexEncode (P.verifyingKey signingKey).toList
  address := "vela:" ++ hexEncode (P.verifyingKey signingKey).toList

/-- `copy_from_slice` panics when the secret has not 32 bytes. -/
def loadWallet (J : WalletFormat) (file : Option String) : Except LoadError (SigningKey × String) :=
  match file with
  | none => .error .noFile
  | some data =>
    match J.fromStr data with
    | none => .error .noJson
    | some wf =>
      match hexDecode wf.secretKeyHex with
      | none => .error .noHex
      | some secretBytes =>
        match bytes32 secretBytes with
        | none => .error .panic
        | some arr => .ok (⟨arr⟩, wf.address)

/-- `Commands::Balance` without an address. -/
def balance (J : WalletFormat) (file : Option String) (s : NodeState) : Except LoadError BalanceResponse :=
  (loadWallet J file).map fun loaded => getBalance s loaded.2

theorem loadWallet_iff {J : WalletFormat} {file : Option String} {key : SigningKey} {address : String} :
    loadWallet J file = .ok (key, address) ↔ ∃ data ∈ file, ∃ wf ∈ J.fromStr data,
      hexDecode wf.secretKeyHex = some key.seed.toList ∧ wf.address = address := by
  constructor
  · intro h
    unfold loadWallet at h
    cases file with
    | none => cases h
    | some data =>
      dsimp only at h
      cases hwf : J.fromStr data with
      | none => rw [hwf] at h; cases h
      | some wf =>
        rw [hwf] at h
        dsimp only at h
        cases hbytes : hexDecode wf.secretKeyHex with
        | none => rw [hbytes] at h; cases h
        | some bytes =>
          rw [hbytes] at h
          dsimp only at h
          cases harr : bytes32 bytes with
          | none => rw [harr] at h; cases h
          | some arr =>
            rw [harr] at h
            obtain ⟨rfl, rfl⟩ := Prod.mk.inj (Except.ok.inj h)
            exact ⟨data, rfl, wf, hwf, hbytes.trans (congrArg some (bytes32_iff.mp harr)), rfl⟩
  · rintro ⟨data, hdata, wf, hwf, hsecret, rfl⟩
    obtain rfl : file = some data := hdata
    unfold loadWallet
    dsimp only
    rw [show J.fromStr data = some wf from hwf]
    dsimp only
    rw [hsecret]
    dsimp only
    rw [bytes32_iff.mpr rfl]

end Cli

variable {P : Primitives} {N : Noble} {key : SigningKey}

structure Wallet.Shows (w : Wallet) (wf : WalletFile) : Prop where
  priv : w.priv = wf.secretKeyHex
  pub : w.pub = wf.publicKeyHex
  address : w.address = wf.address

theorem secret_shape (key : SigningKey) : trim (hexEncode key.seed.toList) = hexEncode key.seed.toList ∧
    (hexEncode key.seed.toList).length = 64 := by
  have hwritten := WrittenAddress.of_address ⟨key.seed⟩
  have hdigits : WrittenAddress (hexEncode key.seed.toList) (hexEncode key.seed.toList) :=
    ⟨Or.inl rfl, hwritten.length, hwritten.isHex⟩
  exact ⟨hdigits.trim, hwritten.length⟩

theorem publicKey_of_seed (hsigns : N.SignsFor P) {k : PrivateKey} (hk : k.seed = some key.seed.toList) :
    (N.getPublicKeyAsync k).map (Wallet.ofPublicKey (hexEncode key.seed.toList)) =
      some (Wallet.ofPublicKey (hexEncode key.seed.toList) (P.verifyingKey key).toList) := by
  rw [(hsigns key k hk).1, Option.map_some]

theorem ofPublicKey_shows (P : Primitives) (key : SigningKey) :
    (Wallet.ofPublicKey (hexEncode key.seed.toList) (P.verifyingKey key).toList).Shows
      (Cli.newWallet P key) :=
  ⟨rfl, Wallet.bytesToHex_eq _, congrArg ("vela:" ++ ·) (Wallet.bytesToHex_eq _)⟩

theorem one_key_one_account (P : Primitives) (J : WalletFormat) (N : Noble) (hsigns : N.SignsFor P)
    {key : SigningKey} (hJ : J.Keeps (Cli.newWallet P key)) :
    Cli.loadWallet J (some (J.toStringPretty (Cli.newWallet P key))) =
      .ok (key, "vela:" ++ (Address.fromPubkey P key).hex) ∧
      (∃ w, Wallet.importWallet N (Cli.newWallet P key).secretKeyHex = some w ∧ w.Of N key ∧
        w.Shows (Cli.newWallet P key)) ∧
      (∃ w, Wallet.generateWallet N key.seed.toList = some w ∧ w.Shows (Cli.newWallet P key)) ∧
      (∀ s, Cli.balance J (some (J.toStringPretty (Cli.newWallet P key))) s =
        .ok ⟨(Cli.newWallet P key).address, s.worldState.balance (Address.fromPubkey P key),
          s.worldState.nonce (Address.fromPubkey P key)⟩) ∧
      ∀ file key' address, Cli.loadWallet J file = .ok (key', address) ↔ ∃ data ∈ file, ∃ wf ∈ J.fromStr data,
        hexDecode wf.secretKeyHex = some key'.seed.toList ∧ wf.address = address := by
  have hload : Cli.loadWallet J (some (J.toStringPretty (Cli.newWallet P key))) =
      .ok (key, "vela:" ++ (Address.fromPubkey P key).hex) :=
    Cli.loadWallet_iff.mpr ⟨_, rfl, _, hJ, hexDecode_encode _, rfl⟩
  obtain ⟨htrim, hlength⟩ := secret_shape key
  refine ⟨hload, ?_, ?_, fun s => ?_, fun _ _ _ => Cli.loadWallet_iff⟩
  · have himport : Wallet.importWallet N (Cli.newWallet P key).secretKeyHex =
        some (Wallet.ofPublicKey (hexEncode key.seed.toList) (P.verifyingKey key).toList) := by
      unfold Wallet.importWallet
      rw [show (Cli.newWallet P key).secretKeyHex = hexEncode key.seed.toList from rfl, htrim]
      dsimp only
      rw [if_neg (Classical.not_not.mpr hlength)]
      exact publicKey_of_seed hsigns (hexDecode_encode _)
    have hsecret : hexDecode (trim (Cli.newWallet P key).secretKeyHex) = some key.seed.toList := by
      rw [show (Cli.newWallet P key).secretKeyHex = hexEncode key.seed.toList from rfl, htrim]
      exact hexDecode_encode _
    exact ⟨_, himport, .imported _ hsecret himport, ofPublicKey_shows P key⟩
  · refine ⟨_, ?_, ofPublicKey_shows P key⟩
    unfold Wallet.generateWallet
    rw [Wallet.bytesToHex_eq]
    exact publicKey_of_seed hsigns rfl
  · unfold Cli.balance
    rw [hload]
    have haddress : (Cli.newWallet P key).address = "vela:" ++ (Address.fromPubkey P key).hex := rfl
    exact congrArg Except.ok (getBalance_of_address s haddress)

section Runs

def quote : Char := Char.ofNat 34

def WalletFile.parts (wf : WalletFile) : List String :=
  ["\x7b\n  ", "secret_key_hex", ": ", wf.secretKeyHex, ",\n  ", "public_key_hex", ": ", wf.publicKeyHex,
   ",\n  ", "address",
    ": ", wf.address, "\n\x7d"]

def WalletFormat.quoted : WalletFormat where
  toStringPretty wf := String.ofList ([quote].intercalate (wf.parts.map String.toList))
  fromStr data := match (data.toList.splitOn quote).map String.ofList with
    | [_, "secret_key_hex", _, secretKeyHex, _, "public_key_hex", _, publicKeyHex, _, "address", _,
        address, _] =>
      some ⟨secretKeyHex, publicKeyHex, address⟩
    | _ => none

theorem quoted_keeps {wf : WalletFile} (h : ∀ text ∈ wf.parts, quote ∉ text.toList) :
    WalletFormat.quoted.Keeps wf := by
  have hsplit : ([quote].intercalate (wf.parts.map String.toList)).splitOn quote =
      wf.parts.map String.toList :=
    List.splitOn_intercalate _ (List.forall_mem_map.mpr h) (List.cons_ne_nil _ _)
  have hparts : (wf.parts.map String.toList).map String.ofList = wf.parts := by
    rw [List.map_map]
    exact List.map_id'' (fun _ => String.ofList_toList) _
  unfold WalletFormat.Keeps WalletFormat.quoted
  dsimp only
  rw [String.toList_ofList, hsplit, hparts]
  rfl

theorem quote_notMem_hex (bs : Bytes) : quote ∉ (hexEncode bs).toList := fun hmem =>
  absurd (isHex_hexEncode bs quote hmem) (by decide)

theorem quoted_newWallet (P : Primitives) (key : SigningKey) :
    WalletFormat.quoted.Keeps (Cli.newWallet P key) := by
  apply quoted_keeps
  have haddress : quote ∉ ("vela:" ++ hexEncode (P.verifyingKey key).toList).toList := by
    rw [String.toList_append, List.mem_append, not_or]
    exact ⟨by decide, quote_notMem_hex _⟩
  unfold WalletFile.parts
  simp only [List.forall_mem_cons]
  exact ⟨by decide, by decide, by decide, quote_notMem_hex _, by decide, by decide, by decide,
    quote_notMem_hex _, by decide, by decide, by decide, haddress, by decide, List.forall_mem_nil _⟩

theorem one_key_one_account_treasury :
    Cli.loadWallet .quoted (some (WalletFormat.quoted.toStringPretty (Cli.newWallet .sample treasuryKey))) =
        .ok (treasuryKey, "vela:" ++ (Address.fromPubkey .sample treasuryKey).hex) ∧
      (∃ w, Wallet.importWallet .sample (Cli.newWallet .sample treasuryKey).secretKeyHex = some w ∧
        w.Of .sample treasuryKey ∧
        w.Shows (Cli.newWallet .sample treasuryKey)) ∧
      (∃ w, Wallet.generateWallet .sample treasuryKey.seed.toList = some w ∧
        w.Shows (Cli.newWallet .sample treasuryKey)) ∧
      (∀ s, Cli.balance .quoted
        (some (WalletFormat.quoted.toStringPretty (Cli.newWallet .sample treasuryKey))) s =
        .ok ⟨(Cli.newWallet .sample treasuryKey).address,
          s.worldState.balance (Address.fromPubkey .sample treasuryKey),
          s.worldState.nonce (Address.fromPubkey .sample treasuryKey)⟩) ∧
      ∀ file key' address, Cli.loadWallet .quoted file = .ok (key', address) ↔
        ∃ data ∈ file, ∃ wf ∈ WalletFormat.quoted.fromStr data,
          hexDecode wf.secretKeyHex = some key'.seed.toList ∧ wf.address = address := by
  exact one_key_one_account .sample .quoted .sample sample_signsFor (quoted_newWallet .sample treasuryKey)

end Runs

end VelaNetwork
