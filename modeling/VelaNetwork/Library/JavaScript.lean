import VelaNetwork.Library.ByteStrings

namespace Library.JavaScript

open Library.ByteStrings

structure SafeInteger where
  value : ℕ
  le : value ≤ 9007199254740991

theorem SafeInteger.lt_word (n : SafeInteger) : n.value < 2 ^ 63 :=
  calc
    n.value ≤ 9007199254740991 := n.le
    _ < 2 ^ 63 := by decide

section Strings

def isLineTerminator (c : Char) : Bool := c.toNat ∈ [0x0A, 0x0D, 0x2028, 0x2029]

def isWhiteSpace (c : Char) : Bool :=
  c.toNat ∈
      [0x09, 0x0A, 0x0B, 0x0C, 0x0D, 0x20, 0xA0, 0x1680, 0x2028, 0x2029, 0x202F, 0x205F, 0x3000, 0xFEFF] ∨
    0x2000 ≤ c.toNat ∧ c.toNat ≤ 0x200A

def trim (s : String) : String :=
  String.ofList ((s.toList.dropWhile isWhiteSpace).reverse.dropWhile isWhiteSpace).reverse

/-- The matches of `/.{1,2}/g`, for text in which every character is one code unit. -/
def matchPairs : List Char → List (List Char)
  | [] => []
  | [c] => if isLineTerminator c then [] else [[c]]
  | c :: d :: rest =>
    if isLineTerminator c then matchPairs (d :: rest)
    else if isLineTerminator d then [c] :: matchPairs rest
    else [c, d] :: matchPairs rest

/-- `parseInt(s, 16)`; `none` is `NaN`. -/
def parseIntHex (s : List Char) : Option ℤ :=
  let (negative, s) := match s.dropWhile isWhiteSpace with
    | '-' :: rest => (true, rest)
    | '+' :: rest => (false, rest)
    | s => (false, s)
  let s := match s with
    | '0' :: 'x' :: rest => rest
    | '0' :: 'X' :: rest => rest
    | s => s
  let digits := (s.takeWhile fun c => (hexValue c).isSome).filterMap hexValue
  if digits.isEmpty then none
  else
    let n : ℕ := digits.foldl (fun n d => 16 * n + d) 0
    some (if negative then -(n : ℤ) else n)

/-- `s.replace(pattern, '')` for a string `pattern`: the first occurrence goes. -/
def removeFirst (pattern : List Char) : List Char → List Char
  | [] => []
  | c :: rest =>
    if pattern.isPrefixOf (c :: rest) then (c :: rest).drop pattern.length else c :: removeFirst pattern rest

def toString16 (n : ℕ) : List Char := Nat.toDigits 16 n

def padStart (width : ℕ) (fill : Char) (s : List Char) : List Char := s.leftpad width fill

end Strings

section TypedArrays

def toUint8 : Option ℤ → UInt8
  | none => 0
  | some n => UInt8.ofNat (n % 256).toNat

/-- `buf.set(src, off)`; `none` is the `RangeError`. -/
def setBytes (buf : List UInt8) (off : ℕ) (src : List UInt8) : Option (List UInt8) :=
  if off + src.length ≤ buf.length then some (buf.take off ++ src ++ buf.drop (off + src.length)) else none

/-- `view.setBigUint64(off, BigInt(n), true)`. -/
def setBigUint64 (buf : List UInt8) (off n : ℕ) : Option (List UInt8) :=
  setBytes buf off (leBytes 8 (n % 2 ^ 64))

theorem setBytes_zeros {front src : List UInt8} {off k : ℕ} (hfront : front.length = off)
    (hsrc : src.length = k) (rest : ℕ) :
    setBytes (front ++ List.replicate (k + rest) 0) off src =
      some (front ++ src ++ List.replicate rest 0) := by
  subst hfront hsrc
  have hfits : front.length + src.length ≤ (front ++ List.replicate (src.length + rest) 0).length := by
    rw [List.length_append, List.length_replicate]
    omega
  have hrest : (front ++ List.replicate (src.length + rest) 0).drop (front.length + src.length) =
      List.replicate rest 0 := by
    rw [← List.drop_drop, List.drop_left, List.drop_replicate, Nat.add_sub_cancel_left]
  unfold setBytes
  rw [if_pos hfits, List.take_left, hrest]

end TypedArrays

section Hexadecimal

def hexDigits : List Char := "0123456789abcdefABCDEF".toList

theorem mem_hexDigits {c : Char} {v : ℕ} (h : hexValue c = some v) : c ∈ hexDigits := by
  have hrange : 48 ≤ c.toNat ∧ c.toNat ≤ 57 ∨ 97 ≤ c.toNat ∧ c.toNat ≤ 102 ∨ 65 ≤ c.toNat ∧ c.toNat ≤ 70 := by
    unfold hexValue at h
    split at h
    · rename_i hdigit
      exact Or.inl hdigit
    · split at h
      · rename_i hlower
        exact Or.inr (Or.inl hlower)
      · split at h
        · rename_i hupper
          exact Or.inr (Or.inr hupper)
        · cases h
  have hall : ∀ n < 128, 48 ≤ n ∧ n ≤ 57 ∨ 97 ≤ n ∧ n ≤ 102 ∨ 65 ≤ n ∧ n ≤ 70 → Char.ofNat n ∈ hexDigits := by
    decide
  rw [← Char.ofNat_toNat c]
  exact hall c.toNat (by omega) hrange

theorem forall_hexDigit {p : Char → Bool} (hall : hexDigits.all p = true) {c : Char} {v : ℕ}
    (h : hexValue c = some v) :
    p c = true :=
  List.all_eq_true.mp hall c (mem_hexDigits h)

theorem parseIntHex_pair {hi lo : Char} {x y : ℕ} (hhi : hexValue hi = some x) (hlo : hexValue lo = some y) :
    parseIntHex [hi, lo] = some ((16 * x + y : ℕ) : ℤ) := by
  have hall : hexDigits.all (fun hi => hexDigits.all fun lo =>
      parseIntHex [hi, lo] = some ((16 * (hexValue hi).getD 0 + (hexValue lo).getD 0 : ℕ) : ℤ)) = true := by
        decide +kernel
  have hpair := forall_hexDigit (forall_hexDigit hall hhi) hlo
  rw [hhi, hlo] at hpair
  exact of_decide_eq_true hpair

theorem isLineTerminator_hexDigit {c : Char} {v : ℕ} (h : hexValue c = some v) :
    isLineTerminator c = false := by
  have hall : hexDigits.all (fun c => !isLineTerminator c) = true := by decide
  rw [← Bool.not_eq_true']
  exact forall_hexDigit hall h

theorem isWhiteSpace_hexDigit {c : Char} {v : ℕ} (h : hexValue c = some v) : isWhiteSpace c = false := by
  have hall : hexDigits.all (fun c => !isWhiteSpace c) = true := by decide
  rw [← Bool.not_eq_true']
  exact forall_hexDigit hall h

theorem hexBytes_cons_cons {hi lo : Char} {rest : List Char} {bs : List UInt8}
    (h : hexBytes (hi :: lo :: rest) = some bs) :
    ∃ x y bs', hexValue hi = some x ∧ hexValue lo = some y ∧ hexBytes rest = some bs' ∧
      bs = UInt8.ofNat (16 * x + y) :: bs' := by
  rw [hexBytes] at h
  obtain ⟨x, hx, h⟩ := Option.bind_eq_some_iff.mp h
  obtain ⟨y, hy, h⟩ := Option.bind_eq_some_iff.mp h
  obtain ⟨bs', hrest, heq⟩ := Option.bind_eq_some_iff.mp h
  exact ⟨x, y, bs', hx, hy, hrest, (Option.some.inj heq).symm⟩

theorem toUint8_ofNat (n : ℕ) : toUint8 (some n) = UInt8.ofNat n := by
  unfold toUint8
  dsimp only
  rw [← Nat.cast_ofNat, ← Int.natCast_mod, Int.toNat_natCast]
  exact UInt8.toNat_inj.mp (by simp [UInt8.toNat_ofNat'])

theorem map_parseIntHex {digits : List Char} {bs : List UInt8} (h : hexBytes digits = some bs) :
    (matchPairs digits).map (fun pair => toUint8 (parseIntHex pair)) = bs := by
  induction digits using hexBytes.induct generalizing bs with
  | case1 =>
    obtain rfl := Option.some.inj h
    rfl
  | case2 c => cases h
  | case3 hi lo rest ih =>
    obtain ⟨x, y, bs', hhi, hlo, hrest, rfl⟩ := hexBytes_cons_cons h
    rw [matchPairs, isLineTerminator_hexDigit hhi, isLineTerminator_hexDigit hlo, if_neg Bool.false_ne_true,
      if_neg Bool.false_ne_true, List.map_cons, ih hrest, parseIntHex_pair hhi hlo, toUint8_ofNat]

theorem matchPairs_ne_nil {digits : List Char} {bs : List UInt8} (h : hexBytes digits = some bs)
    (hne : bs ≠ []) :
    matchPairs digits ≠ [] := by
  intro hnil
  have hmap := map_parseIntHex h
  rw [hnil] at hmap
  exact hne hmap.symm

theorem hexBytes_length {digits : List Char} {bs : List UInt8} (h : hexBytes digits = some bs) :
    digits.length = 2 * bs.length := by
  induction digits using hexBytes.induct generalizing bs with
  | case1 =>
    obtain rfl := Option.some.inj h
    rfl
  | case2 c => cases h
  | case3 hi lo rest ih =>
    obtain ⟨x, y, bs', _, _, hrest, rfl⟩ := hexBytes_cons_cons h
    rw [List.length_cons, List.length_cons, List.length_cons, ih hrest]
    omega

theorem hexBytes_isSome {digits : List Char} (h : ∀ c ∈ digits, (hexValue c).isSome = true)
    (heven : digits.length % 2 = 0) :
    ∃ bs, hexBytes digits = some bs := by
  induction digits using hexBytes.induct with
  | case1 => exact ⟨[], rfl⟩
  | case2 c => cases heven
  | case3 hi lo rest ih =>
    obtain ⟨x, hx⟩ := Option.isSome_iff_exists.mp (h hi List.mem_cons_self)
    obtain ⟨y, hy⟩ := Option.isSome_iff_exists.mp (h lo (List.mem_cons_of_mem _ List.mem_cons_self))
    rw [List.length_cons, List.length_cons] at heven
    obtain ⟨bs, hbs⟩ := ih (fun c hc => h c (List.mem_cons_of_mem _ (List.mem_cons_of_mem _ hc))) (by omega)
    refine ⟨UInt8.ofNat (16 * x + y) :: bs, ?_⟩
    rw [hexBytes, hx, hy, hbs]
    rfl

theorem padStart_toString16 (b : UInt8) :
    padStart 2 '0' (toString16 b.toNat) = [hexDigit (b.toNat / 16), hexDigit (b.toNat % 16)] := by
  have hall : ∀ n < 256, padStart 2 '0' (toString16 n) = [hexDigit (n / 16), hexDigit (n % 16)] := by
    decide +kernel
  exact hall b.toNat b.toNat_lt

theorem flatMap_toString16 (bs : List UInt8) :
    bs.flatMap (fun b => padStart 2 '0' (toString16 b.toNat)) = hexChars bs := by
  induction bs with
  | nil => rfl
  | cons b bs ih =>
    rw [List.flatMap_cons, ih, padStart_toString16]
    rfl

end Hexadecimal

section Edits

theorem removeFirst_append (pattern s : List Char) (h : pattern ≠ []) :
    removeFirst pattern (pattern ++ s) = s := by
  cases pattern with
  | nil => exact absurd rfl h
  | cons c pattern =>
    rw [List.cons_append, removeFirst, if_pos]
    · exact List.drop_left
    · exact List.isPrefixOf_iff_prefix.mpr (List.prefix_append (c :: pattern) s)

theorem removeFirst_of_notMem {pattern s : List Char} {c : Char} (hc : c ∈ pattern) (hs : c ∉ s) :
    removeFirst pattern s = s := by
  induction s with
  | nil => rfl
  | cons d rest ih =>
    have hprefix : ¬ pattern.isPrefixOf (d :: rest) = true := by
      intro h
      exact hs ((List.isPrefixOf_iff_prefix.mp h).subset hc)
    rw [removeFirst, if_neg hprefix, ih fun hrest => hs (List.mem_cons_of_mem d hrest)]

theorem trim_of_no_whiteSpace {s : String} (h : ∀ c ∈ s.toList, isWhiteSpace c = false) : trim s = s := by
  have hdrop : ∀ cs : List Char, (∀ c ∈ cs, isWhiteSpace c = false) → cs.dropWhile isWhiteSpace = cs := by
    intro cs hcs
    cases cs with
    | nil => rfl
    | cons c cs =>
        exact List.dropWhile_cons_of_neg (by rw [hcs c List.mem_cons_self]; exact Bool.false_ne_true)
  unfold trim
  rw [hdrop _ h, hdrop _ fun c hc => h c (List.mem_reverse.mp hc), List.reverse_reverse, String.ofList_toList]

end Edits

end Library.JavaScript
