import Mathlib.Data.Nat.Digits.Defs

namespace Library.ByteStrings

def leBytes : ℕ → ℕ → List UInt8
  | 0, _ => []
  | w + 1, n => UInt8.ofNat (n % 256) :: leBytes w (n / 256)

def beBytes : ℕ → ℕ → List UInt8
  | 0, _ => []
  | w + 1, n => UInt8.ofNat (n / 256 ^ w) :: beBytes w (n % 256 ^ w)

@[simp] theorem leBytes_length (w n : ℕ) : (leBytes w n).length = w := by
  induction w generalizing n with
  | zero => rfl
  | succ w ih => simp [leBytes, ih]

theorem leBytes_injective {w m n : ℕ} (hm : m < 256 ^ w) (hn : n < 256 ^ w)
    (h : leBytes w m = leBytes w n) : m = n := by
  induction w generalizing m n with
  | zero => simp only [pow_zero, Nat.lt_one_iff] at hm hn; rw [hm, hn]
  | succ w ih =>
    simp only [leBytes, List.cons.injEq] at h
    have hlow : m % 256 = n % 256 := by
      have := congrArg UInt8.toNat h.1
      simpa [UInt8.toNat_ofNat'] using this
    have hhigh : m / 256 = n / 256 :=
      ih (Nat.div_lt_of_lt_mul (by rwa [pow_succ'] at hm))
        (Nat.div_lt_of_lt_mul (by rwa [pow_succ'] at hn)) h.2
    omega

theorem compare_ofNat {a b : ℕ} (ha : a < 256) (hb : b < 256) :
    compare (UInt8.ofNat a) (UInt8.ofNat b) = compare a b := by
  have hlt : UInt8.ofNat a < UInt8.ofNat b ↔ a < b := by
    rw [UInt8.lt_iff_toNat_lt, UInt8.toNat_ofNat_of_lt' ha, UInt8.toNat_ofNat_of_lt' hb]
  have heq : UInt8.ofNat a = UInt8.ofNat b ↔ a = b := by
    rw [← UInt8.toNat_inj, UInt8.toNat_ofNat_of_lt' ha, UInt8.toNat_ofNat_of_lt' hb]
  simp only [compare, compareOfLessAndEq, hlt, heq]

theorem compare_div_mod (k m n : ℕ) :
    (compare (m / k) (n / k)).then (compare (m % k) (n % k)) = compare m n := by
  rcases lt_trichotomy (m / k) (n / k) with hlt | heq | hgt
  · rw [compare_lt_iff_lt.mpr hlt, compare_lt_iff_lt.mpr (Nat.lt_of_div_lt_div hlt), Ordering.lt_then]
  · have hm := Nat.div_add_mod m k
    have hn := Nat.div_add_mod n k
    rw [heq] at hm
    rw [compare_eq_iff_eq.mpr heq, Ordering.eq_then]
    rcases lt_trichotomy (m % k) (n % k) with h | h | h
    · have hmn : m < n := by omega
      rw [compare_lt_iff_lt.mpr h, compare_lt_iff_lt.mpr hmn]
    · have hmn : m = n := by omega
      rw [compare_eq_iff_eq.mpr h, compare_eq_iff_eq.mpr hmn]
    · have hmn : n < m := by omega
      rw [compare_gt_iff_gt.mpr h, compare_gt_iff_gt.mpr hmn]
  · rw [compare_gt_iff_gt.mpr hgt, compare_gt_iff_gt.mpr (Nat.lt_of_div_lt_div hgt), Ordering.gt_then]

theorem compare_beBytes {w m n : ℕ} (hm : m < 256 ^ w) (hn : n < 256 ^ w) :
    compare (beBytes w m) (beBytes w n) = compare m n := by
  induction w generalizing m n with
  | zero =>
    simp only [pow_zero, Nat.lt_one_iff] at hm hn
    rw [hm, hn]; rfl
  | succ w ih =>
    have hpos : 0 < 256 ^ w := Nat.pow_pos (by norm_num)
    have hdm : m / 256 ^ w < 256 := Nat.div_lt_of_lt_mul (by rwa [pow_succ] at hm)
    have hdn : n / 256 ^ w < 256 := Nat.div_lt_of_lt_mul (by rwa [pow_succ] at hn)
    have htail := ih (Nat.mod_lt m hpos) (Nat.mod_lt n hpos)
    rw [← compare_div_mod (256 ^ w), ← htail, ← compare_ofNat hdm hdn]
    exact List.compareLex_cons_cons

def hexDigit (n : ℕ) : Char := if n < 10 then Char.ofNat (48 + n) else Char.ofNat (87 + n)

def hexChars : List UInt8 → List Char
  | [] => []
  | b :: bs => hexDigit (b.toNat / 16) :: hexDigit (b.toNat % 16) :: hexChars bs

def hexEncode (bs : List UInt8) : String := String.ofList (hexChars bs)

def hexValue (c : Char) : Option ℕ :=
  if '0' ≤ c ∧ c ≤ '9' then some (c.toNat - 48)
  else if 'a' ≤ c ∧ c ≤ 'f' then some (c.toNat - 87)
  else if 'A' ≤ c ∧ c ≤ 'F' then some (c.toNat - 55)
  else none

def hexBytes : List Char → Option (List UInt8)
  | [] => some []
  | [_] => none
  | hi :: lo :: rest => do
    let x ← hexValue hi
    let y ← hexValue lo
    let bs ← hexBytes rest
    return UInt8.ofNat (16 * x + y) :: bs

/-- Hexadecimal of either case; an odd length or another character is an error. -/
def hexDecode (s : String) : Option (List UInt8) := hexBytes s.toList

theorem hexValue_hexDigit {n : ℕ} (h : n < 16) : hexValue (hexDigit n) = some n := by
  have hall : ∀ m : Fin 16, hexValue (hexDigit m) = some m.val := by decide
  exact hall ⟨n, h⟩

theorem hexBytes_hexChars (bs : List UInt8) : hexBytes (hexChars bs) = some bs := by
  induction bs with
  | nil => rfl
  | cons b bs ih =>
    have hb := b.toNat_lt
    have hhi := hexValue_hexDigit (show b.toNat / 16 < 16 by omega)
    have hlo := hexValue_hexDigit (show b.toNat % 16 < 16 by omega)
    have hbyte : UInt8.ofNat (16 * (b.toNat / 16) + b.toNat % 16) = b := by
      rw [Nat.div_add_mod, UInt8.ofNat_toNat]
    simp only [hexChars, hexBytes, hhi, hlo, ih, Option.bind_eq_bind, Option.bind_some, hbyte]
    rfl

theorem hexDecode_encode (bs : List UInt8) : hexDecode (hexEncode bs) = some bs := by
  rw [hexDecode, hexEncode, String.toList_ofList, hexBytes_hexChars]

theorem hexEncode_inj {as bs : List UInt8} : hexEncode as = hexEncode bs ↔ as = bs := by
  refine ⟨fun h => Option.some.inj ?_, fun h => by rw [h]⟩
  rw [← hexDecode_encode as, ← hexDecode_encode bs, h]

end Library.ByteStrings
