import EsLite.Foundation.Bytes

/-! # Hexadecimal text

Two digits for each byte of a byte string. Reading the digits gives the bytes back
(`hexDecode_hexEncode`), so that no two byte strings have the same text. -/

namespace EsLite

/-- The lower-case hexadecimal digit of a value below sixteen. -/
def hexDigit (n : UInt8) : UInt8 := if n < 10 then 48 + n else 87 + n

/-- The text `hex.EncodeToString` gives. -/
def hexEncode (b : Bytes) : Bytes := b.flatMap (fun x => [hexDigit (x / 16), hexDigit (x % 16)])

/-- The value of a digit of either case. -/
def hexValue (c : UInt8) : Option UInt8 :=
  if 48 ≤ c && c ≤ 57 then some (c - 48)
  else if 97 ≤ c && c ≤ 102 then some (c - 87)
  else if 65 ≤ c && c ≤ 70 then some (c - 55)
  else none

/-- Read pairs of digits. -/
def hexDecode : Bytes → Option Bytes
  | [] => some []
  | [_] => none
  | a :: b :: rest => do
    let high ← hexValue a
    let low ← hexValue b
    let bytes ← hexDecode rest
    pure ((16 * high + low) :: bytes)

theorem length_hexEncode (b : Bytes) : (hexEncode b).length = 2 * b.length := by
  simp [hexEncode, List.length_flatMap, Nat.mul_comm]

/-- A byte is read back from its two digits. -/
theorem hexValue_hexDigit (x : UInt8) : hexValue (hexDigit (x / 16)) = some (x / 16) ∧
    hexValue (hexDigit (x % 16)) = some (x % 16) ∧ 16 * (x / 16) + x % 16 = x := by
  have hall : ∀ n < 256, hexValue (hexDigit (UInt8.ofNat n / 16)) = some (UInt8.ofNat n / 16) ∧
      hexValue (hexDigit (UInt8.ofNat n % 16)) = some (UInt8.ofNat n % 16) ∧
      16 * (UInt8.ofNat n / 16) + UInt8.ofNat n % 16 = UInt8.ofNat n := by
    decide +kernel
  have hx := hall x.toNat x.toNat_lt
  rwa [UInt8.ofNat_toNat] at hx

/-- **What was written in hexadecimal is read back.** -/
theorem hexDecode_hexEncode (b : Bytes) : hexDecode (hexEncode b) = some b := by
  induction b with
  | nil => rfl
  | cons x b ih =>
    obtain ⟨hhigh, hlow, hbyte⟩ := hexValue_hexDigit x
    have hcons : hexEncode (x :: b) = hexDigit (x / 16) :: hexDigit (x % 16) :: hexEncode b := rfl
    rw [hcons, hexDecode, hhigh, hlow, ih]
    exact congrArg (fun y => some (y :: b)) hbyte

/-- The hexadecimal text of a byte string has one reading. -/
theorem hexEncode_injective : Function.Injective hexEncode := by
  intro a b h
  rw [← Option.some_inj, ← hexDecode_hexEncode a, h, hexDecode_hexEncode]

end EsLite
