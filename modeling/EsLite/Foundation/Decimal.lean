import EsLite.Foundation.Bytes
import Mathlib.Data.Nat.Log

/-!
# Decimal numerals

Numbers as ASCII digits: `digits w n` writes the last `w` digits of `n`, `padded w n` pads `n` with
zeros to at least `w` digits, and `decimalValue` reads digits back. What was written in a field that
is wide enough is read back (`decimalValue_digits`), and fields of one width are in the order of the
numbers (`lexLt_digits`).
-/

namespace EsLite

/-- The ASCII byte of a decimal digit. -/
def digit (d : Nat) : UInt8 := UInt8.ofNat (48 + d % 10)

/-- An ASCII digit. -/
def isDigit (b : UInt8) : Bool := 48 ≤ b && b ≤ 57

/-- The value of an ASCII digit. -/
def digitValue (b : UInt8) : Nat := b.toNat - 48

theorem isDigit_digit (d : Nat) : isDigit (digit d) = true := by
  have hd : d % 10 < 10 := Nat.mod_lt _ (by decide)
  have hn : (digit d).toNat = 48 + d % 10 := UInt8.toNat_ofNat_of_lt' (by simp [UInt8.size]; omega)
  simp only [isDigit, Bool.and_eq_true, decide_eq_true_eq, UInt8.le_iff_toNat_le, hn]
  exact ⟨by simp, by simp; omega⟩

@[simp] theorem digitValue_digit (d : Nat) : digitValue (digit d) = d % 10 := by
  have hd : d % 10 < 10 := Nat.mod_lt _ (by decide)
  have hn : (digit d).toNat = 48 + d % 10 := UInt8.toNat_ofNat_of_lt' (by simp [UInt8.size]; omega)
  rw [digitValue, hn, Nat.add_sub_cancel_left]

/-- The last `w` decimal digits of `n`, most significant first. -/
def digits : Nat → Nat → Bytes
  | 0, _ => []
  | w + 1, n => digits w (n / 10) ++ [digit n]

@[simp] theorem length_digits (w n : Nat) : (digits w n).length = w := by
  induction w generalizing n with
  | zero => rfl
  | succ w ih => simp [digits, ih]

theorem isDigit_of_mem_digits {w n : Nat} {b : UInt8} (h : b ∈ digits w n) : isDigit b = true := by
  induction w generalizing n with
  | zero => cases h
  | succ w ih =>
    rcases List.mem_append.mp h with h | h
    · exact ih h
    · rw [List.mem_singleton.mp h]
      exact isDigit_digit n

/-- `n` in decimal, with zeros in front up to `w` digits. -/
def padded (w n : Nat) : Bytes := digits (max w (Nat.log 10 n + 1)) n

/-- A number that fits the field is written in exactly its width. -/
theorem padded_eq_digits {w n : Nat} (hw : w ≠ 0) (hn : n < 10 ^ w) : padded w n = digits w n := by
  have hlog : Nat.log 10 n < w := Nat.log_lt_of_lt_pow' hw hn
  rw [padded, max_eq_left hlog]

/-- A number that does not fit is written in more digits. -/
theorem lt_length_padded {w n : Nat} (hn : 10 ^ w ≤ n) : w < (padded w n).length := by
  have hlog : w ≤ Nat.log 10 n := Nat.le_log_of_pow_le (by decide) hn
  rw [padded, length_digits]
  omega

theorem isDigit_of_mem_padded {w n : Nat} {b : UInt8} (h : b ∈ padded w n) : isDigit b = true :=
  isDigit_of_mem_digits h

/-- The number that digits write, continuing from the digits read so far. -/
def valueFrom (acc : Nat) (bs : Bytes) : Nat := bs.foldl (fun acc b => 10 * acc + digitValue b) acc

/-- Read a numeral: `none` when a byte is no digit. -/
def decimalValue (bs : Bytes) : Option Nat := if bs.all isDigit then some (valueFrom 0 bs) else none

theorem valueFrom_digits (acc w n : Nat) : valueFrom acc (digits w n) = acc * 10 ^ w + n % 10 ^ w := by
  induction w generalizing n with
  | zero => simp [digits, valueFrom, Nat.mod_one]
  | succ w ih =>
    have hlast : valueFrom acc (digits (w + 1) n) =
        10 * valueFrom acc (digits w (n / 10)) + n % 10 := by
      simp [digits, valueFrom, List.foldl_append]
    rw [hlast, ih, Nat.pow_succ', Nat.mod_mul]
    ring

/-- **What was written is read back**, up to the width of the field. -/
theorem decimalValue_digits {w n : Nat} (hn : n < 10 ^ w) : decimalValue (digits w n) = some n := by
  have hall : (digits w n).all isDigit = true := List.all_eq_true.mpr fun b => isDigit_of_mem_digits
  rw [decimalValue, if_pos hall, valueFrom_digits, Nat.zero_mul, Nat.zero_add, Nat.mod_eq_of_lt hn]

/-! ## Order -/

theorem toNat_digit (d : Nat) : (digit d).toNat = 48 + d % 10 := by
  have hd : d % 10 < 10 := Nat.mod_lt _ (by decide)
  exact UInt8.toNat_ofNat_of_lt' (by simp [UInt8.size]; omega)

/-- The sign is before every digit. -/
theorem hyphen_lt_of_isDigit {b : UInt8} (h : isDigit b = true) : 45 < b := by
  simp only [isDigit, Bool.and_eq_true, decide_eq_true_eq, UInt8.le_iff_toNat_le] at h
  rw [UInt8.lt_iff_toNat_lt]
  exact Nat.lt_of_lt_of_le (by decide) h.1

/-- A wide enough field determines its number. -/
theorem digits_inj {w m n : Nat} (hm : m < 10 ^ w) (hn : n < 10 ^ w) :
    digits w m = digits w n ↔ m = n := by
  refine ⟨fun h => ?_, fun h => h ▸ rfl⟩
  have hread := decimalValue_digits hm
  rw [h, decimalValue_digits hn] at hread
  exact (Option.some.inj hread).symm

/-- **The order of numerals** in fields of one width is that of the numbers. -/
theorem lexLt_digits {w m n : Nat} (hm : m < 10 ^ w) (hn : n < 10 ^ w) :
    lexLt (digits w m) (digits w n) = true ↔ m < n := by
  induction w generalizing m n with
  | zero =>
    rw [Nat.pow_zero] at hm hn
    simp only [digits, lexLt, Bool.false_eq_true, false_iff]
    omega
  | succ w ih =>
    rw [Nat.pow_succ] at hm hn
    have hm' : m / 10 < 10 ^ w := by omega
    have hn' : n / 10 < 10 ^ w := by omega
    have hlast : lexLt [digit m] [digit n] = true ↔ m % 10 < n % 10 := by
      simp only [lexLt, Bool.and_false, Bool.or_false, decide_eq_true_eq, UInt8.lt_iff_toNat_lt,
        toNat_digit]
      omega
    rw [digits, digits, lexLt_append (by simp), ih hm' hn', digits_inj hm' hn', hlast]
    omega

/-- A numeral and what follows it: the number decides, and then the rest. -/
theorem lexLt_digits_append {w m n : Nat} (hm : m < 10 ^ w) (hn : n < 10 ^ w) (x y : Bytes) :
    lexLt (digits w m ++ x) (digits w n ++ y) = true ↔ m < n ∨ (m = n ∧ lexLt x y = true) := by
  rw [lexLt_append (by simp), lexLt_digits hm hn, digits_inj hm hn]

/-- The leading digits of a numeral, and the others. -/
theorem digits_add (v w n : Nat) : digits (v + w) n = digits v (n / 10 ^ w) ++ digits w n := by
  induction w generalizing n with
  | zero => simp [digits]
  | succ w ih =>
    rw [← Nat.add_assoc, digits, ih, digits, List.append_assoc, Nat.div_div_eq_div_mul, Nat.pow_succ']

end EsLite
