import Mathlib.Data.List.Basic
import Mathlib.Data.Nat.Digits.Defs

/-!
# Byte strings and uniquely decodable encodings

Byte strings as lists, fixed-width byte arrays as subtypes, big-endian integers and length-prefixed
fields. The lemmas say that a concatenation of such fields determines its parts: each `_append_inj`
lemma peels one field off the front of two equal encodings.

* `FixedBytes n` — a Go array `[n]byte`.
* `bigEndian n v` — the low `8 * n` bits of `v`, most significant byte first.
* `lengthPrefixed b` — a big-endian `uint32` length followed by the bytes.
* `lexLt` — the byte-wise order of Go strings.
-/

namespace EsLite

/-- A byte string: a Go `string` or `[]byte`. -/
abbrev Bytes := List UInt8

-- membership in a list of byte strings is decided by comparing them
instance : LawfulBEq Bytes := inferInstanceAs (LawfulBEq (List UInt8))

/-- The bytes of a string literal. -/
def str (s : String) : Bytes := s.toUTF8.data.toList

/-- A byte array of fixed width. -/
@[ext] structure FixedBytes (n : Nat) where
  /-- The bytes of the array. -/
  bytes : Bytes
  /-- Their number is the width. -/
  length_bytes : bytes.length = n
deriving DecidableEq

namespace FixedBytes

variable {n : Nat}

attribute [simp] length_bytes

/-- The array of `n` bytes `b`. -/
def fill (n : Nat) (b : UInt8) : FixedBytes n := ⟨List.replicate n b, List.length_replicate⟩

/-- The array of `n` zero bytes. -/
def zero (n : Nat) : FixedBytes n := ⟨List.replicate n 0, List.length_replicate⟩

/-- Peel a fixed-width field off two equal encodings. -/
theorem append_inj {a b : FixedBytes n} {x y : Bytes} (h : a.bytes ++ x = b.bytes ++ y) :
    a = b ∧ x = y := by
  obtain ⟨hab, hxy⟩ := List.append_inj h (by simp)
  exact ⟨FixedBytes.ext hab, hxy⟩

end FixedBytes

/-! ## Big-endian integers -/

/-- The low `8 * n` bits of `v` as `n` bytes, most significant first. -/
def bigEndian : Nat → Nat → Bytes
  | 0, _ => []
  | n + 1, v => UInt8.ofNat (v / 256 ^ n) :: bigEndian n v

@[simp] theorem length_bigEndian (n v : Nat) : (bigEndian n v).length = n := by
  induction n with
  | zero => rfl
  | succ n ih => simp [bigEndian, ih]

/-- The bytes of a big-endian integer determine it modulo `256 ^ n`. -/
theorem bigEndian_inj_mod {n v w : Nat} (h : bigEndian n v = bigEndian n w) :
    v % 256 ^ n = w % 256 ^ n := by
  induction n with
  | zero => simp [Nat.mod_one]
  | succ n ih =>
    simp only [bigEndian, List.cons.injEq] at h
    obtain ⟨hd, tl⟩ := h
    have hd' : v / 256 ^ n % 256 = w / 256 ^ n % 256 := by
      simpa using congrArg UInt8.toNat hd
    rw [pow_succ, Nat.mod_mul, Nat.mod_mul, ih tl, hd']

/-- Peel a big-endian integer off two equal encodings. -/
theorem bigEndian_append_inj {n v w : Nat} {x y : Bytes} (hv : v < 256 ^ n) (hw : w < 256 ^ n)
    (h : bigEndian n v ++ x = bigEndian n w ++ y) : v = w ∧ x = y := by
  obtain ⟨hvw, hxy⟩ := List.append_inj h (by simp)
  have := bigEndian_inj_mod hvw
  rw [Nat.mod_eq_of_lt hv, Nat.mod_eq_of_lt hw] at this
  exact ⟨this, hxy⟩

/-- Peel a `uint64` off two equal encodings. -/
theorem bigEndian64_append_inj {v w : UInt64} {x y : Bytes}
    (h : bigEndian 8 v.toNat ++ x = bigEndian 8 w.toNat ++ y) : v = w ∧ x = y := by
  obtain ⟨hvw, hxy⟩ := bigEndian_append_inj v.toNat_lt w.toNat_lt h
  exact ⟨UInt64.toNat_inj.mp hvw, hxy⟩

/-- Peel a `uint32` off two equal encodings. -/
theorem bigEndian32_append_inj {v w : UInt32} {x y : Bytes}
    (h : bigEndian 4 v.toNat ++ x = bigEndian 4 w.toNat ++ y) : v = w ∧ x = y := by
  obtain ⟨hvw, hxy⟩ := bigEndian_append_inj v.toNat_lt w.toNat_lt h
  exact ⟨UInt32.toNat_inj.mp hvw, hxy⟩

/-- Peel an `int64`, written as the `uint64` of the same bits, off two equal encodings. -/
theorem bigEndianInt64_append_inj {v w : Int64} {x y : Bytes}
    (h : bigEndian 8 v.toUInt64.toNat ++ x = bigEndian 8 w.toUInt64.toNat ++ y) : v = w ∧ x = y := by
  obtain ⟨hvw, hxy⟩ := bigEndian64_append_inj h
  cases v
  cases w
  exact ⟨congrArg Int64.ofUInt64 hvw, hxy⟩

/-! ## Length-prefixed fields -/

/-- A field of variable length: its length as a big-endian `uint32`, then its bytes. -/
def lengthPrefixed (b : Bytes) : Bytes := bigEndian 4 b.length ++ b

@[simp] theorem length_lengthPrefixed (b : Bytes) : (lengthPrefixed b).length = 4 + b.length := by
  simp [lengthPrefixed]

/-- Peel a length-prefixed field off two equal encodings; the length must fit the prefix. -/
theorem lengthPrefixed_append_inj {a b x y : Bytes} (ha : a.length < 2 ^ 32) (hb : b.length < 2 ^ 32)
    (h : lengthPrefixed a ++ x = lengthPrefixed b ++ y) : a = b ∧ x = y := by
  simp only [lengthPrefixed, List.append_assoc] at h
  obtain ⟨hlen, h⟩ := bigEndian_append_inj (by omega) (by omega) h
  exact List.append_inj h hlen

/-! ## Lists of fields -/

/-- Peel a whole list of fields off two equal encodings: if the encoding `f` of one item can be peeled
off, recovering `g` of the item, and is never empty, then a concatenation of encodings recovers `g` of
every item. -/
theorem flatMap_inj {α β : Type} {f : α → Bytes} {g : α → β} {as bs : List α}
    (hpeel : ∀ a ∈ as, ∀ b ∈ bs, ∀ x y, f a ++ x = f b ++ y → g a = g b ∧ x = y)
    (hne : ∀ a, f a ≠ []) (h : as.flatMap f = bs.flatMap f) : as.map g = bs.map g := by
  induction as generalizing bs with
  | nil =>
    cases bs with
    | nil => rfl
    | cons b bs =>
      rw [List.flatMap_nil, List.flatMap_cons] at h
      exact absurd (List.append_eq_nil_iff.mp h.symm).1 (hne b)
  | cons a as ih =>
    cases bs with
    | nil =>
      rw [List.flatMap_nil, List.flatMap_cons] at h
      exact absurd (List.append_eq_nil_iff.mp h).1 (hne a)
    | cons b bs =>
      rw [List.flatMap_cons, List.flatMap_cons] at h
      obtain ⟨hab, hrest⟩ := hpeel a List.mem_cons_self b List.mem_cons_self _ _ h
      have htail := ih (fun x hx y hy => hpeel x (List.mem_cons_of_mem _ hx) y
        (List.mem_cons_of_mem _ hy)) hrest
      rw [List.map_cons, List.map_cons, hab, htail]

/-! ## The order of byte strings -/

/-- The byte-wise lexicographic order: Go's `<` on strings. -/
def lexLt : Bytes → Bytes → Bool
  | _, [] => false
  | [], _ :: _ => true
  | a :: as, b :: bs => a < b || (a == b && lexLt as bs)

/-- Nothing is before the empty text. -/
@[simp] theorem lexLt_nil (as : Bytes) : lexLt as [] = false := by
  cases as <;> rfl

/-- A common first byte does not decide the order. -/
@[simp] theorem lexLt_cons_self (a : UInt8) (as bs : Bytes) : lexLt (a :: as) (a :: bs) = lexLt as bs := by
  simp [lexLt]

/-- **Fields of one length**: the first field decides, and if it is the same, the rest. -/
theorem lexLt_append {a b : Bytes} (h : a.length = b.length) (x y : Bytes) :
    lexLt (a ++ x) (b ++ y) = true ↔ lexLt a b = true ∨ (a = b ∧ lexLt x y = true) := by
  induction a generalizing b with
  | nil =>
    obtain rfl : b = [] := List.length_eq_zero_iff.mp h.symm
    simp [lexLt]
  | cons c a ih =>
    obtain ⟨d, b, rfl⟩ := List.exists_cons_of_length_eq_add_one h.symm
    simp only [List.cons_append, lexLt, Bool.or_eq_true, Bool.and_eq_true, decide_eq_true_eq,
      beq_iff_eq, ih (Nat.succ.inj h), List.cons.injEq]
    tauto

end EsLite
