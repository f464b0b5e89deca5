import EsLite.Foundation.Bytes
import EsLite.Foundation.Sorting
import Mathlib.Data.List.Lex
import Mathlib.Data.Prod.Lex

/-!
# Sorting byte strings

Go compares strings byte by byte. Read as lists of numbers, byte strings are compared in the usual
lexicographic order (`lexLt_eq`), which is linear, so lists of byte strings, and rows named by a pair of
them, have one sorted order.
-/

namespace EsLite

/-- The bytes as numbers. -/
def numbers (b : Bytes) : List Nat := b.map UInt8.toNat

theorem numbers_injective : Function.Injective numbers :=
  List.map_injective_iff.mpr (fun _ _ h => UInt8.toNat_inj.mp h)

/-- **The order of byte strings** is the lexicographic order of their numbers. -/
theorem lexLt_eq (a b : Bytes) : lexLt a b = decide (numbers a < numbers b) := by
  induction a generalizing b with
  | nil =>
    cases b with
    | nil => rfl
    | cons y b => exact (decide_eq_true (List.nil_lt_cons _ _)).symm
  | cons x a ih =>
    cases b with
    | nil => exact (decide_eq_false (List.not_lt_nil _)).symm
    | cons y b =>
      rw [lexLt, ih b, Bool.eq_iff_iff, decide_eq_true_iff, Bool.or_eq_true, Bool.and_eq_true,
        decide_eq_true_iff, decide_eq_true_iff, beq_iff_eq, UInt8.lt_iff_toNat_lt, ← UInt8.toNat_inj]
      exact List.cons_lt_cons_iff.symm

/-- Not after: the comparison that the sorts use. -/
theorem not_lexLt_eq (a b : Bytes) : (!lexLt b a) = decide (numbers a ≤ numbers b) := by
  rw [lexLt_eq, ← decide_not]
  exact decide_eq_decide.mpr not_lt

/-- **Sorting byte strings** forgets their arrangement. -/
theorem sort_eq_iff_perm {l l' : List Bytes} :
    l.mergeSort (fun a b => !lexLt b a) = l'.mergeSort (fun a b => !lexLt b a) ↔ l.Perm l' := by
  constructor
  · intro h
    exact (List.mergeSort_perm l _).symm.trans (h ▸ List.mergeSort_perm l' _)
  · intro h
    simp only [not_lexLt_eq]
    exact mergeSort_congr_perm (fun a _ b _ hab => numbers_injective hab) h

/-- The key of a row that is named by a pair of byte strings. -/
def pairNumbers (a b : Bytes) : List Nat ×ₗ List Nat := toLex (numbers a, numbers b)

theorem pairNumbers_inj {a b a' b' : Bytes} : pairNumbers a b = pairNumbers a' b' ↔ a = a' ∧ b = b' := by
  rw [pairNumbers, pairNumbers, toLex_inj, Prod.mk.injEq, numbers_injective.eq_iff,
    numbers_injective.eq_iff]

/-- **The order by two texts**: the second one decides where the first one is the same. -/
theorem not_lexLt_pair_eq (a b a' b' : Bytes) :
    (!(if a' ≠ a then lexLt a' a else lexLt b' b)) = decide (pairNumbers a b ≤ pairNumbers a' b') := by
  have hnot : decide (pairNumbers a b ≤ pairNumbers a' b') = !decide (pairNumbers a' b' < pairNumbers a b) := by
    rw [← decide_not]
    exact decide_eq_decide.mpr not_lt.symm
  rw [hnot, Bool.not_inj_iff]
  by_cases h : a' = a
  · subst h
    rw [if_neg (by simp), lexLt_eq]
    refine decide_eq_decide.mpr ?_
    simp [pairNumbers, Prod.Lex.toLex_lt_toLex]
  · have hne : numbers a' ≠ numbers a := fun heq => h (numbers_injective heq)
    rw [if_pos h, lexLt_eq]
    refine decide_eq_decide.mpr ?_
    simp [pairNumbers, Prod.Lex.toLex_lt_toLex, hne]

end EsLite
