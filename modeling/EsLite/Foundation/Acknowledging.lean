import Mathlib.Algebra.BigOperators.Fin
import Mathlib.Algebra.Order.BigOperators.Group.Finset
import Mathlib.Data.Finset.Lattice.Fold
import Mathlib.Data.Fintype.BigOperators

/-!
# Cumulative acknowledgements

Items are handled one after another and acknowledged in windows. A window is *claimed*: it takes what has been
handled since the last claim, up to a position. Some time later its position is *saved*, and what has been
saved only goes up. Several windows may be claimed and not saved yet, each by a party of its own, and they may
be saved in any order.

`Accounts` is what keeps the books together: whichever of the claimed windows are saved next, what then lies
above the saved position is counted among the others, or has not been claimed. So what lies above the saved
position is at most what all windows hold (`Accounts.unsaved_le`).
-/

namespace EsLite

open Finset

/-- Less lies above a higher position. -/
theorem countP_lt_anti {β : Type*} [LinearOrder β] {l : List β} {p q : β} (h : p ≤ q) :
    l.countP (fun x => q < x) ≤ l.countP (fun x => p < x) := by
  refine List.countP_mono_left (fun x _ hx => ?_)
  rw [decide_eq_true_eq] at hx ⊢
  exact lt_of_le_of_lt h hx

variable {β ι : Type*} [LinearOrder β] [OrderBot β] [Fintype ι] [DecidableEq ι]

/-- **The account of the windows.** For every set of windows: what lies above their positions and the saved one
is at most what has not been claimed and what the other windows hold. -/
def Accounts (handled : List β) (saved : β) (unclaimed : Nat) (position : ι → β) (size : ι → Nat) : Prop :=
  ∀ A : Finset ι, handled.countP (fun p => saved ⊔ A.sup position < p) ≤ unclaimed + ∑ j ∈ Aᶜ, size j

/-- What is held by all when one more holds something. -/
theorem sum_update_of_zero {size : ι → Nat} {j : ι} (hj : size j = 0) (m : Nat) :
    ∑ x, Function.update size j m x = m + ∑ x, size x := by
  rw [sum_update_of_mem (mem_univ j), ← add_sum_erase univ size (mem_univ j), hj, Nat.zero_add,
    sdiff_singleton_eq_erase]

/-- What is held by all when one holds nothing any more. -/
theorem sum_update_zero_le (size : ι → Nat) (j : ι) : ∑ x, Function.update size j 0 x ≤ ∑ x, size x := by
  refine sum_le_sum (fun x _ => ?_)
  by_cases hx : x = j
  · rw [hx, Function.update_self]
    exact Nat.zero_le _
  · rw [Function.update_of_ne hx]

namespace Accounts

variable {handled : List β} {saved : β} {unclaimed : Nat} {position position' : ι → β} {size size' : ι → Nat}

/-- **What is not saved** is unclaimed or in a window. -/
theorem unsaved_le (h : Accounts handled saved unclaimed position size) :
    handled.countP (fun p => saved < p) ≤ unclaimed + ∑ j, size j := by
  simpa using h ∅

/-- Before anything is handled. -/
theorem nil : Accounts [] saved unclaimed position size := fun _ => Nat.zero_le _

/-- The saved position goes up. -/
theorem advance (h : Accounts handled saved unclaimed position size) {saved' : β} (hle : saved ≤ saved') :
    Accounts handled saved' unclaimed position size :=
  fun A => (countP_lt_anti (sup_le_sup_right hle _)).trans (h A)

/-- One more item is handled. -/
theorem deliver (h : Accounts handled saved unclaimed position size) (p : β) :
    Accounts (p :: handled) saved (unclaimed + 1) position size := by
  intro A
  rw [List.countP_cons]
  have := h A
  split <;> omega

/-- **A window is claimed** by a party that holds none: of what is unclaimed it takes all but `rest`, which is
all that lies above its position. -/
theorem claim {rest : Nat} {j : ι} (h : Accounts handled saved (size' j + rest) position size)
    (hfree : size j = 0) (habove : handled.countP (fun p => position' j < p) ≤ rest)
    (hposition : ∀ x ≠ j, position' x = position x) (hsize : ∀ x ≠ j, size' x = size x) :
    Accounts handled saved rest position' size' := by
  intro A
  by_cases hj : j ∈ A
  · -- nothing but the rest lies above the window itself
    have hle : position' j ≤ saved ⊔ A.sup position' := (le_sup hj).trans le_sup_right
    exact (countP_lt_anti hle).trans (habove.trans (Nat.le_add_right ..))
  · -- the other windows are as they were, and this one holds what was unclaimed
    have hsup : A.sup position' = A.sup position :=
      sup_congr rfl (fun x hx => hposition x (fun hxj => hj (hxj ▸ hx)))
    have hmem : j ∈ Aᶜ := mem_compl.mpr hj
    have hsum : ∑ x ∈ Aᶜ, size' x = size' j + ∑ x ∈ Aᶜ, size x := by
      rw [← add_sum_erase _ _ hmem, ← add_sum_erase _ _ hmem, hfree, Nat.zero_add]
      exact congrArg _ (sum_congr rfl (fun x hx => hsize x (ne_of_mem_erase hx)))
    have := h A
    rw [hsup, hsum]
    omega

/-- **A window is saved.** -/
theorem settle {j : ι} (h : Accounts handled saved unclaimed position size)
    (hposition : ∀ x ≠ j, position' x = position x) (hsize : ∀ x ≠ j, size' x = size x)
    (hzero : size' j = 0) : Accounts handled (saved ⊔ position j) unclaimed position' size' := by
  intro A
  have hle : saved ⊔ (insert j A).sup position ≤ (saved ⊔ position j) ⊔ A.sup position' := by
    refine sup_le (le_sup_left.trans le_sup_left) (Finset.sup_le fun x hx => ?_)
    by_cases hxj : x = j
    · rw [hxj]
      exact le_sup_right.trans le_sup_left
    · rw [← hposition x hxj]
      exact (le_sup ((mem_insert.mp hx).resolve_left hxj)).trans le_sup_right
  have hsum : ∑ x ∈ (insert j A)ᶜ, size x ≤ ∑ x ∈ Aᶜ, size' x := by
    calc ∑ x ∈ (insert j A)ᶜ, size x = ∑ x ∈ (insert j A)ᶜ, size' x := by
          refine sum_congr rfl (fun x hx => (hsize x ?_).symm)
          rintro rfl
          exact mem_compl.mp hx (mem_insert_self x A)
      _ ≤ ∑ x ∈ Aᶜ, size' x :=
          sum_le_sum_of_subset (compl_subset_compl.mpr (subset_insert j A))
  exact (countP_lt_anti hle).trans ((h (insert j A)).trans (Nat.add_le_add_left hsum _))

end Accounts

end EsLite
