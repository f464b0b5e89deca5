import Mathlib.Data.List.Nodup
import Mathlib.Order.Lattice

/-!
# Sorting by a key

`ORDER BY` a key: rows with distinct keys have one sorted order, so any arrangement of them in that
order is the result (`mergeSort_eq_of_perm`) and sorting forgets how they were arranged before
(`mergeSort_congr_perm`), rows with later keys come out at the end
(`mergeSort_append_of_lt`), and rows can be picked before or after (`mergeSort_filter`). Rows in the
order of a key are cut at a bound of that key (`filter_le_eq_take`).
-/

namespace EsLite

variable {α β : Type*} [LinearOrder β] {f : α → β}

/-- In a list that is sorted by its keys, a key belongs to one element. -/
theorem eq_of_pairwise_key {l : List α} (h : l.Pairwise (fun a b => f a < f b)) {a b : α} (ha : a ∈ l)
    (hb : b ∈ l) (hab : f a = f b) : a = b := by
  have hnodup : (l.map f).Nodup := List.pairwise_map.mpr (h.imp fun hlt => hlt.ne)
  exact (List.nodup_map_iff_inj_on (List.Nodup.of_map f hnodup)).mp hnodup a ha b hb hab

/-- What sorting gives is in the order of the keys. -/
theorem pairwise_le_mergeSort (l : List α) :
    (l.mergeSort (fun a b => decide (f a ≤ f b))).Pairwise (fun a b => f a ≤ f b) := by
  have hsorted : (l.mergeSort (fun a b => decide (f a ≤ f b))).Pairwise
      (fun a b => decide (f a ≤ f b) = true) := by
    apply List.pairwise_mergeSort
    · intro a b c hab hbc
      exact decide_eq_true ((of_decide_eq_true hab).trans (of_decide_eq_true hbc))
    · intro a b
      rcases le_total (f a) (f b) with h | h <;> simp [h]
  exact hsorted.imp of_decide_eq_true

/-- With distinct keys the order is strict. -/
theorem pairwise_lt_mergeSort {l : List α} (h : (l.map f).Nodup) :
    (l.mergeSort (fun a b => decide (f a ≤ f b))).Pairwise (fun a b => f a < f b) := by
  have hperm : (l.mergeSort (fun a b => decide (f a ≤ f b))).Perm l := List.mergeSort_perm _ _
  have hnodup : ((l.mergeSort (fun a b => decide (f a ≤ f b))).map f).Nodup :=
    (hperm.map f).nodup_iff.mpr h
  exact (pairwise_le_mergeSort l).imp₂ (fun a b hle hne => lt_of_le_of_ne hle hne)
    (List.pairwise_map.mp hnodup)

/-- **Distinct keys have one order**: a rearrangement in the order of the keys is what sorting gives. -/
theorem mergeSort_eq_of_perm {l l' : List α} (hperm : l'.Perm l)
    (hsorted : l'.Pairwise (fun a b => f a < f b)) :
    l.mergeSort (fun a b => decide (f a ≤ f b)) = l' := by
  have hanti : ∀ a b, a ∈ l.mergeSort (fun a b => decide (f a ≤ f b)) → b ∈ l' → f a ≤ f b →
      f b ≤ f a → a = b := by
    intro a b ha hb hab hba
    have ha' : a ∈ l' := hperm.mem_iff.mpr ((List.mergeSort_perm _ _).mem_iff.mp ha)
    exact eq_of_pairwise_key hsorted ha' hb (le_antisymm hab hba)
  exact List.Perm.eq_of_pairwise hanti (pairwise_le_mergeSort l) (hsorted.imp le_of_lt)
    ((List.mergeSort_perm _ _).trans hperm.symm)

/-- **Sorting forgets the arrangement** of rows that their keys tell apart. -/
theorem mergeSort_congr_perm {l l' : List α} (hinj : ∀ a ∈ l, ∀ b ∈ l, f a = f b → a = b)
    (hperm : l.Perm l') :
    l.mergeSort (fun a b => decide (f a ≤ f b)) = l'.mergeSort (fun a b => decide (f a ≤ f b)) := by
  refine List.Perm.eq_of_pairwise (fun a b ha hb hab hba => ?_) (pairwise_le_mergeSort l)
    (pairwise_le_mergeSort l') ((List.mergeSort_perm _ _).trans (hperm.trans (List.mergeSort_perm _ _).symm))
  have hal : a ∈ l := (List.mergeSort_perm _ _).mem_iff.mp ha
  have hbl : b ∈ l := hperm.mem_iff.mpr ((List.mergeSort_perm _ _).mem_iff.mp hb)
  exact hinj a hal b hbl (le_antisymm hab hba)

/-- **Later keys come last.** -/
theorem mergeSort_append_of_lt {xs ys : List α} (hxs : (xs.map f).Nodup)
    (hlt : ∀ x ∈ xs, ∀ y ∈ ys, f x < f y) (hys : ys.Pairwise (fun a b => f a < f b)) :
    (xs ++ ys).mergeSort (fun a b => decide (f a ≤ f b)) =
      xs.mergeSort (fun a b => decide (f a ≤ f b)) ++ ys := by
  refine mergeSort_eq_of_perm ((List.mergeSort_perm _ _).append_right ys) ?_
  refine List.pairwise_append.mpr ⟨pairwise_lt_mergeSort hxs, hys, fun a ha b hb => ?_⟩
  exact hlt a ((List.mergeSort_perm _ _).mem_iff.mp ha) b hb

/-- **Picking rows commutes with sorting them.** -/
theorem mergeSort_filter {l : List α} (h : (l.map f).Nodup) (p : α → Bool) :
    (l.filter p).mergeSort (fun a b => decide (f a ≤ f b)) =
      (l.mergeSort (fun a b => decide (f a ≤ f b))).filter p :=
  mergeSort_eq_of_perm ((List.mergeSort_perm _ _).filter p) ((pairwise_lt_mergeSort h).filter p)

/-- **Up to a bound** of the key, a list in the order of the key is one of its initial parts. -/
theorem filter_le_eq_take {l : List α} (h : l.Pairwise (fun a b => f a ≤ f b)) (c : β) :
    ∃ k ≤ l.length, l.filter (fun a => decide (f a ≤ c)) = l.take k := by
  induction l with
  | nil => exact ⟨0, le_rfl, rfl⟩
  | cons a l ih =>
    obtain ⟨hle, hl⟩ := List.pairwise_cons.mp h
    by_cases hac : f a ≤ c
    · obtain ⟨k, hk, htake⟩ := ih hl
      refine ⟨k + 1, Nat.succ_le_succ hk, ?_⟩
      rw [List.filter_cons_of_pos (by simpa using hac), htake, List.take_succ_cons]
    · refine ⟨0, Nat.zero_le _, List.filter_eq_nil_iff.mpr (fun b hb hbc => hac ?_)⟩
      rcases List.mem_cons.mp hb with rfl | hb
      · exact of_decide_eq_true hbc
      · exact (hle b hb).trans (of_decide_eq_true hbc)

end EsLite
