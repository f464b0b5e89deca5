import Mathlib.Data.List.Basic
import Mathlib.Data.List.Range
import Mathlib.Data.List.Perm.Subperm
import Mathlib.Tactic.Ring

/-!
# Reading a keyed list window by window

A list of items with strictly increasing positive keys can be read in windows `(a, a + p]` of keys,
each starting where the one before ended, until a window holds fewer than `p` items. The results here
say where such a reader stops: at the end of the window that holds the lowest missing key.

* `upTo k b l`, `above k b l` — the items with keys at most, and above, `b`.
* `leadingRun k a l` — the last key of the run `a + 1, a + 2, …` of keys without a gap.
* `windowEnd k p a l` — the end of the first window after `a` that is not full.
-/

namespace EsLite

variable {α : Type} (k : α → Nat)

/-- The keys increase strictly along the list. -/
def SortedBy (l : List α) : Prop := l.Pairwise (fun x y => k x < k y)

instance (l : List α) : Decidable (SortedBy k l) :=
  inferInstanceAs (Decidable (l.Pairwise (fun x y => k x < k y)))

/-- The items with keys at most `b`. -/
def upTo (b : Nat) (l : List α) : List α := l.filter (fun x => k x ≤ b)

/-- The items with keys above `b`. -/
def above (b : Nat) (l : List α) : List α := l.filter (fun x => b < k x)

/-- The last key of the run `a + 1, a + 2, …` without a gap at the start of the list. -/
def leadingRun (a : Nat) : List α → Nat
  | [] => a
  | x :: xs => if k x = a + 1 then leadingRun (a + 1) xs else a

/-- The end of the first window of `p` keys after `a` that is not full. -/
def windowEnd (p a : Nat) (l : List α) : Nat := a + ((leadingRun k a l - a) / p + 1) * p

variable {k}

variable {l : List α} {b : Nat}

theorem mem_upTo {x : α} : x ∈ upTo k b l ↔ x ∈ l ∧ k x ≤ b := by
  simp [upTo]

theorem mem_above {x : α} : x ∈ above k b l ↔ x ∈ l ∧ b < k x := by
  simp [above]

theorem SortedBy.sublist {l' : List α} (h : SortedBy k l') (hl : l.Sublist l') :
    SortedBy k l := List.Pairwise.sublist hl h

theorem SortedBy.above (h : SortedBy k l) : SortedBy k (above k b l) := h.sublist List.filter_sublist

theorem SortedBy.upTo (h : SortedBy k l) : SortedBy k (upTo k b l) := h.sublist List.filter_sublist

/-- The head of a sorted list has the least key. -/
theorem head_le_of_sorted (h : SortedBy k l) {x y : α} (hx : l.head? = some x) (hy : y ∈ l) :
    k x ≤ k y := by
  cases l with
  | nil => cases hx
  | cons z zs =>
    cases hx
    rcases List.mem_cons.mp hy with rfl | hy
    · exact le_rfl
    · exact ((List.pairwise_cons.mp h).1 y hy).le

/-- A sorted list is what lies up to a bound followed by what lies above it. -/
theorem upTo_append_above (h : SortedBy k l) (b : Nat) : upTo k b l ++ above k b l = l := by
  induction l with
  | nil => rfl
  | cons x xs ih =>
    obtain ⟨hx, hxs⟩ := List.pairwise_cons.mp h
    by_cases hb : k x ≤ b
    · have : ¬ b < k x := by omega
      simpa [EsLite.upTo, EsLite.above, hb, this] using ih hxs
    · -- the head is above the bound, hence so is the whole list
      have hup : EsLite.upTo k b (x :: xs) = [] := by
        refine List.filter_eq_nil_iff.mpr (fun y hy => ?_)
        rcases List.mem_cons.mp hy with rfl | hy
        · simpa using hb
        · have := hx y hy
          simp only [decide_eq_true_eq]
          omega
      have hab : EsLite.above k b (x :: xs) = x :: xs := by
        refine List.filter_eq_self.mpr (fun y hy => ?_)
        rcases List.mem_cons.mp hy with rfl | hy
        · simp only [decide_eq_true_eq]
          omega
        · have := hx y hy
          simp only [decide_eq_true_eq]
          omega
      rw [hup, hab, List.nil_append]

/-- A later bound keeps what an earlier one kept, and reads on above it. -/
theorem upTo_eq_append (h : SortedBy k l) {c : Nat} (hbc : b ≤ c) :
    upTo k c l = upTo k b l ++ upTo k c (above k b l) := by
  conv_lhs => rw [← upTo_append_above h b]
  have : upTo k c (upTo k b l) = upTo k b l := by
    refine List.filter_eq_self.mpr (fun x hx => ?_)
    have := (mem_upTo.mp hx).2
    simp only [decide_eq_true_eq]
    omega
  rw [upTo, List.filter_append]
  exact congrArg (· ++ _) this

/-- Going above twice is going above the later bound. -/
theorem above_above {c : Nat} (hbc : b ≤ c) : above k c (above k b l) = above k c l := by
  simp only [above, List.filter_filter]
  refine List.filter_congr (fun x _ => ?_)
  by_cases hc : c < k x
  · have : b < k x := by omega
    simp [hc, this]
  · simp [hc]

/-- Items with strictly increasing keys in `(a, a + p]` number at most `p`. -/
theorem length_le_of_window (h : SortedBy k l) {a p : Nat} (ha : ∀ x ∈ l, a < k x)
    (hp : ∀ x ∈ l, k x ≤ a + p) : l.length ≤ p := by
  induction l generalizing a p with
  | nil => simp
  | cons x xs ih =>
    obtain ⟨hx, hxs⟩ := List.pairwise_cons.mp h
    have hax := ha x List.mem_cons_self
    have hpx := hp x List.mem_cons_self
    have := ih hxs (a := k x) (p := a + p - k x) hx
      (fun y hy => by have := hp y (List.mem_cons_of_mem _ hy); omega)
    simp only [List.length_cons]
    omega

/-- `p` items with strictly increasing keys in `(a, a + p]` take every key there. -/
theorem map_key_of_full_window (h : SortedBy k l) {a p : Nat} (ha : ∀ x ∈ l, a < k x)
    (hp : ∀ x ∈ l, k x ≤ a + p) (hl : l.length = p) : l.map k = List.range' (a + 1) p := by
  induction l generalizing a p with
  | nil => simp [← hl]
  | cons x xs ih =>
    obtain ⟨hx, hxs⟩ := List.pairwise_cons.mp h
    have hax := ha x List.mem_cons_self
    have hpx := hp x List.mem_cons_self
    have hple : ∀ y ∈ xs, k y ≤ k x + (a + p - k x) := fun y hy => by
      have := hp y (List.mem_cons_of_mem _ hy)
      omega
    have hlen := length_le_of_window hxs hx hple
    simp only [List.length_cons] at hl
    have hxa : k x = a + 1 := by omega
    have hmap := ih hxs (a := a + 1) (p := p - 1) (fun y hy => hxa ▸ hx y hy)
      (fun y hy => by have := hple y hy; omega) (by omega)
    obtain ⟨q, rfl⟩ : ∃ q, p = q + 1 := ⟨p - 1, by omega⟩
    simpa [List.range'_succ, hxa] using hmap

/-- Along strictly increasing values the last item has the largest one. -/
theorem maxOn?_eq_getLast? {β : Type} [LinearOrder β] {f : α → β}
    (h : l.Pairwise (fun x y => f x < f y)) : l.maxOn? f = l.getLast? := by
  induction l using List.reverseRecOn with
  | nil => rfl
  | append_singleton l a ih =>
    obtain ⟨hl, -, hla⟩ := List.pairwise_append.mp h
    rw [List.maxOn?_append, ih hl, List.maxOn?_singleton, List.getLast?_concat]
    cases hlast : l.getLast? with
    | none => rfl
    | some c =>
      have hca := hla c (List.mem_of_getLast? hlast) a (List.mem_singleton_self a)
      exact congrArg some (maxOn_eq_right_of_lt hca)

/-! ## The leading run -/

theorem le_leadingRun (a : Nat) (l : List α) : a ≤ leadingRun k a l := by
  induction l generalizing a with
  | nil => exact le_rfl
  | cons x xs ih =>
    simp only [leadingRun]
    split
    · exact (Nat.le_succ a).trans (ih (a + 1))
    · exact le_rfl

/-- A run of keys without a gap only moves the start of the leading run. -/
theorem leadingRun_append {w r : List α} {a p : Nat} (hw : w.map k = List.range' (a + 1) p) :
    leadingRun k a (w ++ r) = leadingRun k (a + p) r := by
  induction w generalizing a p with
  | nil =>
    have : p = 0 := by simpa using (congrArg List.length hw).symm
    simp [this]
  | cons x xs ih =>
    obtain ⟨q, rfl⟩ : ∃ q, p = q + 1 := ⟨p - 1, by
      have := congrArg List.length hw
      simp only [List.length_map, List.length_cons, List.length_range'] at this
      omega⟩
    rw [List.range'_succ, List.map_cons, List.cons.injEq] at hw
    simp only [List.cons_append, leadingRun, if_pos hw.1]
    rw [ih hw.2]
    congr 1
    omega

/-- Every key of the leading run is taken. -/
theorem exists_of_le_leadingRun {a v : Nat} (hav : a < v) (hv : v ≤ leadingRun k a l) :
    ∃ x ∈ l, k x = v := by
  induction l generalizing a with
  | nil =>
    simp only [leadingRun] at hv
    omega
  | cons x xs ih =>
    simp only [leadingRun] at hv
    split at hv
    · rename_i hx
      by_cases hva : v = a + 1
      · exact ⟨x, List.mem_cons_self, by omega⟩
      · obtain ⟨y, hy, hyv⟩ := ih (a := a + 1) (by omega) hv
        exact ⟨y, List.mem_cons_of_mem _ hy, hyv⟩
    · omega

/-- The key after the leading run is missing. -/
theorem key_ne_succ_leadingRun (h : SortedBy k l) {a : Nat} (ha : ∀ x ∈ l, a < k x) :
    ∀ x ∈ l, k x ≠ leadingRun k a l + 1 := by
  induction l generalizing a with
  | nil => simp
  | cons x xs ih =>
    obtain ⟨hx, hxs⟩ := List.pairwise_cons.mp h
    simp only [leadingRun]
    split
    · rename_i hxa
      have hle := le_leadingRun (k := k) (a + 1) xs
      intro y hy
      rcases List.mem_cons.mp hy with rfl | hy
      · omega
      · exact ih hxs (fun z hz => hxa ▸ hx z hz) y hy
    · rename_i hxa
      intro y hy
      have := ha x List.mem_cons_self
      rcases List.mem_cons.mp hy with rfl | hy
      · exact hxa
      · have := hx y hy
        omega

/-! ## Where a reader by windows stops -/

/-- The reader reads beyond where it starts. -/
theorem le_windowEnd (p a : Nat) (l : List α) : a + p ≤ windowEnd k p a l := by
  have : p ≤ ((leadingRun k a l - a) / p + 1) * p := Nat.le_mul_of_pos_left p (Nat.succ_pos _)
  simp only [windowEnd]
  omega

/-- In a window that is not full a key is missing, so the reader stops at its end. -/
theorem windowEnd_of_not_full {a p : Nat} (hnot : (upTo k (a + p) l).length < p) :
    windowEnd k p a l = a + p := by
  have hlt : leadingRun k a l < a + p := by
    by_contra hge
    -- otherwise all of `a + 1 … a + p` would be keys of items in the window
    have hsub : List.range' (a + 1) p ⊆ (upTo k (a + p) l).map k := by
      intro v hv
      have hv' := List.mem_range'_1.mp hv
      obtain ⟨x, hx, rfl⟩ := exists_of_le_leadingRun (k := k) (l := l) (a := a) (v := v)
        (by omega) (by omega)
      exact List.mem_map_of_mem (mem_upTo.mpr ⟨hx, by omega⟩)
    have := (List.subperm_of_subset List.nodup_range' hsub).length_le
    simp only [List.length_range', List.length_map] at this
    omega
  simp only [windowEnd]
  rw [Nat.div_eq_of_lt (by omega)]
  omega

section Reader

variable {l : List α} (h : SortedBy k l) {a p : Nat} (ha : ∀ x ∈ l, a < k x)

include h ha

/-- A window of `p` keys holds at most `p` items. -/
theorem length_upTo_le : (upTo k (a + p) l).length ≤ p :=
  length_le_of_window h.upTo (fun x hx => ha x (mem_upTo.mp hx).1) (fun _ hx => (mem_upTo.mp hx).2)

/-- A full window holds exactly the next `p` keys. -/
theorem map_key_upTo_of_full (hfull : (upTo k (a + p) l).length = p) :
    (upTo k (a + p) l).map k = List.range' (a + 1) p :=
  map_key_of_full_window h.upTo (fun x hx => ha x (mem_upTo.mp hx).1)
    (fun _ hx => (mem_upTo.mp hx).2) hfull

/-- The last item of a full window has the last key of the window. -/
theorem getLast_of_full (hp : 0 < p) (hfull : (upTo k (a + p) l).length = p) :
    ∃ x, (upTo k (a + p) l).getLast? = some x ∧ k x = a + p := by
  have hne : upTo k (a + p) l ≠ [] := fun h0 => by
    rw [h0, List.length_nil] at hfull
    omega
  refine ⟨(upTo k (a + p) l).getLast hne, List.getLast?_eq_some_getLast hne, ?_⟩
  have hmap := congrArg List.getLast? (map_key_upTo_of_full h ha hfull)
  rw [List.getLast?_map, List.getLast?_eq_some_getLast hne, List.getLast?_range'] at hmap
  simp only [Option.map_some, if_neg (by omega : ¬ p = 0), Option.some.injEq] at hmap
  omega

/-- After a full window the reader goes on as if it had started there. -/
theorem windowEnd_of_full (hp : 0 < p) (hfull : (upTo k (a + p) l).length = p) :
    windowEnd k p a l = windowEnd k p (a + p) (above k (a + p) l) := by
  have hrun : leadingRun k a l = leadingRun k (a + p) (above k (a + p) l) := by
    conv_lhs => rw [← upTo_append_above h (a + p)]
    exact leadingRun_append (map_key_upTo_of_full h ha hfull)
  have hle := le_leadingRun (k := k) (a + p) (above k (a + p) l)
  simp only [windowEnd, hrun]
  have hsub : leadingRun k (a + p) (above k (a + p) l) - a =
      leadingRun k (a + p) (above k (a + p) l) - (a + p) + p := by omega
  rw [hsub, Nat.add_div_right _ hp]
  ring

end Reader

end EsLite
