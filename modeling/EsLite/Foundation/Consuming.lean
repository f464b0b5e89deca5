import Mathlib.Order.Lattice
import Mathlib.Data.List.Basic

/-!
# Consuming a log

A consumer works off a log in the order of its positions, and keeps a position up to which it is done.

* `DoneUpTo k log done p` — everything in the log up to `p` is done. It stays true when more is done
  (`mono`) and when the log grows above `p` (`grow`), and moves on with what is next (`advance`).
* `mem_take_of_le_getLast`, `mem_of_lt_of_take` — a page of a sorted log leaves out nothing below its
  last item, or before any other one.
* `after k log p` — what comes after a position, and what is left after its first item, or a page of it.
* `Causal needs prev l` — in a list, what needs a predecessor comes after one.
* `FirstsInOrder k want l` — in a list with repetitions, what is wanted comes up in order: when it does so
  for the first time, all that is wanted below it has come up, and nothing above it.
-/

namespace EsLite

variable {α β : Type*} [LinearOrder β] {k : α → β}

/-- Everything in the log up to the position is done. -/
def DoneUpTo (k : α → β) (log : List α) (done : α → Prop) (p : β) : Prop :=
  ∀ x ∈ log, k x ≤ p → done x

namespace DoneUpTo

variable {log log' : List α} {done done' : α → Prop} {p q : β}

theorem mono (h : DoneUpTo k log done p) (hdone : ∀ x, done x → done' x) : DoneUpTo k log done' p :=
  fun x hx hle => hdone x (h x hx hle)

theorem of_le (h : DoneUpTo k log done p) (hle : q ≤ p) : DoneUpTo k log done q :=
  fun x hx hxle => h x hx (hxle.trans hle)

/-- New items above the position do not matter. -/
theorem grow (h : DoneUpTo k log done p) {b : β} (hgrow : ∀ x ∈ log', x ∈ log ∨ b < k x)
    (hp : p ≤ b) : DoneUpTo k log' done p := by
  intro x hx hle
  rcases hgrow x hx with hold | hnew
  · exact h x hold hle
  · exact absurd (hle.trans hp) (not_le.mpr hnew)

/-- **Moving on** by what comes next. -/
theorem advance (h : DoneUpTo k log done p) (hnext : ∀ x ∈ log, p < k x → k x ≤ q → done x) :
    DoneUpTo k log done q := by
  intro x hx hle
  rcases le_or_gt (k x) p with hold | hnew
  · exact h x hx hold
  · exact hnext x hx hnew hle

end DoneUpTo

/-- **A page leaves out nothing** below its last item. -/
theorem mem_take_of_le_getLast {l : List α} (h : l.Pairwise (fun x y => k x < k y)) {n : Nat} {x last : α}
    (hx : x ∈ l) (hlast : (l.take n).getLast? = some last) (hle : k x ≤ k last) : x ∈ l.take n := by
  rw [← List.take_append_drop n l] at h hx
  rcases List.mem_append.mp hx with hpage | hrest
  · exact hpage
  · have hlt := (List.pairwise_append.mp h).2.2 last (List.mem_of_getLast? hlast) x hrest
    exact absurd hle (not_le.mpr hlt)

/-- What lies below an item of a page comes before it. -/
theorem mem_of_lt_of_take {l : List α} (h : l.Pairwise (fun x y => k x < k y)) {n : Nat} {x y : α}
    {xs ys : List α} (hpage : l.take n = xs ++ x :: ys) (hy : y ∈ l) (hlt : k y < k x) : y ∈ xs := by
  rw [← List.take_append_drop n l, hpage, List.append_assoc, List.cons_append] at h hy
  obtain ⟨-, hrest, -⟩ := List.pairwise_append.mp h
  rcases List.mem_append.mp hy with hbefore | hafter
  · exact hbefore
  · rcases List.mem_cons.mp hafter with rfl | hafter
    · exact absurd hlt (lt_irrefl _)
    · exact absurd ((List.pairwise_cons.mp hrest).1 y hafter) (lt_asymm hlt)

/-! ## The rest of a log -/

/-- What comes after a position. -/
def after (k : α → β) (log : List α) (p : β) : List α := log.filter (fun x => p < k x)

section After

variable {log : List α} {p : β} {x : α} {rest : List α}

theorem mem_after : x ∈ after k log p ↔ x ∈ log ∧ p < k x := by
  rw [after, List.mem_filter, decide_eq_true_eq]

/-- What comes next is all that there is up to its position. -/
theorem eq_of_after (h : log.Pairwise (fun x y => k x < k y)) (hnext : after k log p = x :: rest) {y : α}
    (hy : y ∈ log) (hlt : p < k y) (hle : k y ≤ k x) : y = x := by
  have hsorted : (x :: rest).Pairwise (fun x y => k x < k y) := hnext ▸ h.filter _
  have hmem : y ∈ x :: rest := hnext ▸ mem_after.mpr ⟨hy, hlt⟩
  rcases List.mem_cons.mp hmem with rfl | hmem
  · rfl
  · exact absurd hle (not_le.mpr ((List.pairwise_cons.mp hsorted).1 y hmem))

/-- **Moving on by one item.** -/
theorem after_next (h : log.Pairwise (fun x y => k x < k y)) (hnext : after k log p = x :: rest) :
    after k log (k x) = rest := by
  have hx : p < k x := (mem_after.mp (hnext ▸ List.mem_cons_self)).2
  have hsorted : (x :: rest).Pairwise (fun x y => k x < k y) := hnext ▸ h.filter _
  calc after k log (k x)
      = (after k log p).filter (fun y => k x < k y) := by
        rw [after, after, List.filter_filter]
        refine List.filter_congr fun y _ => ?_
        rw [← Bool.decide_and, decide_eq_decide]
        exact ⟨fun hy => ⟨hy, hx.trans hy⟩, fun hy => hy.1⟩
    _ = rest := by
        rw [hnext, List.filter_cons_of_neg (by simp)]
        exact List.filter_eq_self.mpr fun y hy => decide_eq_true ((List.pairwise_cons.mp hsorted).1 y hy)

/-- A later position that does not reach what comes next. -/
theorem after_of_lt {q : β} (hnext : after k log p = x :: rest)
    (h : log.Pairwise (fun x y => k x < k y)) (hle : p ≤ q) (hlt : q < k x) : after k log q = x :: rest := by
  have hsorted : (x :: rest).Pairwise (fun x y => k x < k y) := hnext ▸ h.filter _
  rw [← hnext, after, after]
  refine List.filter_congr fun y hy => ?_
  rw [decide_eq_decide]
  refine ⟨fun hy => hle.trans_lt hy, fun hp => ?_⟩
  have hmem : y ∈ x :: rest := hnext ▸ mem_after.mpr ⟨hy, hp⟩
  obtain rfl | hmem := List.mem_cons.mp hmem
  · exact hlt
  · exact hlt.trans ((List.pairwise_cons.mp hsorted).1 y hmem)

/-- **Moving on by a page.** -/
theorem after_page {last : α} {page : List α} (h : log.Pairwise (fun x y => k x < k y))
    (hpage : after k log p = page ++ rest) (hlast : page.getLast? = some last) :
    after k log (k last) = rest := by
  induction page generalizing p with
  | nil => cases hlast
  | cons y page ih =>
    have hnext : after k log (k y) = page ++ rest := after_next h hpage
    cases page with
    | nil =>
      cases hlast
      exact hnext
    | cons z page => exact ih hnext hlast

end After

/-! ## Predecessors -/

/-- **In causal order**: what needs a predecessor comes after one. -/
def Causal {α : Type*} (needs : α → Prop) (prev : α → α → Prop) (l : List α) : Prop :=
  ∀ xs x ys, l = xs ++ x :: ys → needs x → ∃ y ∈ xs, prev y x

theorem causal_nil {α : Type*} {needs : α → Prop} {prev : α → α → Prop} : Causal needs prev [] :=
  fun xs x ys h => absurd h.symm (List.append_ne_nil_of_right_ne_nil xs (List.cons_ne_nil x ys))

/-- An item of two lists, with what comes before it, is one of the second list or of the first. -/
theorem split_append {α : Type*} {l m xs ys : List α} {x : α} (h : l ++ m = xs ++ x :: ys) :
    (∃ as, xs = l ++ as ∧ m = as ++ x :: ys) ∨ ∃ bs, l = xs ++ x :: bs := by
  rcases List.append_eq_append_iff.mp h with hright | ⟨bs, hl, hrest⟩
  · exact .inl hright
  · cases bs with
    | nil =>
      rw [List.append_nil] at hl
      rw [List.nil_append] at hrest
      exact .inl ⟨[], by rw [List.append_nil, hl], hrest.symm⟩
    | cons b bs =>
      rw [List.cons_append, List.cons.injEq] at hrest
      obtain ⟨rfl, -⟩ := hrest
      exact .inr ⟨bs, hl⟩

/-- More can be added when its predecessors have come before, or come with it. -/
theorem Causal.append {α : Type*} {needs : α → Prop} {prev : α → α → Prop} {l m : List α}
    (h : Causal needs prev l) (hm : ∀ xs x ys, m = xs ++ x :: ys → needs x → ∃ y ∈ l ++ xs, prev y x) :
    Causal needs prev (l ++ m) := by
  intro xs x ys hsplit hx
  rcases split_append hsplit with ⟨as, rfl, hright⟩ | ⟨bs, hleft⟩
  · exact hm as x ys hright hx
  · exact h xs x bs hleft hx

/-! ## Repetitions -/

/-- **First times in order**: when an item comes up for the first time, what is wanted has come up if it
lies below the item, and not if it lies above. -/
def FirstsInOrder (k : α → β) (want : α → Prop) (l : List α) : Prop :=
  ∀ xs x ys, l = xs ++ x :: ys → x ∉ xs → ∀ y, want y → y ≠ x → (y ∈ xs ↔ k y < k x)

section Firsts

variable {want : α → Prop} {l : List α} {x : α}

theorem firstsInOrder_nil : FirstsInOrder k want [] :=
  fun xs x ys h => absurd h.symm (List.append_ne_nil_of_right_ne_nil xs (List.cons_ne_nil x ys))

/-- What has come up leaves nothing out below it. -/
theorem FirstsInOrder.mem_of_lt (h : FirstsInOrder k want l) (hx : x ∈ l) {y : α} (hy : want y)
    (hlt : k y < k x) : y ∈ l := by
  obtain ⟨xs, ys, rfl, hfirst⟩ := List.eq_append_cons_of_mem hx
  have hne : y ≠ x := fun heq => lt_irrefl _ (heq ▸ hlt)
  exact List.mem_append_left _ ((h xs x ys rfl hfirst y hy hne).mpr hlt)

/-- One more item, when all that is wanted below it has come up. -/
theorem FirstsInOrder.snoc (h : FirstsInOrder k want l) (hx : want x)
    (hinj : ∀ y, want y → k y = k x → y = x) (hdone : ∀ y, want y → k y < k x → y ∈ l) :
    FirstsInOrder k want (l ++ [x]) := by
  intro xs z ys hsplit hfirst y hy hne
  rcases split_append hsplit with ⟨as, rfl, hlast⟩ | ⟨bs, hleft⟩
  · obtain ⟨rfl, rfl, rfl⟩ : as = [] ∧ x = z ∧ ys = [] := by
      cases as with
      | nil => simpa using hlast
      | cons a as => simp at hlast
    rw [List.append_nil] at hfirst ⊢
    refine ⟨fun hmem => ?_, hdone y hy⟩
    -- had something above it come up, so had the item itself
    by_contra hlt
    have hgt : k x < k y := lt_of_le_of_ne (not_lt.mp hlt) fun heq => hne (hinj y hy heq.symm)
    exact hfirst (h.mem_of_lt hmem hx hgt)
  · exact h xs z bs hleft hfirst y hy hne

end Firsts

end EsLite
