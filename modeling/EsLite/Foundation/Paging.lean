import Mathlib.Data.List.TakeWhile

/-! # Reading a list page by page

A reader calls for pages, each from where the page before it ended, until a call fails. What comes after a
cursor is a list of rows; a page shows the first of them, and a row that cannot be shown is an error when it
is first.

* `Reader` — the calls that are possible at a cursor, and what is to be read there.
* `Reader.FirstOf` — what one call has to return; `Reader.Sound` — every call does so, and leads to a cursor
  after the rows of its page.
* `Reader.Sound.delivers` — the pages of a sound reader follow one another without loss or repetition, and after
  enough calls they are all that can be shown. -/

namespace EsLite

/-- A reader of pages: what a call at a cursor may return, and the cursor that a page leads to; and, to
compare with, the rows after a cursor, what a page shows of a row, which rows can be shown, and the error of
one that cannot. -/
structure Reader (γ δ π ρ ε : Type) where
  reads : γ → Except δ π → Prop
  next : γ → π → γ
  items : π → List ε
  rest : γ → List ρ
  decode : ρ → Option ε
  good : ρ → Bool
  fail : ρ → δ

namespace Reader

variable {γ δ π ρ ε : Type} (R : Reader γ δ π ρ ε)

/-- The calls of a reader from a cursor on, each with the cursor it was made at; an error is the last. -/
def Calls : γ → List (γ × Except δ π) → Prop
  | _, [] => True
  | c, (c', .error err) :: calls => c' = c ∧ R.reads c (.error err) ∧ calls = []
  | c, (c', .ok page) :: calls => c' = c ∧ R.reads c (.ok page) ∧ Calls (R.next c page) calls

/-- What a call has delivered. -/
def shown : Except δ π → List ε
  | .error _ => []
  | .ok page => R.items page

/-- What the calls have delivered. -/
def delivered (calls : List (γ × Except δ π)) : List ε := calls.flatMap (fun x => R.shown x.2)

/-- What there is to deliver after a cursor: the rows before the first that cannot be shown. -/
def deliverable (c : γ) : List ρ := (R.rest c).takeWhile R.good

/-- **What one call has to return**, by the rows after its cursor: the error of a first row that cannot be
shown, or the first rows, at least one if there is one. -/
def FirstOf (rest : List ρ) : Except δ π → Prop
  | .error err => ∃ r rs, rest = r :: rs ∧ R.good r = false ∧ err = R.fail r
  | .ok page =>
    (R.items page).map some = (rest.take (R.items page).length).map R.decode ∧
    (∀ r ∈ rest.take (R.items page).length, R.good r = true) ∧ (R.items page = [] → rest = [])

/-- Calls at the cursors of `ok` return what they have to, and lead to such cursors. -/
structure Sound (ok : γ → Prop) : Prop where
  first : ∀ c res, ok c → R.reads c res → R.FirstOf (R.rest c) res
  next : ∀ c page, ok c → R.reads c (.ok page) →
    ok (R.next c page) ∧ R.rest (R.next c page) = (R.rest c).drop (R.items page).length

/-- The calls are over: there was an error, or there were more calls than there are rows to deliver. -/
def Ended (c : γ) (calls : List (γ × Except δ π)) : Prop :=
  (∃ c' err, calls.getLast? = some (c', .error err)) ∨ (R.deliverable c).length < calls.length

/-- How the calls end: with the error of the first row that cannot be shown, or an empty page if there is
none. -/
def Final (c : γ) : Except δ π → Prop
  | .error err => ∃ r, (R.rest c).find? (fun r => !R.good r) = some r ∧ err = R.fail r
  | .ok page => (R.rest c).find? (fun r => !R.good r) = none ∧ R.items page = []

variable {R} {ok : γ → Prop}

/-- A page has no more items than there are rows. -/
theorem FirstOf.length_le {rest : List ρ} {page : π} (h : R.FirstOf rest (.ok page)) :
    (R.items page).length ≤ rest.length := by
  have hlen := congrArg List.length h.1
  rw [List.length_map, List.length_map, List.length_take] at hlen
  omega

/-- What there is to deliver: the rows of a page, and then the rest. -/
theorem deliverable_eq {c d : γ} {k : Nat} (hgood : ∀ r ∈ (R.rest c).take k, R.good r = true)
    (hrest : R.rest d = (R.rest c).drop k) : R.deliverable c = (R.rest c).take k ++ R.deliverable d := by
  calc R.deliverable c
      = ((R.rest c).take k ++ (R.rest c).drop k).takeWhile R.good := by
        rw [List.take_append_drop, deliverable]
    _ = (R.rest c).take k ++ R.deliverable d := by
        rw [List.takeWhile_append_of_pos hgood, deliverable, hrest]

/-- How the calls end does not depend on the rows of a page. -/
theorem final_of_next {c d : γ} {k : Nat} (hgood : ∀ r ∈ (R.rest c).take k, R.good r = true)
    (hrest : R.rest d = (R.rest c).drop k) {res : Except δ π} (h : R.Final d res) : R.Final c res := by
  have hfind : (R.rest c).find? (fun r => !R.good r) = (R.rest d).find? (fun r => !R.good r) := by
    have hnone : ((R.rest c).take k).find? (fun r => !R.good r) = none := by
      rw [List.find?_eq_none]
      intro r hr
      simp [hgood r hr]
    have hsplit : ((R.rest c).take k ++ (R.rest c).drop k).find? (fun r => !R.good r) =
        (((R.rest c).take k).find? (fun r => !R.good r)).or
          (((R.rest c).drop k).find? (fun r => !R.good r)) := List.find?_append
    rw [List.take_append_drop, hnone, ← hrest] at hsplit
    exact hsplit
  cases res with
  | error err =>
    obtain ⟨r, hr, herr⟩ := h
    exact ⟨r, hfind.trans hr, herr⟩
  | ok page => exact ⟨hfind.trans h.1, h.2⟩

/-- **The pages follow one another** without loss or repetition, and when the calls are over they have
delivered all that there is to deliver. -/
theorem Sound.delivers (hR : R.Sound ok) {c : γ} (hc : ok c) {calls : List (γ × Except δ π)}
    (h : R.Calls c calls) :
    (∃ n, (R.delivered calls).map some = ((R.deliverable c).take n).map R.decode) ∧
      (R.Ended c calls → (R.delivered calls).map some = (R.deliverable c).map R.decode ∧
        ∃ x, calls.getLast? = some x ∧ R.Final c x.2) := by
  induction calls generalizing c with
  | nil =>
    refine ⟨⟨0, rfl⟩, ?_⟩
    rintro (⟨c', err, hlast⟩ | hlen)
    · cases hlast
    · cases hlen
  | cons x calls ih =>
    obtain ⟨c', res⟩ := x
    cases res with
    | error err =>
      -- the first row cannot be shown: there is nothing to deliver
      obtain ⟨rfl, hread, rfl⟩ := h
      obtain ⟨r, rs, hrest, hbad, herr⟩ := hR.first c' _ hc hread
      have hnil : R.deliverable c' = [] := by
        rw [deliverable, hrest, List.takeWhile_cons_of_neg (by rw [hbad]; exact Bool.false_ne_true)]
      refine ⟨⟨0, rfl⟩, fun _ => ⟨by rw [hnil]; rfl, _, rfl, r, ?_, herr⟩⟩
      rw [hrest, List.find?_cons_of_pos (by rw [hbad]; rfl)]
    | ok page =>
      obtain ⟨rfl, hread, hcalls⟩ := h
      have hfirst := hR.first c' _ hc hread
      have hle := hfirst.length_le
      obtain ⟨hshown, hgood, hprogress⟩ := hfirst
      obtain ⟨hnext, hrest⟩ := hR.next c' page hc hread
      obtain ⟨⟨n, hn⟩, hended⟩ := ih hnext hcalls
      have hdeliverable := deliverable_eq hgood hrest
      have hlen : ((R.rest c').take (R.items page).length).length = (R.items page).length := by
        rw [List.length_take, Nat.min_eq_left hle]
      have hdelivered : (R.delivered ((c', .ok page) :: calls)).map some =
          ((R.rest c').take (R.items page).length).map R.decode ++ (R.delivered calls).map some := by
        rw [delivered, List.flatMap_cons, List.map_append, ← hshown]
        rfl
      refine ⟨⟨(R.items page).length + n, ?_⟩, fun hend => ?_⟩
      · have htake : ((R.rest c').take (R.items page).length ++ R.deliverable (R.next c' page)).take
            (((R.rest c').take (R.items page).length).length + n) =
              (R.rest c').take (R.items page).length ++ (R.deliverable (R.next c' page)).take n :=
          List.take_length_add_append n
        rw [hlen] at htake
        rw [hdelivered, hn, hdeliverable, htake, List.map_append]
      · by_cases hover : calls = [] ∧ R.rest c' = []
        · -- an empty page, and nothing to deliver
          obtain ⟨rfl, hnil⟩ := hover
          have hitems : R.items page = [] := by
            rw [← List.length_eq_zero_iff, ← hlen, hnil, List.take_nil]
            rfl
          have hnone : R.deliverable c' = [] := by
            rw [deliverable, hnil]
            rfl
          refine ⟨?_, _, rfl, ?_, hitems⟩
          · rw [hdelivered, hnone, hnil, List.take_nil]
            rfl
          · rw [hnil]
            rfl
        · have hrestEnded : R.Ended (R.next c' page) calls := by
            rcases hend with ⟨d, err, hlast⟩ | hcount
            · cases calls with
              | nil => cases hlast
              | cons y calls => exact .inl ⟨d, err, hlast⟩
            · refine .inr ?_
              rw [hdeliverable, List.length_append, hlen, List.length_cons] at hcount
              rcases Nat.eq_zero_or_pos (R.items page).length with h0 | hpos
              · -- without items nothing is left, and the calls went on all the same
                have hnil : R.rest c' = [] := hprogress (List.length_eq_zero_iff.mp h0)
                have hmore : calls ≠ [] := fun hcalls => hover ⟨hcalls, hnil⟩
                rw [deliverable, hrest, hnil, List.drop_nil]
                exact List.length_pos_iff.mpr hmore
              · omega
          obtain ⟨hall, x, hx, hfinal⟩ := hended hrestEnded
          refine ⟨?_, x, ?_, final_of_next hgood hrest hfinal⟩
          · rw [hdelivered, hall, hdeliverable, List.map_append]
          · cases calls with
            | nil => cases hx
            | cons y calls => exact hx

/-- Calls return what they have to, each by the rows after its cursor. -/
theorem first_of_calls (hR : R.Sound ok) {c : γ} (hc : ok c) {calls : List (γ × Except δ π)}
    (h : R.Calls c calls) : ∀ x ∈ calls, ok x.1 ∧ R.reads x.1 x.2 := by
  induction calls generalizing c with
  | nil =>
    intro x hx
    cases hx
  | cons y calls ih =>
    obtain ⟨c', res⟩ := y
    rw [List.forall_mem_cons]
    cases res with
    | error err =>
      obtain ⟨rfl, hread, rfl⟩ := h
      exact ⟨⟨hc, hread⟩, fun x hx => by cases hx⟩
    | ok page =>
      obtain ⟨rfl, hread, hcalls⟩ := h
      exact ⟨⟨hc, hread⟩, ih (hR.next c' page hc hread).1 hcalls⟩

/-- **A reader can go on** until a call fails, or for any number of calls. -/
theorem exists_calls (htotal : ∀ c, ∃ res, R.reads c res) (n : Nat) (c : γ) :
    ∃ calls, R.Calls c calls ∧
      ((∃ c' err, calls.getLast? = some (c', .error err)) ∨ calls.length = n) := by
  induction n generalizing c with
  | zero => exact ⟨[], trivial, .inr rfl⟩
  | succ n ih =>
    obtain ⟨res, hres⟩ := htotal c
    cases res with
    | error err => exact ⟨[(c, .error err)], ⟨rfl, hres, rfl⟩, .inl ⟨c, err, rfl⟩⟩
    | ok page =>
      obtain ⟨calls, hcalls, hend⟩ := ih (R.next c page)
      refine ⟨(c, .ok page) :: calls, ⟨rfl, hres, hcalls⟩, ?_⟩
      rcases hend with ⟨c', err, hlast⟩ | hlen
      · cases calls with
        | nil => cases hlast
        | cons y calls => exact .inl ⟨c', err, hlast⟩
      · exact .inr (congrArg Nat.succ hlen)

end Reader

end EsLite
