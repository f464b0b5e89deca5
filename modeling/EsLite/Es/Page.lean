import EsLite.Es.StreamId

/-!
# Bounded pages

The choice of a page that both stores make: from the positions and sizes of the matching rows, the
ones that fit the byte budget and the payload cap. A first row over the cap is an error, and the first
row is taken whatever the budget.
-/

namespace EsLite

/-- Why a read fails. -/
inductive ReadError where
  /-- An error wrapping one of the sentinels. -/
  | sentinel (s : Sentinel)
  /-- An error of the database. -/
  | backend (text : Bytes)
  /-- The first row of the page is over the store's cap. -/
  | eventTooLarge (position : Nat) (typeURL : Bytes) (size : Nat) (limit : Int)
deriving DecidableEq

/-- What step 1 of a page read returns of a row. -/
structure SizeRow where
  position : Nat
  typeURL : Bytes
  size : Nat
deriving DecidableEq

/-- `limit <= 0` is 100. -/
def pageLimit (limit : Int) : Nat := if limit ≤ 0 then 100 else limit.toNat

/-- Whether a payload is over the store's cap. -/
def overCap (cap : Int) (size : Nat) : Bool := 0 < cap && cap < size

/-- The rows after the first of a page: up to the first that is over the cap or the budget. -/
def takeBudget (cap maxBytes : Int) : Nat → List SizeRow → List Nat × Bool
  | _, [] => ([], false)
  | total, r :: rs =>
    if overCap cap r.size || (0 < maxBytes && maxBytes < (total + r.size : Nat)) then ([], true)
    else
      let page := takeBudget cap maxBytes (total + r.size) rs
      (r.position :: page.1, page.2)

/-- The positions of a page, and whether it was cut; a first row over the cap is an error. -/
def choosePositions (cap maxBytes : Int) : List SizeRow → Except ReadError (List Nat × Bool)
  | [] => .ok ([], false)
  | r :: rs =>
    if overCap cap r.size then .error (.eventTooLarge r.position r.typeURL r.size cap)
    else
      let page := takeBudget cap maxBytes r.size rs
      .ok (r.position :: page.1, page.2)

theorem takeBudget_isPrefix {cap maxBytes : Int} {total : Nat} {rows : List SizeRow} :
    (takeBudget cap maxBytes total rows).1 <+: rows.map (·.position) := by
  induction rows generalizing total with
  | nil => exact List.nil_prefix
  | cons r rs ih =>
    rw [takeBudget]
    split
    · exact List.nil_prefix
    · exact (List.prefix_cons_inj _).mpr ih

/-- A page takes a first part of the rows that step 1 returned. -/
theorem choosePositions_isPrefix {cap maxBytes : Int} {rows : List SizeRow} {chosen : List Nat × Bool}
    (h : choosePositions cap maxBytes rows = .ok chosen) : chosen.1 <+: rows.map (·.position) := by
  cases rows with
  | nil =>
    cases h
    exact List.nil_prefix
  | cons r rs =>
    rw [choosePositions] at h
    split at h
    · cases h
    · cases h
      exact (List.prefix_cons_inj _).mpr takeBudget_isPrefix

/-- A page that was cut does not depend on the rows after. -/
theorem takeBudget_append_of_cut {cap maxBytes : Int} {total : Nat} {xs : List SizeRow}
    (ys : List SizeRow) (h : (takeBudget cap maxBytes total xs).2 = true) :
    takeBudget cap maxBytes total (xs ++ ys) = takeBudget cap maxBytes total xs := by
  induction xs generalizing total with
  | nil => cases h
  | cons r rs ih =>
    rw [List.cons_append, takeBudget]
    rw [takeBudget] at h ⊢
    split
    · rfl
    · rename_i hfits
      rw [if_neg hfits] at h
      rw [ih h]

/-- A page that was not cut takes all rows, and goes on with those after. -/
theorem takeBudget_append_of_uncut {cap maxBytes : Int} {total : Nat} {xs : List SizeRow}
    (ys : List SizeRow) (h : (takeBudget cap maxBytes total xs).2 = false) :
    (takeBudget cap maxBytes total xs).1 = xs.map (·.position) ∧
      ∃ total', takeBudget cap maxBytes total (xs ++ ys) =
        (xs.map (·.position) ++ (takeBudget cap maxBytes total' ys).1,
          (takeBudget cap maxBytes total' ys).2) := by
  induction xs generalizing total with
  | nil => exact ⟨rfl, total, rfl⟩
  | cons r rs ih =>
    rw [takeBudget] at h
    split at h
    · cases h
    · rename_i hfits
      obtain ⟨hall, total', hrest⟩ := ih h
      rw [List.cons_append, takeBudget, takeBudget, if_neg hfits, if_neg hfits, hrest, List.map_cons]
      exact ⟨congrArg _ hall, total', rfl⟩

/-- The positions of a page are those of its first rows. -/
theorem eq_map_take_of_isPrefix {ps : List Nat} {rows : List SizeRow}
    (h : ps <+: rows.map (·.position)) : ps = (rows.take ps.length).map (·.position) := by
  rw [List.map_take]
  exact List.prefix_iff_eq_take.mp h

/-- **Rows after the ones of a page** lead to the same error, or to the same page with some of them at
the end; some are added only when the page took all rows it had. -/
theorem choosePositions_append {cap : Int} (maxBytes : Int) (xs : List SizeRow) {ys : List SizeRow}
    (hys : ∀ r ∈ ys, overCap cap r.size = false) :
    ∃ k cut, choosePositions cap maxBytes (xs ++ ys) =
        (choosePositions cap maxBytes xs).map (fun c => (c.1 ++ (ys.take k).map (·.position), cut)) ∧
      ∀ c, choosePositions cap maxBytes xs = .ok c → k = 0 ∨ c.1 = xs.map (·.position) := by
  cases xs with
  | nil =>
    -- the first of the new rows begins the page
    have hok : ∃ c, choosePositions cap maxBytes ys = .ok c := by
      cases ys with
      | nil => exact ⟨_, rfl⟩
      | cons r rs =>
        have hr : ¬ overCap cap r.size = true := by
          rw [hys r List.mem_cons_self]
          exact Bool.false_ne_true
        exact ⟨_, by rw [choosePositions, if_neg hr]⟩
    obtain ⟨⟨ps, cut⟩, hc⟩ := hok
    have hps := eq_map_take_of_isPrefix (choosePositions_isPrefix hc)
    refine ⟨ps.length, cut, ?_, fun c hnil => ?_⟩
    · rw [List.nil_append, hc]
      exact congrArg (fun ps => Except.ok (ps, cut)) hps
    · cases hnil
      exact .inr rfl
  | cons r rs =>
    rw [List.cons_append, choosePositions, choosePositions]
    by_cases hcap : overCap cap r.size = true
    · rw [if_pos hcap, if_pos hcap]
      exact ⟨0, false, rfl, fun c hc => by cases hc⟩
    · rw [if_neg hcap, if_neg hcap]
      cases hcut : (takeBudget cap maxBytes r.size rs).2 with
      | true =>
        refine ⟨0, true, ?_, fun c _ => .inl rfl⟩
        simp only [takeBudget_append_of_cut ys hcut, hcut, Except.map, List.take_zero, List.map_nil,
          List.append_nil]
      | false =>
        obtain ⟨hall, total', hrest⟩ := takeBudget_append_of_uncut ys hcut
        have hps := eq_map_take_of_isPrefix
          (takeBudget_isPrefix : (takeBudget cap maxBytes total' ys).1 <+: _)
        refine ⟨(takeBudget cap maxBytes total' ys).1.length, (takeBudget cap maxBytes total' ys).2,
          ?_, fun c hc => ?_⟩
        · simp only [hrest, hall, Except.map, List.cons_append]
          rw [← hps]
        · cases hc
          exact .inr (congrArg _ hall)

end EsLite
