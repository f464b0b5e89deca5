import EsLite.Foundation.Consuming
import EsLite.Foundation.Paging
import EsLite.Postgres.NoForks
import EsLite.Postgres.Settled
import EsLite.Sqlite.Pages

/-!
# Pages of the feed's log

A subscription reads the log page by page, each from the last position of the page before. Count limit, byte
budget and payload cap all cut a page, and a first row over the cap is an error. `PageOf` and `AnswersPage` say
what one call of `ReadAllBounded` has to return, and `Concatenates` what the pages of a whole sequence of
calls amount to.

Both stores choose a page by the same rule from the sizes of the matching rows (`pageOf_choosePositions`),
and then fetch the chosen rows. On Postgres the pages concatenate to the log once the fence is cleared up to
its head. On SQLite they do exactly if the rows to be delivered can be scanned, and the start is a position
that the driver can bind (`pages_concatenate`).
-/

namespace EsLite

/-! ## What a call has to return -/

section Spec

variable {γ ρ ε : Type}

/-- The error of a row over the cap. -/
def tooLarge (cap : Int) (r : SizeRow) : ReadError := .eventTooLarge r.position r.typeURL r.size cap

/-- **A page of the first `n` rows**, when `rest` are the matching rows after the cursor. -/
structure PageOf (cap : Int) (limit : Nat) (maxBytes : Int) (size : ρ → SizeRow) (rest : List ρ) (n : Nat)
    (truncated : Bool) : Prop where
  count : n ≤ limit
  /-- It holds no payload over the cap. -/
  small : ∀ r ∈ rest.take n, overCap cap (size r).size = false
  /-- It is empty only if nothing is left. -/
  progress : n = 0 → rest = []
  /-- It is over the budget only with a single event. -/
  budget : 0 < maxBytes → maxBytes < (((rest.take n).map (fun r => (size r).size)).sum : Nat) → n = 1
  /-- It was cut exactly if it is short and another row follows. -/
  truncated : truncated = true ↔ n < limit ∧ n < rest.length

/-- **What a call has to return**: the error of a first row over the cap, or a page of the first rows. -/
def AnswersPage (cap : Int) (limit : Nat) (maxBytes : Int) (size : ρ → SizeRow) (decode : ρ → Option ε)
    (rest : List ρ) : Except ReadError (List ε × Bool) → Prop
  | .error err => ∃ r rs, rest = r :: rs ∧ overCap cap (size r).size = true ∧ err = tooLarge cap (size r)
  | .ok page =>
    page.1.map some = (rest.take page.1.length).map decode ∧
      PageOf cap limit maxBytes size rest page.1.length page.2

/-- The reader of a store: it goes on from the last position of a page. -/
def pageReader (cap : Int) (size : ρ → SizeRow) (decode : ρ → Option ε) (position : ε → γ)
    (rest : γ → List ρ) (reads : γ → Except ReadError (List ε × Bool) → Prop) :
    Reader γ ReadError (List ε × Bool) ρ ε where
  reads := reads
  next c page := (page.1.getLast?.map position).getD c
  items page := page.1
  rest := rest
  decode := decode
  good r := !overCap cap (size r).size
  fail r := tooLarge cap (size r)

/-- **The pages concatenate**: every call returns what it has to; the pages show the rows up to the first
over the cap, in order, without loss or repetition; and when the calls are over they have shown all of them,
and end with the error of that row, or with an empty page if there is none. -/
structure Concatenates (cap : Int) (limit : Nat) (maxBytes : Int) (size : ρ → SizeRow)
    (R : Reader γ ReadError (List ε × Bool) ρ ε) (start : γ) : Prop where
  answers : ∀ calls, R.Calls start calls → ∀ x ∈ calls,
    AnswersPage cap limit maxBytes size R.decode (R.rest x.1) x.2
  inOrder : ∀ calls, R.Calls start calls →
    ∃ n, (R.delivered calls).map some = ((R.deliverable start).take n).map R.decode
  complete : ∀ calls, R.Calls start calls → R.Ended start calls →
    (R.delivered calls).map some = (R.deliverable start).map R.decode ∧
      ∃ x, calls.getLast? = some x ∧ R.Final start x.2

variable {cap : Int} {limit : Nat} {maxBytes : Int} {size : ρ → SizeRow} {decode : ρ → Option ε}

theorem takeBudget_spec (cap maxBytes : Int) (total : Nat) (rows : List SizeRow) :
    (takeBudget cap maxBytes total rows).1.length ≤ rows.length ∧
    (∀ r ∈ rows.take (takeBudget cap maxBytes total rows).1.length, overCap cap r.size = false) ∧
    ((takeBudget cap maxBytes total rows).2 = true ↔
      (takeBudget cap maxBytes total rows).1.length < rows.length) ∧
    (0 < maxBytes → (takeBudget cap maxBytes total rows).1 ≠ [] →
      ((total + ((rows.take (takeBudget cap maxBytes total rows).1.length).map (·.size)).sum : Nat) : Int) ≤
        maxBytes) := by
  induction rows generalizing total with
  | nil => simp [takeBudget]
  | cons r rs ih =>
    rw [takeBudget]
    by_cases hcut : (overCap cap r.size || (0 < maxBytes && maxBytes < (total + r.size : Nat))) = true
    · rw [if_pos hcut]
      simp
    · rw [if_neg hcut]
      obtain ⟨hlen, hsmall, hiff, hbudget⟩ := ih (total + r.size)
      simp only [Bool.or_eq_true, Bool.and_eq_true, decide_eq_true_eq, not_or, not_and, not_lt,
        Bool.not_eq_true] at hcut
      refine ⟨Nat.succ_le_succ hlen, ?_, ?_, ?_⟩
      · simp only [List.length_cons, List.take_succ_cons, List.forall_mem_cons]
        exact ⟨hcut.1, hsmall⟩
      · rw [hiff, List.length_cons, List.length_cons, Nat.succ_lt_succ_iff]
      · intro hpos _
        simp only [List.length_cons, List.take_succ_cons, List.map_cons, List.sum_cons]
        by_cases hnil : (takeBudget cap maxBytes (total + r.size) rs).1 = []
        · rw [hnil, List.length_nil, List.take_zero, List.map_nil, List.sum_nil, Nat.add_zero]
          exact hcut.2 hpos
        · rw [← Nat.add_assoc]
          exact hbudget hpos hnil

/-- The choice fails only at a first row over the cap. -/
theorem answersPage_of_error {rest : List ρ} {err : ReadError} (hlimit : 0 < limit)
    (h : choosePositions cap maxBytes ((rest.take limit).map size) = .error err) :
    AnswersPage cap limit maxBytes size decode rest (.error err) := by
  obtain ⟨m, rfl⟩ : ∃ m, limit = m + 1 := ⟨limit - 1, by omega⟩
  cases rest with
  | nil => cases h
  | cons r rs =>
    rw [List.take_succ_cons, List.map_cons, choosePositions] at h
    split at h
    · rename_i hover
      cases h
      exact ⟨r, rs, rfl, hover, rfl⟩
    · cases h

/-- **The rule by which a page is chosen**, over the sizes of the first `limit` matching rows. -/
theorem pageOf_choosePositions {rest : List ρ} {ps : List Nat} {cut : Bool} (hlimit : 0 < limit)
    (h : choosePositions cap maxBytes ((rest.take limit).map size) = .ok (ps, cut)) :
    PageOf cap limit maxBytes size rest ps.length cut ∧ ps.length ≤ rest.length := by
  cases rest with
  | nil =>
    rw [List.take_nil] at h
    cases h
    refine ⟨⟨Nat.zero_le _, ?_, fun _ => rfl, fun hpos hlt => ?_, ?_⟩, le_rfl⟩
    · intro r hr
      cases hr
    · exact absurd hpos (not_lt.mpr hlt.le)
    · simp
  | cons r rs =>
    obtain ⟨m, rfl⟩ : ∃ m, limit = m + 1 := ⟨limit - 1, by omega⟩
    rw [List.take_succ_cons, List.map_cons, choosePositions] at h
    split at h
    · cases h
    · rename_i hsmall
      cases h
      have hspec := takeBudget_spec cap maxBytes (size r).size ((rs.take m).map size)
      set tail := takeBudget cap maxBytes (size r).size ((rs.take m).map size)
      obtain ⟨hlen, htail, hiff, hbudget⟩ := hspec
      rw [List.length_map, List.length_take] at hlen hiff
      have htake : ((rs.take m).map size).take tail.1.length = (rs.take tail.1.length).map size := by
        rw [← List.map_take, List.take_take, Nat.min_eq_left (by omega)]
      rw [htake] at htail hbudget
      simp only [List.length_cons]
      refine ⟨⟨by omega, ?_, fun h0 => by omega, fun hpos hlt => ?_, ?_⟩, by omega⟩
      · simp only [List.take_succ_cons, List.forall_mem_cons]
        refine ⟨Bool.eq_false_iff.mpr hsmall, fun x hx => ?_⟩
        exact htail (size x) (List.mem_map_of_mem hx)
      · -- a page of several events is within the budget
        by_contra hmore
        have hne : tail.1 ≠ [] := fun hnil => hmore (by rw [hnil]; rfl)
        have hle := hbudget hpos hne
        rw [List.map_map] at hle
        simp only [List.take_succ_cons, List.map_cons, List.sum_cons] at hlt
        exact absurd hle (not_le.mpr hlt)
      · rw [hiff, List.length_cons]
        omega

/-- The rows of a page are among those that can be delivered. -/
theorem mem_takeWhile_of_pageOf {rest : List ρ} {n : Nat} {truncated : Bool}
    (h : PageOf cap limit maxBytes size rest n truncated) {r : ρ} (hr : r ∈ rest.take n) :
    r ∈ rest.takeWhile (fun r => !overCap cap (size r).size) := by
  have hgood : ∀ x ∈ rest.take n, (!overCap cap (size x).size) = true := by
    intro x hx
    rw [h.small x hx]
    rfl
  rw [← List.take_append_drop n rest, List.takeWhile_append_of_pos hgood]
  exact List.mem_append_left _ hr

/-- The last item of a page is what it shows of the last of its rows. -/
theorem exists_last_row {page : List ε} {rows : List ρ} {e : ε} (h : page.map some = rows.map decode)
    (hlast : page.getLast? = some e) : ∃ r, rows.getLast? = some r ∧ decode r = some e := by
  have hmap := congrArg List.getLast? h
  rw [List.getLast?_map, List.getLast?_map, hlast] at hmap
  obtain ⟨r, hr, he⟩ := Option.map_eq_some_iff.mp hmap.symm
  exact ⟨r, hr, he⟩

/-- **Going on from the last position of a page** of a sorted log. -/
theorem rest_next [LinearOrder γ] {log rest : List ρ} {key : ρ → γ} {c : γ}
    (hsorted : log.Pairwise (fun x y => key x < key y)) (hrest : rest = after key log c) {page : List ε}
    (hshown : page.map some = (rest.take page.length).map decode) {position : ε → γ}
    (hposition : ∀ r e, decode r = some e → position e = key r) :
    after key log ((page.getLast?.map position).getD c) = rest.drop page.length := by
  cases hlast : page.getLast? with
  | none =>
    rw [List.getLast?_eq_none_iff.mp hlast, List.length_nil, List.drop_zero, hrest]
    rfl
  | some e =>
    obtain ⟨r, hr, he⟩ := exists_last_row hshown hlast
    rw [Option.map_some, Option.getD_some, hposition r e he]
    have hsplit : after key log c = rest.take page.length ++ rest.drop page.length := by
      rw [← hrest, List.take_append_drop]
    exact after_page hsorted hsplit hr

/-- A store whose calls return what they have to, and go on behind their pages. -/
theorem concatenates_of {position : ε → γ} {rest : γ → List ρ}
    {reads : γ → Except ReadError (List ε × Bool) → Prop} (ok : γ → Prop) {start : γ} (hstart : ok start)
    (hanswers : ∀ c res, ok c → reads c res → AnswersPage cap limit maxBytes size decode (rest c) res)
    (hnext : ∀ c (page : List ε × Bool), ok c → reads c (.ok page) →
      ok ((page.1.getLast?.map position).getD c) ∧
        rest ((page.1.getLast?.map position).getD c) = (rest c).drop page.1.length) :
    Concatenates cap limit maxBytes size (pageReader cap size decode position rest reads) start := by
  have hsound : (pageReader cap size decode position rest reads).Sound ok := by
    refine ⟨fun c res hc hread => ?_, hnext⟩
    have hres := hanswers c res hc hread
    cases res with
    | error err =>
      obtain ⟨r, rs, hrest, hover, herr⟩ := hres
      exact ⟨r, rs, hrest, by simp [pageReader, hover], herr⟩
    | ok page =>
      obtain ⟨hshown, hpage⟩ := hres
      refine ⟨hshown, fun r hr => ?_, fun hnil => hpage.progress ?_⟩
      · simp [pageReader, hpage.small r hr]
      · have hitems : page.1 = [] := hnil
        rw [hitems]
        rfl
  refine ⟨fun calls hcalls x hx => ?_, fun calls hcalls => (hsound.delivers hstart hcalls).1,
    fun calls hcalls => (hsound.delivers hstart hcalls).2⟩
  obtain ⟨hc, hread⟩ := Reader.first_of_calls hsound hstart hcalls x hx
  exact hanswers x.1 x.2 hc hread

end Spec

/-! ## SQLite -/

namespace Sqlite

/-- What a read gives of a row, if it can be scanned. -/
def scanned (T : GoText) (r : EventRow) : Option Envelope := (scanEnvelope T r).toOption

/-- The pages of the SQLite store over a fixed table. -/
def pages (T : GoText) (cap : Int) (t : EventsTable) (limit maxBytes : Int) (types : List Bytes) :
    Reader UInt64 ReadError (List Envelope × Bool) EventRow Envelope :=
  pageReader cap EventRow.sizeRow (scanned T) (·.globalPosition) (fun c => matching t c types)
    (fun c res => res = readAllBounded T cap t c limit maxBytes types)

section Pages

variable {T : GoText} {cap : Int} {t : EventsTable} {limit maxBytes : Int} {types : List Bytes}

theorem scanned_eq_some {r : EventRow} {e : Envelope} : scanned T r = some e ↔ scanEnvelope T r = .ok e := by
  unfold scanned
  cases scanEnvelope T r with
  | error err => simp [Except.toOption]
  | ok x => simp [Except.toOption]

/-- Rows that can all be scanned are read. -/
theorem scanAll_of_scanned {rows : List EventRow} (h : ∀ r ∈ rows, ∃ e, scanEnvelope T r = .ok e) :
    ∃ envs, scanAll (scanEnvelope T) rows = .ok envs ∧ envs.map some = rows.map (scanned T) := by
  induction rows with
  | nil => exact ⟨[], rfl, rfl⟩
  | cons r rs ih =>
    rw [List.forall_mem_cons] at h
    obtain ⟨e, he⟩ := h.1
    obtain ⟨envs, hscan, henvs⟩ := ih h.2
    refine ⟨e :: envs, ?_, ?_⟩
    · rw [scanAll, he, hscan]
    · rw [List.map_cons, List.map_cons, henvs, scanned_eq_some.mpr he]

/-- The matching rows after a position, as the rest of one list. -/
theorem matching_eq_after (t : EventsTable) (c : UInt64) (types : List Bytes) :
    matching t c types = after (fun r : EventRow => r.globalPosition)
      (orderByPosition (t.rows.filter (fun r => r.typeURL ∈ types))) (c.toNat : Int) := by
  rw [matching, after, orderByPosition, orderByPosition, ← mergeSort_filter
    (t.positions.sublist (List.filter_sublist.map _)), List.filter_filter]

/-- A cursor at which reads work: the driver can bind it, and what is to be delivered can be scanned. -/
def Readable (T : GoText) (cap : Int) (t : EventsTable) (types : List Bytes) (c : UInt64) : Prop :=
  c.toNat < 2 ^ 63 ∧
    ∀ r ∈ (matching t c types).takeWhile (fun r => !overCap cap r.payload.length),
      ∃ e, scanEnvelope T r = .ok e

/-- **A call at a readable cursor** returns what it has to. -/
theorem answersPage_of_readable (hlimit : 1 ≤ limit) (hmax : limit ≤ maxVariableNumber) (hne : types ≠ [])
    (htypes : types.length + 2 ≤ maxVariableNumber) {c : UInt64} (hc : Readable T cap t types c) :
    AnswersPage cap limit.toNat maxBytes EventRow.sizeRow (scanned T) (matching t c types)
      (readAllBounded T cap t c limit maxBytes types) := by
  have hpage : pageLimit limit = limit.toNat := if_neg (by omega)
  rw [readAllBounded_eq T cap t maxBytes hc.1 hne htypes (by rw [hpage]; omega), hpage]
  rcases hchosen : choosePositions cap maxBytes
    (((matching t c types).take limit.toNat).map EventRow.sizeRow) with err | ⟨ps, cut⟩
  · exact answersPage_of_error (by omega) hchosen
  · obtain ⟨hpageOf, hle⟩ := pageOf_choosePositions (by omega) hchosen
    obtain ⟨envs, hscan, henvs⟩ := scanAll_of_scanned fun r hr =>
      hc.2 r (mem_takeWhile_of_pageOf hpageOf hr)
    have hlen : envs.length = ps.length := by
      have := congrArg List.length henvs
      rw [List.length_map, List.length_map, List.length_take, Nat.min_eq_left hle] at this
      exact this
    simp only [hscan]
    refine ⟨?_, ?_⟩
    · simp only [hlen]
      exact henvs
    · simp only [hlen]
      exact hpageOf

/-- A page leads to a readable cursor, and the rest of the rows. -/
theorem next_of_readable {c : UInt64} (hc : Readable T cap t types c) {page : List Envelope × Bool}
    (h : AnswersPage cap limit.toNat maxBytes EventRow.sizeRow (scanned T) (matching t c types) (.ok page)) :
    Readable T cap t types ((page.1.getLast?.map (·.globalPosition)).getD c) ∧
      matching t ((page.1.getLast?.map (·.globalPosition)).getD c) types =
        (matching t c types).drop page.1.length := by
  obtain ⟨hshown, hpageOf⟩ := h
  set log := orderByPosition (t.rows.filter (fun r => r.typeURL ∈ types))
  have hkey : ∀ r e, scanned T r = some e →
      e.globalPosition.toNat < 2 ^ 63 ∧ (e.globalPosition.toNat : Int) = r.globalPosition := by
    intro r e he
    obtain ⟨hpos, hlt⟩ := scanUint64_eq_some (position_of_scanEnvelope (scanned_eq_some.mp he))
    exact ⟨hlt, hpos.symm⟩
  -- the cursor as an integer
  have hcursor : (((page.1.getLast?.map (·.globalPosition)).getD c).toNat : Int) =
      (page.1.getLast?.map (fun e => (e.globalPosition.toNat : Int))).getD (c.toNat : Int) := by
    cases page.1.getLast? <;> rfl
  have hrest : matching t ((page.1.getLast?.map (·.globalPosition)).getD c) types =
      (matching t c types).drop page.1.length := by
    rw [matching_eq_after, hcursor]
    exact rest_next (pairwise_orderByPosition t _) (matching_eq_after t c types) hshown
      (fun r e he => (hkey r e he).2)
  refine ⟨⟨?_, fun r hr => hc.2 r ?_⟩, hrest⟩
  · cases hlast : page.1.getLast? with
    | none => exact hc.1
    | some e =>
      obtain ⟨r, -, he⟩ := exists_last_row hshown hlast
      exact (hkey r e he).1
  · rw [hrest] at hr
    have hgood : ∀ x ∈ (matching t c types).take page.1.length,
        (!overCap cap x.payload.length) = true := by
      intro x hx
      rw [show overCap cap x.payload.length = false from hpageOf.small x hx]
      rfl
    rw [← List.take_append_drop page.1.length (matching t c types),
      List.takeWhile_append_of_pos hgood]
    exact List.mem_append_right _ hr

/-- **On SQLite the pages concatenate exactly** from a readable start. -/
theorem concatenates_iff_readable (hlimit : 1 ≤ limit) (hmax : limit ≤ maxVariableNumber) (hne : types ≠ [])
    (htypes : types.length + 2 ≤ maxVariableNumber) (start : UInt64) :
    Concatenates cap limit.toNat maxBytes EventRow.sizeRow (pages T cap t limit maxBytes types) start ↔
      Readable T cap t types start := by
  constructor
  · intro h
    refine ⟨?_, fun r hr => ?_⟩
    · -- otherwise the first call fails with the error of the driver
      by_contra hlarge
      have hcalls : (pages T cap t limit maxBytes types).Calls start
          [(start, .error (pageError (.backend DbError.highBit.text)))] := by
        refine ⟨rfl, ?_, rfl⟩
        have hread : readAllBounded T cap t start limit maxBytes types =
            .error (pageError (.backend DbError.highBit.text)) := by
          rw [readAllBounded, if_neg hne, if_pos (not_lt.mp hlarge)]
        exact hread.symm
      obtain ⟨r, rs, -, -, herr⟩ := h.answers _ hcalls _ (List.mem_singleton_self _)
      cases herr
    · obtain ⟨calls, hcalls, hend⟩ := Reader.exists_calls (R := pages T cap t limit maxBytes types)
        (fun c => ⟨_, rfl⟩) (((pages T cap t limit maxBytes types).deliverable start).length + 1) start
      have hended : (pages T cap t limit maxBytes types).Ended start calls := by
        rcases hend with herr | hlen
        · exact .inl herr
        · exact .inr (by omega)
      have hall := (h.complete calls hcalls hended).1
      have hmem : scanned T r ∈ ((pages T cap t limit maxBytes types).deliverable start).map (scanned T) :=
        List.mem_map_of_mem hr
      obtain ⟨e, -, he⟩ := List.mem_map.mp (hall.symm ▸ hmem)
      exact ⟨e, scanned_eq_some.mp he.symm⟩
  · intro hstart
    have hanswers : ∀ c res, Readable T cap t types c →
        res = readAllBounded T cap t c limit maxBytes types →
        AnswersPage cap limit.toNat maxBytes EventRow.sizeRow (scanned T) (matching t c types) res := by
      rintro c _ hc rfl
      exact answersPage_of_readable hlimit hmax hne htypes hc
    exact concatenates_of (Readable T cap t types) hstart hanswers
      (fun c page hc hres => next_of_readable hc (hanswers c _ hc hres))

end Pages

end Sqlite

/-! ## Postgres -/

namespace Postgres

/-- The columns of step 1. -/
def sizeRow (r : Placed Envelope) : SizeRow :=
  ⟨r.position, r.row.typeURL, (r.row.payload.getD []).length⟩

/-- The rows of a workspace and of the given types after a position. -/
def matching (rows : List (Placed Envelope)) (ws : Bytes) (c : Nat) (types : List Bytes) :
    List (Placed Envelope) :=
  orderByPosition (rows.filter (fun r => r.row.workspace = ws && c < r.position && r.row.typeURL ∈ types))

/-- **The fence is cleared** for a read from `c`: the round returns a bound that is not below the rows of the
workspace after `c`. -/
def FenceClear (ws : Bytes) (s : State) (c : Nat) : Prop :=
  ∃ s₁ b, Prog.atomically exec {} (fenceBound c).run s = some (s₁, .ok b) ∧
    ∀ r ∈ s.events.committed, r.row.workspace = ws → c < r.position → r.position ≤ b

/-- One call of `ReadAllBounded`, alone and without a failing statement. -/
def readAlone (cap : Int) (ws : Bytes) (limit maxBytes : Int) (types : List Bytes) (s : State) (c : Nat) :
    Option (State × Except ReadError (List (Placed Envelope) × Bool)) :=
  Prog.atomically exec {} (readAllBounded cap ws c limit maxBytes types).run s

/-- The pages of the Postgres store over fixed committed rows, in any states with a cleared fence. -/
def pages (cap : Int) (ws : Bytes) (rows : List (Placed Envelope)) (limit maxBytes : Int)
    (types : List Bytes) :
    Reader Nat ReadError (List (Placed Envelope) × Bool) (Placed Envelope) (Placed Envelope) :=
  pageReader cap sizeRow some (·.position) (fun c => matching rows ws c types)
    (fun c res => ∃ s s', s.events.committed = rows ∧ FenceClear ws s c ∧
      readAlone cap ws limit maxBytes types s c = some (s', res))

section Pages

variable {cap : Int} {ws : Bytes} {rows : List (Placed Envelope)} {limit maxBytes : Int}
  {types : List Bytes} {s s' : State} {c b t : Nat}

/-- Rows at distinct positions are read in the one order there is. -/
theorem orderByPosition_eq_of_perm {l l' : List (Placed Envelope)} (hperm : l'.Perm l)
    (hsorted : l'.Pairwise (fun x y => x.position < y.position)) : orderByPosition l = l' := by
  refine List.Perm.eq_of_pairwise (fun x y hx hy hxy hyx => ?_) (pairwise_le_orderByPosition l)
    (hsorted.imp le_of_lt) ((List.perm_insertionSort _ l).trans hperm.symm)
  have hx' : x ∈ l' := hperm.mem_iff.mpr (mem_orderByPosition.mp hx)
  exact eq_of_pairwise_key hsorted hx' hy (le_antisymm hxy hyx)

/-- The committed rows that satisfy a condition, in strict order. -/
theorem pairwise_orderByPosition (hnodup : (rows.map (·.position)).Nodup) (q : Placed Envelope → Bool) :
    (orderByPosition (rows.filter q)).Pairwise (fun x y => x.position < y.position) :=
  List.pairwise_map.mp (orderByPosition_sorted (hnodup.sublist (List.filter_sublist.map _)))

theorem matching_eq_after (hnodup : (rows.map (·.position)).Nodup) (c : Nat) :
    matching rows ws c types = after (fun r : Placed Envelope => r.position)
      (orderByPosition (rows.filter (fun r => r.row.workspace = ws && r.row.typeURL ∈ types))) c := by
  refine orderByPosition_eq_of_perm ?_ ((pairwise_orderByPosition hnodup _).filter _)
  have hfilter : rows.filter (fun r => r.row.workspace = ws && c < r.position && r.row.typeURL ∈ types) =
      (rows.filter (fun r => r.row.workspace = ws && r.row.typeURL ∈ types)).filter
        (fun r => c < r.position) := by
    rw [List.filter_filter]
    refine List.filter_congr fun r _ => ?_
    rw [Bool.and_right_comm, Bool.and_comm]
  rw [hfilter]
  exact (List.perm_insertionSort _ _).filter _

/-- Step 1, when the bound is not below the rows. -/
theorem selectSizes_eq (hb : ∀ r ∈ rows, r.row.workspace = ws → c < r.position → r.position ≤ b)
    (n : Nat) : selectSizes rows ws c n types b = ((matching rows ws c types).take n).map sizeRow := by
  have hfilter : rows.filter (fun r => r.row.workspace = ws && c < r.position && r.row.typeURL ∈ types &&
      r.position ≤ b) =
      rows.filter (fun r => r.row.workspace = ws && c < r.position && r.row.typeURL ∈ types) := by
    refine List.filter_congr fun r hr => ?_
    by_cases hws : r.row.workspace = ws ∧ c < r.position
    · rw [decide_eq_true (hb r hr hws.1 hws.2), Bool.and_true]
    · have hfalse : (decide (r.row.workspace = ws) && decide (c < r.position)) = false := by
        rw [← Bool.decide_and]
        exact decide_eq_false hws
      rw [hfalse, Bool.false_and, Bool.false_and]
  rw [selectSizes, hfilter]
  rfl

/-- **Step 2**: fetching the positions of the first matching rows gives those rows. -/
theorem selectRows_eq (hnodup : (rows.map (·.position)).Nodup) (k : Nat) :
    selectRows rows ws (((matching rows ws c types).take k).map (·.position)) =
      (matching rows ws c types).take k := by
  have hsorted : ((matching rows ws c types).take k).Pairwise (fun x y => x.position < y.position) :=
    (pairwise_orderByPosition hnodup _).sublist (List.take_sublist _ _)
  have hrow : ∀ r ∈ (matching rows ws c types).take k, r ∈ rows ∧ r.row.workspace = ws := by
    intro r hr
    obtain ⟨hmem, hq⟩ := List.mem_filter.mp (mem_orderByPosition.mp (List.mem_of_mem_take hr))
    simp only [Bool.and_eq_true, decide_eq_true_eq] at hq
    exact ⟨hmem, hq.1.1⟩
  refine orderByPosition_eq_of_perm ?_ hsorted
  rw [List.perm_ext_iff_of_nodup (hsorted.imp fun hlt heq => by rw [heq] at hlt; omega)
    ((List.Nodup.of_map _ hnodup).filter _)]
  intro a
  simp only [List.mem_filter, Bool.and_eq_true, decide_eq_true_eq, List.mem_map]
  constructor
  · intro ha
    exact ⟨(hrow a ha).1, (hrow a ha).2, a, ha, rfl⟩
  · rintro ⟨ha, -, x, hx, hxa⟩
    have heq : x = a :=
      (List.nodup_map_iff_inj_on (List.Nodup.of_map _ hnodup)).mp hnodup x (hrow x hx).1 a ha hxa
    exact heq ▸ hx

theorem selectRows_nil : selectRows rows ws [] = [] := by
  rw [selectRows, List.filter_eq_nil_iff.mpr fun r _ => by simp]
  rfl

/-- What the two steps of a page return. -/
def pageOfRows (cap : Int) (ws : Bytes) (rows : List (Placed Envelope)) (n : Nat) (maxBytes : Int)
    (types : List Bytes) (c : Nat) : Except ReadError (List (Placed Envelope) × Bool) :=
  (choosePositions cap maxBytes (((matching rows ws c types).take n).map sizeRow)).map
    (fun x => (selectRows rows ws x.1, x.2))

theorem answersPage_pageOfRows (hnodup : (rows.map (·.position)).Nodup) {n : Nat} (hn : 0 < n) :
    AnswersPage cap n maxBytes sizeRow some (matching rows ws c types)
      (pageOfRows cap ws rows n maxBytes types c) := by
  unfold pageOfRows
  rcases hchosen : choosePositions cap maxBytes (((matching rows ws c types).take n).map sizeRow) with
    err | ⟨ps, cut⟩
  · exact answersPage_of_error hn hchosen
  · obtain ⟨hpageOf, hle⟩ := pageOf_choosePositions hn hchosen
    have hps : ps = ((matching rows ws c types).take ps.length).map (·.position) := by
      have hprefix := eq_map_take_of_isPrefix (choosePositions_isPrefix hchosen)
      rw [List.map_take, List.map_map, List.map_take, List.take_take, ← List.map_take,
        Nat.min_eq_left hpageOf.count] at hprefix
      exact hprefix
    have hselect : selectRows rows ws ps = (matching rows ws c types).take ps.length := by
      rw [hps, selectRows_eq hnodup, ← hps]
    have hlen : (selectRows rows ws ps).length = ps.length := by
      rw [hselect, List.length_take, Nat.min_eq_left hle]
    refine ⟨?_, ?_⟩
    · simp only [hlen]
      rw [hselect]
    · simp only [hlen]
      exact hpageOf

/-- Only a commit changes what is committed. -/
theorem committed_of_fences {o : Op} (ho : o.fences) {ch : Choice} {r : Res o}
    (h : exec o ch s = some (s', r)) : s'.events.committed = s.events.committed := by
  have hwrote : ∀ {x : State}, Wrote s o x → x.events.committed = s.events.committed := by
    intro x hx
    cases hx with
    | nothing => rfl
    | began => rfl
    | xid ht =>
      rename_i u
      rcases Mvcc.assignXid_cases u s.events with ⟨x, -, heq⟩ | ⟨-, heq⟩ <;> rw [heq]
    | drew => exact ho.elim
    | inserted => exact ho.elim
    | released => exact ho.elim
    | claimed => exact ho.elim
    | locked => rfl
    | unlocked => rfl
    | fenced => rfl
  cases exec_effect h with
  | wrote hx => exact hwrote hx
  | aborted ht hx => exact (hwrote hx : _)
  | committed hcommit => exact (hcommit ▸ ho : (Op.commit _).fences).elim

/-- A query of an open transaction. -/
theorem query_opened {α : Type} (ht : t ∈ s.events.opened) (a : α) :
    s.query t .none a = some (s, .ok a) := by
  rw [State.query, State.statement, if_neg (not_not.mpr ht)]
  rfl

/-- Both steps of a page, alone. -/
theorem atomically_readPage (ht : t ∈ s.events.opened)
    (hb : ∀ r ∈ s.events.committed, r.row.workspace = ws → c < r.position → r.position ≤ b) (n : Nat) :
    Prog.atomically exec {} (readPage cap ws c n maxBytes types b t).run s =
      some (s, pageOfRows cap ws s.events.committed n maxBytes types c) := by
  have hset : exec (.setConfig t) {} s = some (s, .ok ()) := query_opened ht ()
  have hsizes : exec (.selectSizes t ws c n types b) {} s =
      some (s, .ok (((matching s.events.committed ws c types).take n).map sizeRow)) := by
    rw [← selectSizes_eq hb n]
    exact query_opened ht _
  have hfetch : ∀ ps, exec (.selectRows t ws ps) {} s =
      some (s, .ok (selectRows s.events.committed ws ps)) := fun ps => query_opened ht _
  refine Option.bind_eq_some_iff.mpr ⟨_, hset, Option.bind_eq_some_iff.mpr ⟨_, hsizes, ?_⟩⟩
  change Prog.atomically exec {} (Prog.ofResult (choosePositions cap maxBytes
    (((matching s.events.committed ws c types).take n).map sizeRow)) >>= fetchPage ws t :
      Pg ReadError _).run s = _
  unfold pageOfRows
  rcases hchosen : choosePositions cap maxBytes
    (((matching s.events.committed ws c types).take n).map sizeRow) with err | ⟨ps, cut⟩
  · rfl
  · cases ps with
    | nil =>
      rw [Sqlite.choosePositions_eq_nil hchosen, Except.map, selectRows_nil]
      rfl
    | cons p ps => exact Option.bind_eq_some_iff.mpr ⟨_, hfetch (p :: ps), rfl⟩

/-- The part of a read after the fence. -/
def readBelow (cap : Int) (ws : Bytes) (c limit : Nat) (maxBytes : Int) (types : List Bytes) (b : Nat) :
    Pg ReadError (List (Placed Envelope) × Bool) :=
  if b ≤ c then pure ([], false)
  else do
    let t ← stmt (readErr "") (.op Op.beginTx)
    rollbackAfter t (readPage cap ws c limit maxBytes types b t)

/-- The part after a fence that is cleared, alone: it returns the page of the committed rows. -/
theorem atomically_readBelow
    (hb : ∀ r ∈ s.events.committed, r.row.workspace = ws → c < r.position → r.position ≤ b) (n : Nat) :
    ∃ s', Prog.atomically exec {} (readBelow cap ws c n maxBytes types b).run s =
        some (s', pageOfRows cap ws s.events.committed n maxBytes types c) ∧
      s'.events.committed = s.events.committed := by
  unfold readBelow
  by_cases hle : b ≤ c
  · -- no row is left after the cursor
    rw [if_pos hle]
    refine ⟨s, ?_, rfl⟩
    have hnil : matching s.events.committed ws c types = [] := by
      rw [matching, List.filter_eq_nil_iff.mpr fun r hr hq => ?_]
      · rfl
      · simp only [Bool.and_eq_true, decide_eq_true_eq] at hq
        have := hb r hr hq.1.1 hq.1.2
        omega
    rw [pageOfRows, hnil, List.take_nil]
    simp only [List.map_nil, choosePositions, Except.map, selectRows_nil]
    rfl
  · rw [if_neg hle]
    have hbegin : exec .beginTx {} s =
        some ({ s with events := s.events.openTx.1 }, .ok s.events.openTx.2) := rfl
    have hpage : Prog.atomically exec {} (readPage cap ws c n maxBytes types b s.events.openTx.2).run
        { s with events := s.events.openTx.1 } =
          some ({ s with events := s.events.openTx.1 },
            pageOfRows cap ws s.events.committed n maxBytes types c) :=
      atomically_readPage (s := { s with events := s.events.openTx.1 }) List.mem_cons_self hb n
    refine ⟨State.abort { s with events := s.events.openTx.1 } s.events.openTx.2, ?_, rfl⟩
    refine Option.bind_eq_some_iff.mpr ⟨_, hbegin, ?_⟩
    change Prog.atomically exec {} ((readPage cap ws c n maxBytes types b s.events.openTx.2).run >>=
      fun r => Prog.op (Op.rollback s.events.openTx.2) >>= fun _ => pure r) _ = _
    rw [Prog.atomically_bind, hpage]
    rfl

/-- **A read with a cleared fence**, alone: it returns the page of the committed rows, and commits nothing. -/
theorem readAlone_eq (hne : types ≠ []) (hclear : FenceClear ws s c) :
    ∃ s', readAlone cap ws limit maxBytes types s c =
        some (s', pageOfRows cap ws s.events.committed (pageLimit limit) maxBytes types c) ∧
      s'.events.committed = s.events.committed := by
  obtain ⟨s₁, b, hfence, hb⟩ := hclear
  have hkept : s₁.events.committed = s.events.committed :=
    Prog.atomically_preserves (I := fun u => u.events.committed = s.events.committed)
      (fun o ho ch u u' r hex hu => (committed_of_fences ho hex).trans hu) issues_fenceBound hfence rfl
  rw [← hkept] at hb ⊢
  obtain ⟨s', hrun, hs'⟩ := atomically_readBelow hb (pageLimit limit)
  refine ⟨s', ?_, hs'⟩
  rw [readAlone, readAllBounded, if_neg hne]
  exact Eq.trans Prog.atomically_bind (Option.bind_eq_some_iff.mpr ⟨_, hfence, hrun⟩)

/-- **On Postgres the pages concatenate** once the fence is cleared. -/
theorem concatenates_of_fenceClear (hnodup : (rows.map (·.position)).Nodup) (hlimit : 1 ≤ limit)
    (hne : types ≠ []) (start : Nat) :
    Concatenates cap limit.toNat maxBytes sizeRow (pages cap ws rows limit maxBytes types) start := by
  have hpage : pageLimit limit = limit.toNat := if_neg (by omega)
  have hanswers : ∀ c res, (∃ s s', s.events.committed = rows ∧ FenceClear ws s c ∧
      readAlone cap ws limit maxBytes types s c = some (s', res)) →
      AnswersPage cap limit.toNat maxBytes sizeRow some (matching rows ws c types) res := by
    rintro c res ⟨s, s', rfl, hclear, hread⟩
    obtain ⟨s₁, hread', -⟩ : ∃ s₁, readAlone cap ws limit maxBytes types s c = some (s₁, _) ∧ _ :=
      readAlone_eq hne hclear
    cases hread'.symm.trans hread
    rw [hpage]
    exact answersPage_pageOfRows hnodup (by omega)
  refine concatenates_of (fun _ => True) trivial (fun c res _ => hanswers c res)
    (fun c page _ hread => ⟨trivial, ?_⟩)
  rw [matching_eq_after hnodup ((page.1.getLast?.map (·.position)).getD c)]
  refine rest_next (pairwise_orderByPosition hnodup _) (matching_eq_after hnodup c) (hanswers c _ hread).1
    (fun r e he => ?_)
  rw [Option.some.inj he]

end Pages

end Postgres

/-! ## Both stores -/

/-- **Pages concatenate to the filtered log.** For every table, non-empty type set, limit, budget and cap:

* on SQLite, with as many types and events as a statement can have parameters, the pages from a position
  concatenate exactly if the driver can bind the position and the rows to be delivered can be scanned;
* on Postgres they always do, over the calls that find the fence cleared; and such a call does return, and
  leaves the log as it was. -/
theorem pages_concatenate (cap limit maxBytes : Int) (types : List Bytes) (hlimit : 1 ≤ limit)
    (hne : types ≠ []) :
    (∀ (T : GoText) (t : Sqlite.EventsTable) (start : UInt64),
      limit ≤ Sqlite.maxVariableNumber → types.length + 2 ≤ Sqlite.maxVariableNumber →
      (Concatenates cap limit.toNat maxBytes Sqlite.EventRow.sizeRow
          (Sqlite.pages T cap t limit maxBytes types) start ↔
        start.toNat < 2 ^ 63 ∧
          ∀ r ∈ (Sqlite.matching t start types).takeWhile (fun r => !overCap cap r.payload.length),
            ∃ e, Sqlite.scanEnvelope T r = .ok e)) ∧
    (∀ (ws : Bytes) (rows : List (Placed Envelope)) (start : Nat), (rows.map (·.position)).Nodup →
      Concatenates cap limit.toNat maxBytes Postgres.sizeRow
          (Postgres.pages cap ws rows limit maxBytes types) start ∧
        ∀ s c, s.events.committed = rows → Postgres.FenceClear ws s c →
          ∃ s' res, Postgres.readAlone cap ws limit maxBytes types s c = some (s', res) ∧
            s'.events.committed = rows) := by
  refine ⟨fun T t start hmax htypes => ?_, fun ws rows start hnodup => ⟨?_, ?_⟩⟩
  · exact Sqlite.concatenates_iff_readable hlimit hmax hne htypes start
  · exact Postgres.concatenates_of_fenceClear hnodup hlimit hne start
  · rintro s c rfl hclear
    obtain ⟨s', hread, hs'⟩ := Postgres.readAlone_eq hne hclear
    exact ⟨s', _, hread, hs'⟩

/-- The type of the events below. -/
def incremented : List Bytes := [str "counter.v1.Incremented"]

/-- The sizes of five payloads. With two events and ten bytes a page, and a cap of sixteen, the limit cuts the
first page, the budget the second and the cap the third. -/
def payloadSizes : List Nat := [4, 4, 8, 4, 20]

/-- Five events of these sizes in SQLite, stored under a larger cap. -/
def sizedDb : Sqlite.Db :=
  (Sqlite.appendRun storeText 0 (.empty, []) [(⟨⟨0⟩, ⟨0⟩, fun i => .fill 16 (UInt8.ofNat (i + 1))⟩,
    { Sqlite.datedAppend ⟨1790000000000000000⟩ with
      events := payloadSizes.map fun n =>
        ⟨.zero 16, str "counter.v1.Incremented", 1, some (List.replicate n 1)⟩ })]).1

/-- Five such events in Postgres, the second committed first, and nothing in flight. -/
def sizedCommitted : Postgres.State :=
  { Postgres.State.fresh ⟨0⟩ with
    events := { (.empty : Mvcc Envelope) with
      drawn := 5
      committed := [2, 1, 3, 4, 5].map fun v => ⟨v, { unhashedRow counterMain (UInt64.ofNat v) with
        payload := (payloadSizes[v - 1]?).map (List.replicate · 1) }⟩ } }

/-- The rows of the SQLite table above are in order. -/
theorem matching_sizedDb (c : UInt64) : Sqlite.matching sizedDb.events c incremented =
    sizedDb.events.rows.filter (fun r => (c.toNat : Int) < r.globalPosition && r.typeURL ∈ incremented) := by
  have hsorted : sizedDb.events.rows.Pairwise (fun a b => a.globalPosition ≤ b.globalPosition) := by
    decide +kernel
  exact List.mergeSort_of_pairwise ((hsorted.filter _).imp decide_eq_true)

/-- **Five events in four calls**, in SQLite and in Postgres: the last one is over the cap. -/
theorem pages_concatenate_cut :
    ([0, 2, 3, 4].map fun c => (Sqlite.readAllBounded storeText 16 sizedDb.events c 2 10 incremented).toOption.map
        (fun page => (page.1.map (·.globalPosition), page.2))) =
      [some ([1, 2], false), some ([3], true), some ([4], true), none] ∧
    Concatenates 16 2 10 Sqlite.EventRow.sizeRow (Sqlite.pages storeText 16 sizedDb.events 2 10 incremented) 0 ∧
    ([0, 2, 3, 4].map fun c => (Postgres.readAlone 16 [] 2 10 incremented sizedCommitted c).bind
        (fun x => x.2.toOption.map (fun page => (page.1.map (·.position), page.2)))) =
      [some ([1, 2], false), some ([3], true), some ([4], true), none] ∧
    (∀ c ∈ [0, 2, 3, 4], Postgres.FenceClear [] sizedCommitted c) ∧
    Concatenates 16 2 10 Postgres.sizeRow
      (Postgres.pages 16 [] sizedCommitted.events.committed 2 10 incremented) 0 := by
  have hboth := pages_concatenate 16 2 10 incremented (by decide) (by decide)
  refine ⟨?_, (hboth.1 _ _ 0 (by decide) (by decide)).mpr ⟨by decide, fun r hr => ?_⟩, by decide +kernel,
    fun c hc => ?_, (hboth.2 [] _ 0 (by decide)).1⟩
  · have hread (c : UInt64) (hc : c.toNat < 2 ^ 63) :=
      @Sqlite.readAllBounded_eq c incremented storeText 16 sizedDb.events 2 10 hc (by decide) (by decide)
        (by decide)
    simp only [matching_sizedDb] at hread
    simp only [List.map_cons, List.map_nil, hread 0 (by decide), hread 2 (by decide), hread 3 (by decide),
      hread 4 (by decide)]
    decide +kernel
  · have hscan : ∀ r ∈ sizedDb.events.rows, ((Sqlite.scanEnvelope storeText r).toOption).isSome = true := by
      decide +kernel
    have hmem := (List.takeWhile_sublist _).subset hr
    rw [matching_sizedDb] at hmem
    obtain ⟨e, he⟩ := Option.isSome_iff_exists.mp (hscan r (List.mem_of_mem_filter hmem))
    exact ⟨e, Sqlite.scanned_eq_some.mp he⟩
  · simp only [List.mem_cons, List.not_mem_nil, or_false] at hc
    rcases hc with rfl | rfl | rfl | rfl <;> exact ⟨_, _, rfl, by decide⟩

/-- Whether a page read fails with an error of the database. -/
def pageFails {α : Type} (text : Bytes) : Except ReadError α → Bool
  | .error (.backend text') => text' == text
  | _ => false

theorem pageFails_iff {α : Type} {text : Bytes} {r : Except ReadError α} :
    pageFails text r = true ↔ r = .error (.backend text) := by
  rcases r with (s | text' | _) | x <;> simp [pageFails]

/-- **An event of the year 10000** stays in the log, and no page ever delivers it: every read that comes to
it fails. -/
theorem pages_stop_at_year_10000 :
    ∃ db res, Sqlite.append storeText 0 Sqlite.epochInputs
        (Sqlite.datedAppend ⟨253402300800000000000⟩) .empty = .ok (db, res) ∧
      (Sqlite.matching db.events 0 incremented).length = 1 ∧
      Sqlite.readAllBounded storeText 0 db.events 0 10 0 incremented =
        .error (.backend (str "sqlite: read feed: parse occurred_at")) := by
  have hrun : (Sqlite.append storeText 0 Sqlite.epochInputs
      (Sqlite.datedAppend ⟨253402300800000000000⟩) .empty).toOption.any (fun x =>
        (Sqlite.matching x.1.events 0 incremented).length == 1 &&
          pageFails (str "sqlite: read feed: parse occurred_at")
            (Sqlite.readAllBounded storeText 0 x.1.events 0 10 0 incremented)) = true := by
    decide +kernel
  rcases hok : Sqlite.append storeText 0 Sqlite.epochInputs
    (Sqlite.datedAppend ⟨253402300800000000000⟩) .empty with err | ⟨db, res⟩
  · rw [hok] at hrun
    cases hrun
  · rw [hok] at hrun
    obtain ⟨hlen, hfails⟩ := Bool.and_eq_true_iff.mp hrun
    exact ⟨db, res, rfl, eq_of_beq hlen, pageFails_iff.mp hfails⟩

end EsLite
