import EsLite.Es.Page
import EsLite.Foundation.Sorting
import EsLite.Sqlite.Readback

/-!
# Reading across streams

`ReadAll` and the feed's `ReadAllBounded`, and what an append does to every read of the store: the old
rows are read as before, and the new ones come at the end as the envelopes that the append returned.
That holds exactly when the years of their timestamps have four digits; any other row that an append
accepts fails every read that touches it (`reads_back_iff`).
-/

namespace EsLite.Sqlite

/-! ## The reads -/

/-- `ORDER BY global_position ASC`. -/
def orderByPosition (rows : List EventRow) : List EventRow :=
  rows.mergeSort (fun a b => a.globalPosition ≤ b.globalPosition)

/-- `ReadAll`. -/
def readAll (T : GoText) (t : EventsTable) (fromPosition : UInt64) (limit : Int) :
    Except StoreError (List Envelope) :=
  if 2 ^ 63 ≤ fromPosition.toNat then .error (.backend DbError.highBit.text)
  else
    scanAll (scanEnvelope T) ((orderByPosition (t.rows.filter (fun r =>
      (fromPosition.toNat : Int) < r.globalPosition))).take (pageLimit limit))

/-- The largest number of parameters of a statement, `SQLITE_MAX_VARIABLE_NUMBER`. -/
def maxVariableNumber : Nat := 32766

/-- What step 1 of a page read selects of a row. -/
def EventRow.sizeRow (r : EventRow) : SizeRow :=
  ⟨r.globalPosition.toNat, r.typeURL, r.payload.length⟩

/-- The rows of the given types after a position. -/
def matching (t : EventsTable) (fromPosition : UInt64) (types : List Bytes) : List EventRow :=
  orderByPosition (t.rows.filter (fun r =>
    (fromPosition.toNat : Int) < r.globalPosition && r.typeURL ∈ types))

/-- The rows at the given positions. -/
def fetchPositions (t : EventsTable) (positions : List Nat) : List EventRow :=
  orderByPosition (t.rows.filter (fun r => r.globalPosition ∈ positions.map (Int.ofNat ·)))

/-- The error of a page read. -/
def pageError : StoreError → ReadError
  | .sentinel s => .sentinel s
  | .backend text => .backend (str "sqlite: read feed: " ++ text)

/-- `ReadAllBounded`: choose positions by their sizes, then fetch the rows at them. -/
def readAllBounded (T : GoText) (cap : Int) (t : EventsTable) (fromPosition : UInt64)
    (limit maxBytes : Int) (types : List Bytes) : Except ReadError (List Envelope × Bool) :=
  if types = [] then .ok ([], false)
  else if 2 ^ 63 ≤ fromPosition.toNat then .error (pageError (.backend DbError.highBit.text))
  else if maxVariableNumber < types.length + 2 then
    .error (pageError (.backend (str "too many SQL variables")))
  else
    match choosePositions cap maxBytes
      (((matching t fromPosition types).take (pageLimit limit)).map EventRow.sizeRow) with
    | .error err => .error err
    | .ok ([], _) => .ok ([], false)
    | .ok (positions, truncated) =>
      if maxVariableNumber < positions.length then
        .error (pageError (.backend (str "too many SQL variables")))
      else
        match scanAll (scanEnvelope T) (fetchPositions t positions) with
        | .error err => .error (pageError err)
        | .ok envs => .ok (envs, truncated)

/-! ## What an append adds -/

/-- The rows that an append has added: at the end of the stream and of the log, and within the cap. -/
structure Extended (T : GoText) (cap : Int) (inp : AppendInputs) (p : AppendParams) (db db' : Db)
    (envs : List Envelope) : Prop where
  valid : p.streamID.Valid
  rows : db'.events.rows = db.events.rows ++ envs.map (eventRow T)
  appended : ∀ e ∈ envs, Appended inp p e
  length : envs.length = p.events.length
  small : ∀ e ∈ envs, overCap cap (e.payload.getD []).length = false
  expected : p.expectedVersion.toNat < 2 ^ 63
  versions : envs.map Envelope.versionNat =
    List.range' (p.expectedVersion.toNat + 1) envs.length
  positions : envs.map (·.globalPosition.toNat) = List.range' (db.lastPosition + 1) envs.length
  old : ∀ r ∈ db.events.rows, r.streamID = p.streamID.canonical →
    r.version ≤ p.expectedVersion.toNat

variable {sid : StreamID} {T : GoText} {t : EventsTable} {inp : AppendInputs} {p : AppendParams}
  {fromPosition : UInt64} {types : List Bytes}

/-- Payloads that pass the check are within the cap. -/
theorem overCap_of_checkPayloads {cap : Int} {version : UInt64} {evs : List EventData}
    (h : checkPayloads cap sid version evs = .ok ()) :
    ∀ ev ∈ evs, overCap cap (ev.payload.getD []).length = false := by
  induction evs generalizing version with
  | nil => exact fun ev hev => by cases hev
  | cons x xs ih =>
    rw [checkPayloads] at h
    split at h
    · cases h
    · rename_i hsmall
      rw [List.forall_mem_cons]
      refine ⟨?_, ih h⟩
      rw [overCap, Bool.and_eq_false_iff, decide_eq_false_iff_not, decide_eq_false_iff_not]
      omega

/-- The head of a stream is its largest version. -/
theorem version_le_of_readHead {current : UInt64} {prev : Digest}
    (h : readHead T t sid = .ok (current, prev)) :
    current.toNat < 2 ^ 63 ∧ ∀ r ∈ t.rows, r.streamID = sid.canonical → r.version ≤ current.toNat := by
  unfold readHead at h
  have hmem : ∀ r ∈ t.rows, r.streamID = sid.canonical →
      r ∈ t.rows.filter (·.streamID = sid.canonical) := by
    intro r hr hsid
    exact List.mem_filter.mpr ⟨hr, decide_eq_true hsid⟩
  generalize t.rows.filter (·.streamID = sid.canonical) = rows at h hmem
  cases hmax : rows.maxOn? (·.version) with
  | none =>
    rw [hmax] at h
    cases h
    refine ⟨by decide, fun r hr hsid => ?_⟩
    cases rows with
    | nil => cases hmem r hr hsid
    | cons x xs => cases hmax
  | some m =>
    rw [hmax] at h
    have hscan : scanHeadRow T sid m = .ok (current, prev) := h
    unfold scanHeadRow at hscan
    cases hv : scanUint64 m.version with
    | none =>
      rw [hv] at hscan
      cases hscan
    | some v =>
      rw [hv] at hscan
      cases hscan
      obtain ⟨hm, hbound⟩ := scanUint64_eq_some hv
      refine ⟨hbound, fun r hr hsid => ?_⟩
      have hle := List.le_apply_get_maxOn?_of_mem (f := EventRow.version) (hmem r hr hsid)
      have hget : (rows.maxOn? (·.version)).get (by rw [hmax]; rfl) = m := by
        simp only [hmax, Option.get_some]
      rw [← hm, ← hget]
      exact hle

/-- **An append that succeeds** extends its stream and the log. -/
theorem extended_of_append {cap : Int} {db db' : Db} {res : AppendResult}
    (h : append T cap inp p db = .ok (db', res)) : Extended T cap inp p db db' res.envelopes := by
  have hsmall : checkPayloads cap p.streamID p.expectedVersion p.events = .ok () := by
    unfold append at h
    split at h
    · cases h
    split at h
    · cases h
    split at h
    · cases h
    · assumption
  obtain ⟨hvalid, htx⟩ := append_eq_ok h
  unfold appendTx at htx
  split at htx
  · cases htx
  rename_i current prev hhead
  split at htx
  · cases htx
  rename_i hcurrent
  rw [not_not.mp hcurrent] at hhead
  obtain ⟨hbound, hold⟩ := version_le_of_readHead hhead
  split at htx
  · cases htx
  rename_i db₁ envs hins
  split at htx
  · cases htx
  cases htx
  obtain ⟨hrows, -, hencoded, happended, hversions, hpositions⟩ := insertEvents_eq_ok (by omega) hins
  refine ⟨hvalid, hrows, happended, ?_, fun e he => ?_, hbound, hversions, hpositions, hold⟩
  · have := congrArg List.length hencoded
    rwa [List.length_map, List.length_map] at this
  · -- the payload is that of one of the events
    have hmem : encodedOf e ∈ p.events.map encodedData := hencoded ▸ List.mem_map_of_mem he
    obtain ⟨ev, hev, heq⟩ := List.mem_map.mp hmem
    have hpayload : ev.payload.getD [] = e.payload.getD [] := congrArg (fun x => x.2.2) heq
    rw [← hpayload]
    exact overCap_of_checkPayloads hsmall ev hev

/-! ## The rows of a page -/

theorem mem_orderByPosition {rows : List EventRow} {r : EventRow} :
    r ∈ orderByPosition rows ↔ r ∈ rows := (List.mergeSort_perm _ _).mem_iff

/-- Rows of the table are read in strict order of their positions. -/
theorem pairwise_orderByPosition (t : EventsTable) (P : EventRow → Bool) :
    (orderByPosition (t.rows.filter P)).Pairwise (fun a b => a.globalPosition < b.globalPosition) :=
  pairwise_lt_mergeSort (t.positions.sublist (List.filter_sublist.map _))

/-- A position belongs to one row of the table. -/
theorem eq_of_globalPosition_eq {a b : EventRow} (ha : a ∈ t.rows) (hb : b ∈ t.rows)
    (hab : a.globalPosition = b.globalPosition) : a = b :=
  (List.nodup_map_iff_inj_on (List.Nodup.of_map _ t.positions)).mp t.positions a ha b hb hab

/-- **Fetching the positions of the first matching rows** gives those rows. -/
theorem fetchPositions_eq {k : Nat} :
    fetchPositions t (((matching t fromPosition types).take k).map (·.globalPosition.toNat)) =
      (matching t fromPosition types).take k := by
  have hrow : ∀ r ∈ (matching t fromPosition types).take k,
      r ∈ t.rows ∧ 0 ≤ r.globalPosition := by
    intro r hr
    obtain ⟨hmem, hP⟩ := List.mem_filter.mp (mem_orderByPosition.mp (List.mem_of_mem_take hr))
    rw [Bool.and_eq_true, decide_eq_true_eq] at hP
    exact ⟨hmem, by omega⟩
  have hsorted : ((matching t fromPosition types).take k).Pairwise
      (fun a b => a.globalPosition < b.globalPosition) :=
    (pairwise_orderByPosition t _).sublist (List.take_sublist _ _)
  refine mergeSort_eq_of_perm ?_ hsorted
  rw [List.perm_ext_iff_of_nodup (hsorted.imp fun hlt heq => by rw [heq] at hlt; omega)
    ((List.Nodup.of_map _ t.positions).filter _)]
  intro a
  rw [List.mem_filter, decide_eq_true_eq, List.mem_map]
  constructor
  · intro ha
    refine ⟨(hrow a ha).1, a.globalPosition.toNat, List.mem_map_of_mem ha, ?_⟩
    exact Int.toNat_of_nonneg (hrow a ha).2
  · rintro ⟨ha, n, hn, hna⟩
    obtain ⟨b, hb, rfl⟩ := List.mem_map.mp hn
    have hab : a.globalPosition = b.globalPosition := by
      rw [← hna]
      exact Int.toNat_of_nonneg (hrow b hb).2
    rwa [eq_of_globalPosition_eq ha (hrow b hb).1 hab]

/-- An empty choice of positions was not cut. -/
theorem choosePositions_eq_nil {cap maxBytes : Int} {rows : List SizeRow} {truncated : Bool}
    (h : choosePositions cap maxBytes rows = .ok ([], truncated)) : truncated = false := by
  cases rows with
  | nil => exact (Prod.mk.inj (Except.ok.inj h)).2.symm
  | cons r rs =>
    rw [choosePositions] at h
    split at h
    · cases h
    · cases (Prod.mk.inj (Except.ok.inj h)).1

/-- **The page of a bounded read**: the first matching rows, as many as are chosen by their sizes. -/
theorem readAllBounded_eq (T : GoText) (cap : Int) (t : EventsTable) {limit : Int} (maxBytes : Int)
    (hfrom : fromPosition.toNat < 2 ^ 63) (hne : types ≠ [])
    (htypes : types.length + 2 ≤ maxVariableNumber) (hlimit : pageLimit limit ≤ maxVariableNumber) :
    readAllBounded T cap t fromPosition limit maxBytes types =
      match choosePositions cap maxBytes
        (((matching t fromPosition types).take (pageLimit limit)).map EventRow.sizeRow) with
      | .error err => .error err
      | .ok (positions, truncated) =>
        match scanAll (scanEnvelope T) ((matching t fromPosition types).take positions.length) with
        | .error err => .error (pageError err)
        | .ok envs => .ok (envs, truncated) := by
  rw [readAllBounded, if_neg hne, if_neg (Nat.not_le.mpr hfrom), if_neg (Nat.not_lt.mpr htypes)]
  rcases hc : choosePositions cap maxBytes
    (((matching t fromPosition types).take (pageLimit limit)).map EventRow.sizeRow) with
    err | ⟨positions, truncated⟩
  · rfl
  cases positions with
  | nil =>
    rw [choosePositions_eq_nil hc]
    rfl
  | cons q qs =>
    have hprefix : q :: qs <+: (((matching t fromPosition types).take (pageLimit limit)).map
        EventRow.sizeRow).map (·.position) := choosePositions_isPrefix hc
    have hlen := hprefix.length_le
    simp only [List.length_map, List.length_take] at hlen
    have heq : q :: qs = ((matching t fromPosition types).take (q :: qs).length).map
        (·.globalPosition.toNat) := by
      have := eq_map_take_of_isPrefix hprefix
      rw [List.map_take, List.map_map, List.map_take, List.take_take, ← List.map_take] at this
      rw [min_eq_left (by omega)] at this
      exact this
    have hfetch : fetchPositions t (q :: qs) =
        (matching t fromPosition types).take (q :: qs).length := by
      rw [heq, fetchPositions_eq, ← heq]
    simp only [hfetch]
    rw [if_neg (by omega)]

/-! ## Reads after an append -/

/-- Rows that all scan, after rows that may not. -/
theorem scanAll_append_map {α β γ : Type} {scan : β → Except StoreError γ} {row : α → β} {f : α → γ}
    (xs : List β) {ys : List α} (h : ∀ a ∈ ys, scan (row a) = .ok (f a)) :
    scanAll scan (xs ++ ys.map row) = (scanAll scan xs).map (· ++ ys.map f) := by
  induction xs with
  | nil => exact scanAll_map_eq_ok h
  | cons x xs ih =>
    rw [List.cons_append, scanAll, scanAll, ih]
    cases scan x with
    | error err => rfl
    | ok y => cases scanAll scan xs <;> rfl

theorem length_of_scanAll {α β : Type} {scan : α → Except StoreError β} {rs : List α} {xs : List β}
    (h : scanAll scan rs = .ok xs) : xs.length = rs.length := by
  have := congrArg List.length (scanAll_eq_ok.mp h)
  rw [List.length_map, List.length_map] at this
  exact this.symm

/-- A batch of inserts takes the next positions. -/
theorem lastPosition_insertEvents {i : Nat} {prev : Digest} {db db' : Db} {envs : List Envelope}
    {evs : List EventData} (h : insertEvents T inp p i prev db evs = .ok (db', envs)) :
    db'.lastPosition = db.lastPosition + envs.length := by
  induction evs generalizing i prev db envs with
  | nil =>
    cases h
    rfl
  | cons ev evs ih =>
    simp only [insertEvents] at h
    split at h
    · cases h
    · cases h
    · rename_i db₁ env hins
      split at h
      · cases h
      · rename_i db₂ es hrest
        cases h
        rw [ih hrest, Db.lastPosition_insertEvent hins, List.length_cons]
        omega

/-- **The last position** moves by the number of events that an append adds. -/
theorem lastPosition_append {cap : Int} {db db' : Db} {res : AppendResult}
    (h : append T cap inp p db = .ok (db', res)) :
    db'.lastPosition = db.lastPosition + res.envelopes.length := by
  obtain ⟨-, htx⟩ := append_eq_ok h
  unfold appendTx at htx
  split at htx
  · cases htx
  split at htx
  · cases htx
  split at htx
  · cases htx
  rename_i db₁ envs hins
  split at htx
  · cases htx
  cases htx
  have hlast : db₁.lastPosition = db.lastPosition + envs.length := lastPosition_insertEvents hins
  exact hlast

section Extended

variable {T : GoText} {cap : Int} {inp : AppendInputs} {p : AppendParams} {db db' : Db}
  {envs : List Envelope} (h : Extended T cap inp p db db' envs)

include h

/-- The new positions are above all old ones. -/
theorem Extended.lastPosition_lt : ∀ e ∈ envs, db.lastPosition < e.globalPosition.toNat := by
  intro e he
  have hmem : e.globalPosition.toNat ∈ List.range' (db.lastPosition + 1) envs.length :=
    h.positions ▸ List.mem_map_of_mem he
  exact (List.mem_range'_1.mp hmem).1

theorem Extended.expected_lt : ∀ e ∈ envs, p.expectedVersion.toNat < e.versionNat := by
  intro e he
  have hmem : e.versionNat ∈ List.range' (p.expectedVersion.toNat + 1) envs.length :=
    h.versions ▸ List.mem_map_of_mem he
  exact (List.mem_range'_1.mp hmem).1

/-- **In the order of the log** the new rows come after the old ones. -/
theorem Extended.orderByPosition_eq (P : EventRow → Bool) :
    orderByPosition (db'.events.rows.filter P) =
      orderByPosition (db.events.rows.filter P) ++
        (envs.filter (fun e => P (eventRow T e))).map (eventRow T) := by
  rw [h.rows, List.filter_append, List.filter_map]
  refine mergeSort_append_of_lt (db.events.positions.sublist (List.filter_sublist.map _)) ?_ ?_
  · intro r hr r' hr'
    obtain ⟨e, he, rfl⟩ := List.mem_map.mp hr'
    have hold := Db.position_le (List.mem_filter.mp hr).1
    have hnew := h.lastPosition_lt e (List.mem_filter.mp he).1
    show r.globalPosition < (e.globalPosition.toNat : Int)
    omega
  · have hsorted : (envs.map (·.globalPosition.toNat)).Pairwise (· < ·) := by
      rw [h.positions]
      exact List.pairwise_lt_range'
    refine List.pairwise_map.mpr (((List.pairwise_map.mp hsorted).sublist List.filter_sublist).imp ?_)
    exact fun hlt => Int.ofNat_lt.mpr hlt

/-- **In the order of the stream** the new rows come after the old ones. -/
theorem Extended.orderByVersion_eq {P : EventRow → Bool}
    (hP : ∀ r, P r = true → r.streamID = p.streamID.canonical) :
    orderByVersion (db'.events.rows.filter P) =
      orderByVersion (db.events.rows.filter P) ++
        (envs.filter (fun e => P (eventRow T e))).map (eventRow T) := by
  rw [h.rows, List.filter_append, List.filter_map]
  refine mergeSort_append_of_lt ?_ ?_ ?_
  · -- rows of one stream have distinct versions
    have hkeys := db.events.versions.sublist ((List.filter_sublist (p := P)).map _)
    refine List.pairwise_map.mpr ((List.pairwise_map.mp hkeys).imp_of_mem ?_)
    intro a b ha hb hne hversion
    refine hne (Prod.ext ?_ hversion)
    rw [hP a (List.mem_filter.mp ha).2, hP b (List.mem_filter.mp hb).2]
  · intro r hr r' hr'
    obtain ⟨e, he, rfl⟩ := List.mem_map.mp hr'
    obtain ⟨hmem, hPr⟩ := List.mem_filter.mp hr
    have hold := h.old r hmem (hP r hPr)
    have hnew := h.expected_lt e (List.mem_filter.mp he).1
    show r.version < (e.version.toNat : Int)
    simp only [Envelope.versionNat] at hnew
    omega
  · refine List.pairwise_map.mpr (((pairwise_of_versions h.versions).sublist
      List.filter_sublist).imp ?_)
    exact fun hlt => Int.ofNat_lt.mpr hlt

/-- The new rows that a range of the stream selects. -/
theorem Extended.filter_versionRange (fromVersion toVersion : UInt64) :
    envs.filter (fun e => (eventRow T e).streamID = p.streamID.canonical &&
      (fromVersion.toNat : Int) < (eventRow T e).version &&
        (toVersion == 0 || (eventRow T e).version ≤ (toVersion.toNat : Int))) =
      versionRange fromVersion toVersion envs := by
  refine List.filter_congr (fun e he => ?_)
  simp only [eventRow, (h.appended e he).streamID, decide_true, Bool.true_and, Int.ofNat_lt,
    Int.ofNat_le, UInt64.lt_iff_toNat_lt, UInt64.le_iff_toNat_le]

/-- The new envelopes after a position. -/
def newer (fromPosition : UInt64) (envs : List Envelope) : List Envelope :=
  envs.filter (fun e => fromPosition < e.globalPosition)

/-- The new envelopes of the given types after a position. -/
def newerOf (fromPosition : UInt64) (types : List Bytes) (envs : List Envelope) : List Envelope :=
  envs.filter (fun e => fromPosition < e.globalPosition && e.typeURL ∈ types)

theorem Extended.matching_eq (fromPosition : UInt64) (types : List Bytes) :
    matching db'.events fromPosition types =
      matching db.events fromPosition types ++
        (newerOf fromPosition types envs).map (eventRow T) := by
  rw [matching, h.orderByPosition_eq, matching]
  refine congrArg _ (congrArg _ (List.filter_congr (fun e _ => ?_)))
  simp only [eventRow, Int.ofNat_lt, UInt64.lt_iff_toNat_lt]
  rfl

/-- **Another stream** is read as before. -/
theorem Extended.readStream_of_ne (hsid : sid ≠ p.streamID) (fromVersion toVersion : UInt64) :
    readStream T db'.events sid fromVersion toVersion =
      readStream T db.events sid fromVersion toVersion := by
  unfold readStream
  split
  · rfl
  rename_i hvalid
  split
  · rfl
  refine congrArg _ (congrArg _ ?_)
  rw [h.rows, List.filter_append]
  refine (congrArg _ (List.filter_eq_nil_iff.mpr ?_)).trans (List.append_nil _)
  intro r hr hPr
  obtain ⟨e, he, rfl⟩ := List.mem_map.mp hr
  simp only [Bool.and_eq_true, decide_eq_true_eq] at hPr
  have hcanonical : sid.canonical = p.streamID.canonical := by
    rw [← hPr.1.1, ← (h.appended e he).streamID]
    rfl
  exact hsid (canonical_inj hvalid h.valid hcanonical)

/-- The new rows are within the cap. -/
theorem Extended.overCap_eq {n : Nat} :
    ∀ r ∈ (((newerOf fromPosition types envs).take n).map (eventRow T)).map EventRow.sizeRow,
      overCap cap r.size = false := by
  intro r hr
  obtain ⟨row, hrow, rfl⟩ := List.mem_map.mp hr
  obtain ⟨e, he, rfl⟩ := List.mem_map.mp hrow
  exact h.small e (List.mem_filter.mp (List.mem_of_mem_take he)).1

variable (hscan : ∀ e ∈ envs, scanEnvelope T (eventRow T e) = .ok (readBack T e))

include hscan

/-- **The stream of an append** is read as before, with the new rows at the end. -/
theorem Extended.readStream_eq (fromVersion toVersion : UInt64) :
    readStream T db'.events p.streamID fromVersion toVersion =
      (readStream T db.events p.streamID fromVersion toVersion).map
        (· ++ (versionRange fromVersion toVersion envs).map (readBack T)) := by
  have hvalid : p.streamID.validate = .ok () := h.valid
  simp only [readStream, hvalid]
  split
  · rfl
  · rw [h.orderByVersion_eq, h.filter_versionRange]
    · refine scanAll_append_map _ (fun e he => hscan e (List.mem_filter.mp he).1)
    · intro r hr
      simp only [Bool.and_eq_true, decide_eq_true_eq] at hr
      exact hr.1.1

/-- **The log** is read as before, with the new rows at the end. -/
theorem Extended.readAll_eq (fromPosition : UInt64) (limit : Int) :
    readAll T db'.events fromPosition limit =
      (readAll T db.events fromPosition limit).map (fun old => old ++
        ((newer fromPosition envs).take (pageLimit limit - old.length)).map (readBack T)) := by
  unfold readAll
  split
  · rfl
  rw [h.orderByPosition_eq, List.take_append, ← List.map_take, scanAll_append_map _
    (fun e he => hscan e (List.mem_filter.mp (List.mem_of_mem_take he)).1)]
  have hfilter : envs.filter (fun e => (fromPosition.toNat : Int) < (eventRow T e).globalPosition) =
      newer fromPosition envs :=
    List.filter_congr (fun e _ => by simp only [eventRow, Int.ofNat_lt, UInt64.lt_iff_toNat_lt])
  rw [hfilter]
  generalize hrows : orderByPosition (db.events.rows.filter _) = rows
  cases hold : scanAll (scanEnvelope T) (rows.take (pageLimit limit)) with
  | error err => rfl
  | ok old =>
    have hlen := length_of_scanAll hold
    rw [List.length_take] at hlen
    have hroom : pageLimit limit - old.length = pageLimit limit - rows.length := by omega
    simp only [Except.map, hroom]

/-- **A bounded page** is read as before, with some of the new rows at the end. -/
theorem Extended.readAllBounded_append (fromPosition : UInt64)
    (limit maxBytes : Int) (types : List Bytes) (htypes : types.length + 2 ≤ maxVariableNumber)
    (hlimit : pageLimit limit ≤ maxVariableNumber) :
    ∃ k truncated, readAllBounded T cap db'.events fromPosition limit maxBytes types =
      (readAllBounded T cap db.events fromPosition limit maxBytes types).map (fun page =>
        (page.1 ++ ((newerOf fromPosition types envs).take k).map (readBack T), truncated)) := by
  by_cases hne : types = []
  · refine ⟨0, false, ?_⟩
    rw [readAllBounded, readAllBounded, if_pos hne, if_pos hne]
    rfl
  by_cases hfrom : fromPosition.toNat < 2 ^ 63
  swap
  · refine ⟨0, false, ?_⟩
    rw [readAllBounded, readAllBounded, if_neg hne, if_neg hne, if_pos (Nat.not_lt.mp hfrom),
      if_pos (Nat.not_lt.mp hfrom)]
    rfl
  rw [readAllBounded_eq T cap db'.events maxBytes hfrom hne htypes hlimit,
    readAllBounded_eq T cap db.events maxBytes hfrom hne htypes hlimit, h.matching_eq,
    List.take_append, List.map_append, ← List.map_take]
  set old := matching db.events fromPosition types
  set new := newerOf fromPosition types envs
  have hsmall : ∀ r ∈ ((new.take (pageLimit limit - old.length)).map (eventRow T)).map
      EventRow.sizeRow, overCap cap r.size = false := h.overCap_eq
  obtain ⟨k, cut, hchoice, hk⟩ := choosePositions_append maxBytes
    ((old.take (pageLimit limit)).map EventRow.sizeRow) hsmall
  rw [hchoice]
  set j := (((((new.take (pageLimit limit - old.length)).map (eventRow T)).map
    EventRow.sizeRow).take k).map (·.position)).length with hj
  refine ⟨j, cut, ?_⟩
  rcases hc : choosePositions cap maxBytes ((old.take (pageLimit limit)).map EventRow.sizeRow) with
    err | ⟨ps, truncated⟩
  · rfl
  -- new rows are added only to a page that holds all old ones
  have hfull : j = 0 ∨ ps.length = old.length := by
    simp only [List.length_map, List.length_take] at hj
    rcases hk _ hc with rfl | hall
    · exact .inl (by omega)
    · have hlen := congrArg List.length hall
      simp only [List.length_map, List.length_take] at hlen
      omega
  have hps : ps.length ≤ old.length := by
    have hlen := (choosePositions_isPrefix hc).length_le
    simp only [List.length_map, List.length_take] at hlen
    omega
  have htake : (old ++ new.map (eventRow T)).take (ps.length + j) =
      old.take ps.length ++ (new.take j).map (eventRow T) := by
    rw [List.take_append, List.map_take]
    rcases hfull with h0 | hlen
    · rw [h0, Nat.add_zero, Nat.sub_eq_zero_of_le hps]
    · rw [hlen, Nat.add_sub_cancel_left, List.take_of_length_le (Nat.le_add_right _ _),
        List.take_of_length_le le_rfl]
  have hscanned : ∀ e ∈ new.take j, scanEnvelope T (eventRow T e) = .ok (readBack T e) :=
    fun e he => hscan e (List.mem_filter.mp (List.mem_of_mem_take he)).1
  simp only [Except.map, List.length_append, ← hj, htake, scanAll_append_map _ hscanned]
  cases scanAll (scanEnvelope T) (old.take ps.length) <;> rfl

/-- **A bounded page of new rows**: as many of them as the budget allows. -/
theorem Extended.readAllBounded_new {limit : Int}
    (maxBytes : Int) (hlast : db.lastPosition ≤ fromPosition.toNat) (hfrom : fromPosition.toNat < 2 ^ 63)
    (hne : types ≠ []) (htypes : types.length + 2 ≤ maxVariableNumber)
    (hlimit : pageLimit limit ≤ maxVariableNumber) :
    ∃ positions truncated,
      choosePositions cap maxBytes (((newerOf fromPosition types envs).take (pageLimit limit)).map
        (fun e => (eventRow T e).sizeRow)) = .ok (positions, truncated) ∧
      readAllBounded T cap db'.events fromPosition limit maxBytes types =
        .ok (((newerOf fromPosition types envs).take positions.length).map (readBack T),
          truncated) := by
  have hold : matching db.events fromPosition types = [] := by
    rw [List.eq_nil_iff_forall_not_mem]
    intro r hr
    obtain ⟨hmem, hP⟩ := List.mem_filter.mp (mem_orderByPosition.mp hr)
    rw [Bool.and_eq_true, decide_eq_true_eq] at hP
    have := Db.position_le hmem
    omega
  rw [readAllBounded_eq T cap db'.events maxBytes hfrom hne htypes hlimit, h.matching_eq, hold,
    List.nil_append, ← List.map_take, List.map_map]
  have hsmall : ∀ r ∈ ((newerOf fromPosition types envs).take (pageLimit limit)).map
      (EventRow.sizeRow ∘ eventRow T), overCap cap r.size = false := by
    rw [← List.map_map]
    exact h.overCap_eq
  obtain ⟨k, cut, hchoice, -⟩ := choosePositions_append maxBytes [] hsmall
  rw [List.nil_append] at hchoice
  rcases hc : choosePositions cap maxBytes (((newerOf fromPosition types envs).take
    (pageLimit limit)).map (EventRow.sizeRow ∘ eventRow T)) with err | ⟨positions, truncated⟩
  · rw [hc] at hchoice
    cases hchoice
  · refine ⟨positions, truncated, hc, ?_⟩
    have hpage : scanAll (scanEnvelope T) (((newerOf fromPosition types envs).map (eventRow T)).take
        positions.length) =
          .ok (((newerOf fromPosition types envs).take positions.length).map (readBack T)) := by
      rw [← List.map_take]
      exact scanAll_map_eq_ok
        (fun e he => hscan e (List.mem_filter.mp (List.mem_of_mem_take he)).1)
    simp only [hpage]

end Extended

/-! ## What an append accepts and what can be read back -/

/-- **What an append returned is read back.** Every read of the database is what it was before the
append, with the new envelopes at the end: reads of the stream, pages of the log, and bounded pages
with as many types and rows as a statement can have parameters. -/
structure ReadsBack (T : GoText) (cap : Int) (sid : StreamID) (db db' : Db) (envs : List Envelope) :
    Prop where
  stream : ∀ fromVersion toVersion, readStream T db'.events sid fromVersion toVersion =
    (readStream T db.events sid fromVersion toVersion).map
      (· ++ (versionRange fromVersion toVersion envs).map (readBack T))
  log : ∀ fromPosition limit, readAll T db'.events fromPosition limit =
    (readAll T db.events fromPosition limit).map (fun old => old ++
      ((newer fromPosition envs).take (pageLimit limit - old.length)).map (readBack T))
  page : ∀ fromPosition limit maxBytes types, types.length + 2 ≤ maxVariableNumber →
    pageLimit limit ≤ maxVariableNumber →
    ∃ k truncated, readAllBounded T cap db'.events fromPosition limit maxBytes types =
      (readAllBounded T cap db.events fromPosition limit maxBytes types).map (fun page =>
        (page.1 ++ ((newerOf fromPosition types envs).take k).map (readBack T), truncated))
  newPage : ∀ fromPosition limit maxBytes types, types.length + 2 ≤ maxVariableNumber →
    pageLimit limit ≤ maxVariableNumber → db.lastPosition ≤ fromPosition.toNat →
    fromPosition.toNat < 2 ^ 63 → types ≠ [] →
    ∃ positions truncated,
      choosePositions cap maxBytes (((newerOf fromPosition types envs).take (pageLimit limit)).map
        (fun e => (eventRow T e).sizeRow)) = .ok (positions, truncated) ∧
      readAllBounded T cap db'.events fromPosition limit maxBytes types =
        .ok (((newerOf fromPosition types envs).take positions.length).map (readBack T), truncated)

/-- The domain time that an append takes: the given one, or now. -/
def occurredTime (inp : AppendInputs) (p : AppendParams) : Time :=
  if p.occurredAt.isZero then inp.occurredNow else p.occurredAt

section Main

variable {T : GoText} {cap : Int} {inp : AppendInputs} {p : AppendParams} {db db' : Db}
  {envs : List Envelope}

theorem Extended.readsBack (h : Extended T cap inp p db db' envs)
    (hscan : ∀ e ∈ envs, scanEnvelope T (eventRow T e) = .ok (readBack T e)) :
    ReadsBack T cap p.streamID db db' envs where
  stream := h.readStream_eq hscan
  log := h.readAll_eq hscan
  page := h.readAllBounded_append hscan
  newPage := fun _ _ maxBytes _ htypes hlimit hlast hfrom hne =>
    h.readAllBounded_new hscan maxBytes hlast hfrom hne htypes hlimit

/-- The range after the version that the append expected holds exactly the new rows. -/
theorem Extended.orderByVersion_new (h : Extended T cap inp p db db' envs) :
    readStream T db'.events p.streamID p.expectedVersion 0 =
        scanAll (scanEnvelope T) (envs.map (eventRow T)) ∧
      readStream T db.events p.streamID p.expectedVersion 0 = .ok [] := by
  have hvalid : p.streamID.validate = .ok () := h.valid
  have hbounds : ¬ (2 ^ 63 ≤ p.expectedVersion.toNat ∨ 2 ^ 63 ≤ (0 : UInt64).toNat) := by
    have := h.expected
    simp only [UInt64.toNat_zero]
    omega
  have hold : db.events.rows.filter (fun r => r.streamID = p.streamID.canonical &&
      (p.expectedVersion.toNat : Int) < r.version &&
        ((0 : UInt64) == 0 || r.version ≤ ((0 : UInt64).toNat : Int))) = [] := by
    rw [List.filter_eq_nil_iff]
    intro r hr hP
    simp only [Bool.and_eq_true, decide_eq_true_eq] at hP
    have := h.old r hr hP.1.1
    omega
  have hnew : versionRange p.expectedVersion 0 envs = envs := by
    refine List.filter_eq_self.mpr (fun e he => ?_)
    have hlt : p.expectedVersion < e.version := UInt64.lt_iff_toNat_lt.mpr (h.expected_lt e he)
    simp [hlt]
  have hnil : orderByVersion [] = [] := orderByVersion_of_sorted .nil
  constructor
  · simp only [readStream, hvalid, if_neg hbounds]
    rw [h.orderByVersion_eq, h.filter_versionRange, hold, hnew, hnil, List.nil_append]
    · intro r hr
      simp only [Bool.and_eq_true, decide_eq_true_eq] at hr
      exact hr.1.1
  · simp only [readStream, hvalid, if_neg hbounds]
    rw [hold, hnil]
    rfl

/-- **What an append accepts can be read back, exactly if it has no events or the years of its
timestamps have four digits.** Whatever they are, other streams are read as before. -/
theorem reads_back_iff (hT : T.Documented) {res : AppendResult}
    (hok : append T cap inp p db = .ok (db', res)) :
    (ReadsBack T cap p.streamID db db' res.envelopes ↔
      p.events = [] ∨ (occurredTime inp p).FourDigitYear ∧ inp.recordedNow.FourDigitYear) ∧
    ∀ sid ≠ p.streamID, ∀ fromVersion toVersion,
      readStream T db'.events sid fromVersion toVersion =
        readStream T db.events sid fromVersion toVersion := by
  have h := extended_of_append hok
  have hyears : ∀ e ∈ res.envelopes, (e.occurredAt.FourDigitYear ∧ e.recordedAt.FourDigitYear ↔
      (occurredTime inp p).FourDigitYear ∧ inp.recordedNow.FourDigitYear) := by
    intro e he
    rw [(h.appended e he).occurredAt, (h.appended e he).recordedAt, fourDigitYear_truncateMicros,
      fourDigitYear_truncateMicros]
    rfl
  refine ⟨⟨fun hreads => ?_, fun hcond => h.readsBack (fun e he => ?_)⟩,
    fun sid hsid => h.readStream_of_ne hsid⟩
  · -- if a row does not scan, the stream is not read
    rcases hevents : p.events with _ | ⟨ev, evs⟩
    · exact .inl rfl
    · refine .inr (by_contra fun hnot => ?_)
      have hlen := h.length
      rw [hevents, List.length_cons] at hlen
      obtain ⟨e, he⟩ : ∃ e, e ∈ res.envelopes := List.exists_mem_of_length_pos (by omega)
      obtain ⟨err, herr⟩ := scanEnvelope_error hT (mt (hyears e he).mp hnot)
      obtain ⟨err', herr'⟩ := scanAll_error_of_mem (List.mem_map_of_mem he) herr
      obtain ⟨hnew, hold⟩ := h.orderByVersion_new
      have hstream := hreads.stream p.expectedVersion 0
      rw [hnew, hold, herr'] at hstream
      cases hstream
  · rcases hcond with hnil | hcond
    · have hlen := h.length
      rw [hnil, List.length_nil] at hlen
      rw [List.length_eq_zero_iff.mp hlen] at he
      cases he
    · obtain ⟨hoccurred, hrecorded⟩ := (hyears e he).mpr hcond
      exact scanEnvelope_readBack hT ((h.appended e he).storable h.valid) hoccurred hrecorded

end Main

/-- Whether a read fails with an error of the database. -/
def failsWith {α : Type} (text : Bytes) : Except StoreError α → Bool
  | .error (.backend text') => text' == text
  | _ => false

theorem failsWith_iff {α : Type} {text : Bytes} {r : Except StoreError α} :
    failsWith text r = true ↔ r = .error (.backend text) := by
  rcases r with (s | text') | x <;> simp [failsWith]

/-- An append of one event to a new stream, with a domain time. -/
def datedAppend (occurredAt : Time) : AppendParams where
  streamID := counterMain
  expectedVersion := 0
  events := [⟨.zero 16, str "counter.v1.Incremented", 1, some [1]⟩]
  constraints := []
  commandID := .zero 16
  correlationID := .zero 16
  causationID := .zero 16
  actor := ⟨str "user", str "alice"⟩
  occurredAt := occurredAt

/-- An event of the year 2026 is read back. -/
theorem reads_back_2026 :
    ∃ db' res, append storeText 0 epochInputs (datedAppend ⟨1790000000000000000⟩) .empty =
        .ok (db', res) ∧ ReadsBack storeText 0 counterMain .empty db' res.envelopes := by
  have hsome : (append storeText 0 epochInputs (datedAppend ⟨1790000000000000000⟩) .empty).isOk =
      true := by decide +kernel
  rcases hok : append storeText 0 epochInputs (datedAppend ⟨1790000000000000000⟩) .empty with
    err | ⟨db', res⟩
  · rw [hok] at hsome
    cases hsome
  · refine ⟨db', res, rfl, ?_⟩
    exact (reads_back_iff documented_storeText hok).1.mpr (.inr ⟨by decide, by decide⟩)

/-- **An event of the year 10000** is accepted and written, and then neither its stream nor the log can
be read. -/
theorem unreadable_year_10000 :
    ∃ db' res, append storeText 0 epochInputs (datedAppend ⟨253402300800000000000⟩) .empty =
        .ok (db', res) ∧
      readStream storeText db'.events counterMain 0 0 =
        .error (.backend (str "parse occurred_at")) ∧
      readAll storeText db'.events 0 100 = .error (.backend (str "parse occurred_at")) := by
  have hrun : (append storeText 0 epochInputs (datedAppend ⟨253402300800000000000⟩) .empty).toOption.any
      (fun x => failsWith (str "parse occurred_at") (readStream storeText x.1.events counterMain 0 0) &&
        failsWith (str "parse occurred_at") (readAll storeText x.1.events 0 100)) = true := by
    decide +kernel
  rcases hok : append storeText 0 epochInputs (datedAppend ⟨253402300800000000000⟩) .empty with
    err | ⟨db', res⟩
  · rw [hok] at hrun
    cases hrun
  · rw [hok] at hrun
    have hrun := Bool.and_eq_true_iff.mp hrun
    exact ⟨db', res, rfl, failsWith_iff.mp hrun.1, failsWith_iff.mp hrun.2⟩

end EsLite.Sqlite
