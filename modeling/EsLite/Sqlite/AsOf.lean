import EsLite.Sqlite.Pages

/-!
# Reading a stream as it was

A read up to a version returns the events up to it (`readStream_upTo`).

`ReadStreamAsOf` compares the recorded times as text. Under a clock that does not go back, a stream is
recorded in the order of its versions, so what was recorded by an instant is its first versions
(`recordedBy_eq_take`). The text of an instant whose year has more than four digits is in the place of
its first four, so `ReadStreamAsOf` is right for it only if no event is from a later year than these
(`asOf_reads_prefix_iff`).
-/

namespace EsLite

variable {es : List Envelope} {T : GoText}

variable {calls : List (AppendInputs × AppendParams)} {asOf : Time}

namespace Sqlite

/-! ## Up to a version -/

/-- A version belongs to one row of a stream. -/
theorem nodup_versions (t : EventsTable) (streamID : Bytes) (P : EventRow → Bool) :
    ((t.rows.filter (fun r => r.streamID = streamID && P r)).map (·.version)).Nodup := by
  have hkeys := List.pairwise_map.mp t.versions
  refine List.pairwise_map.mpr ((hkeys.filter _).imp_of_mem (fun {a b} ha hb hne heq => hne ?_))
  have hstream : ∀ r ∈ t.rows.filter (fun r => r.streamID = streamID && P r),
      r.streamID = streamID := by
    intro r hr
    have := (List.mem_filter.mp hr).2
    rw [Bool.and_eq_true, decide_eq_true_eq] at this
    exact this.1
  rw [hstream a ha, hstream b hb, heq]

/-- Scanning some of the rows gives some of what scanning all of them gives. -/
theorem scanAll_filter {α β : Type} {scan : α → Except StoreError β} {rs : List α} {xs : List β}
    (h : scanAll scan rs = .ok xs) {p : α → Bool} {q : β → Bool}
    (hpq : ∀ r x, scan r = .ok x → p r = q x) : scanAll scan (rs.filter p) = .ok (xs.filter q) := by
  rw [scanAll_eq_ok] at h ⊢
  induction rs generalizing xs with
  | nil =>
    cases xs with
    | nil => rfl
    | cons x xs => cases h
  | cons r rs ih =>
    cases xs with
    | nil => cases h
    | cons x xs =>
      rw [List.map_cons, List.map_cons, List.cons.injEq] at h
      have hp := hpq r x h.1
      by_cases hq : q x = true
      · rw [List.filter_cons_of_pos (hp.trans hq), List.filter_cons_of_pos hq, List.map_cons,
          List.map_cons, h.1, ih h.2]
      · rw [List.filter_cons_of_neg (hp ▸ hq), List.filter_cons_of_neg hq, ih h.2]

/-- **A read up to a version** returns the events of the whole stream up to it. -/
theorem readStream_upTo {t : EventsTable} {sid : StreamID} {envs : List Envelope}
    (h : readStream T t sid 0 0 = .ok envs) {v : UInt64} (hv : v ≠ 0) (hlt : v.toNat < 2 ^ 63) :
    readStream T t sid 0 v = .ok (envs.filter (fun e => e.version ≤ v)) := by
  unfold readStream at h ⊢
  split at h
  · cases h
  rw [if_neg (by decide)] at h
  rw [if_neg (by rw [show (0 : UInt64).toNat = 0 from rfl]; omega)]
  -- the rows of the stream, and those of them up to the version
  have hwhole : ∀ r : EventRow, (decide (r.streamID = sid.canonical) &&
      decide (((0 : UInt64).toNat : Int) < r.version) &&
        ((0 : UInt64) == 0 || decide (r.version ≤ ((0 : UInt64).toNat : Int)))) =
      (decide (r.streamID = sid.canonical) && decide (0 < r.version)) := by
    intro r
    rw [beq_self_eq_true, Bool.true_or, Bool.and_true]
    rfl
  have hupto : ∀ r : EventRow, (decide (r.streamID = sid.canonical) &&
      decide (((0 : UInt64).toNat : Int) < r.version) &&
        (v == 0 || decide (r.version ≤ (v.toNat : Int)))) =
      (decide (r.version ≤ (v.toNat : Int)) &&
        (decide (r.streamID = sid.canonical) && decide (0 < r.version))) := by
    intro r
    rw [beq_eq_false_iff_ne.mpr hv, Bool.false_or, Bool.and_comm]
    rfl
  simp only [hwhole] at h
  simp only [hupto]
  rw [← List.filter_filter, orderByVersion, mergeSort_filter (nodup_versions t sid.canonical _)]
  refine scanAll_filter h (fun r e hscan => ?_)
  obtain ⟨hversion, -⟩ := scanUint64_eq_some (scanEnvelope_eq_ok hscan).1
  rw [hversion, decide_eq_decide, Int.ofNat_le, UInt64.le_iff_toNat_le]

/-- The events up to a version, in a stream that is numbered from `n + 1` on. -/
theorem filter_version_le_sub {n : Nat} (h : es.map Envelope.versionNat = List.range' (n + 1) es.length)
    (v : UInt64) : es.filter (fun e => e.version ≤ v) = es.take (v.toNat - n) := by
  induction es generalizing n with
  | nil => rw [List.take_nil, List.filter_nil]
  | cons e es ih =>
    rw [List.map_cons, List.length_cons, List.range'_succ, List.cons.injEq] at h
    obtain ⟨hversion, hrest⟩ := h
    have htail := ih hrest
    simp only [Envelope.versionNat] at hversion
    by_cases hv : e.version ≤ v
    · have hle := UInt64.le_iff_toNat_le.mp hv
      rw [List.filter_cons_of_pos (by simpa using hv), htail,
        show v.toNat - n = v.toNat - (n + 1) + 1 by omega, List.take_succ_cons]
    · have hlt := mt UInt64.le_iff_toNat_le.mpr hv
      rw [show v.toNat - (n + 1) = 0 by omega, List.take_zero] at htail
      rw [List.filter_cons_of_neg (by simpa using hv), htail, show v.toNat - n = 0 by omega,
        List.take_zero]

/-- The events of a stream that is numbered from 1 on, up to a version. -/
theorem filter_version_le (h : es.map Envelope.versionNat = List.range' 1 es.length) (v : UInt64) :
    es.filter (fun e => e.version ≤ v) = es.take v.toNat :=
  filter_version_le_sub (n := 0) h v

/-! ## Recorded times -/

/-- The events recorded at or before an instant. -/
def recordedBy (asOf : Time) (es : List Envelope) : List Envelope :=
  es.filter (fun e => e.recordedAt.ns ≤ asOf.ns)

/-- Truncation to microseconds keeps the order of time. -/
theorem truncateMicros_mono {t u : Time} (h : t.ns ≤ u.ns) :
    (truncateMicros t).ns ≤ (truncateMicros u).ns := by
  simp only [truncateMicros]
  omega

/-- **The clock does not go back**: from one call to a later one. -/
def ClockSorted (calls : List (AppendInputs × AppendParams)) : Prop :=
  calls.Pairwise (fun c d => c.1.recordedNow.ns ≤ d.1.recordedNow.ns)

/-- A run of appends records its events in the order of time. -/
theorem recordedAt_sorted {cap : Int} {db : Db} {log : List Envelope} (h : Written T db log)
    (hclock : ClockSorted calls) (hlog : log.Pairwise (fun e f => e.recordedAt.ns ≤ f.recordedAt.ns))
    (hbefore : ∀ e ∈ log, ∀ c ∈ calls, e.recordedAt.ns ≤ (truncateMicros c.1.recordedNow).ns) :
    (appendRun T cap (db, log) calls).2.Pairwise (fun e f => e.recordedAt.ns ≤ f.recordedAt.ns) := by
  induction calls generalizing db log with
  | nil => exact hlog
  | cons call calls ih =>
    obtain ⟨inp, p⟩ := call
    obtain ⟨hfirst, hrest⟩ := List.pairwise_cons.mp hclock
    simp only [appendRun]
    rcases hres : append T cap inp p db with err | ⟨db', res⟩
    · exact ih h hrest hlog (fun e he c hc => hbefore e he c (List.mem_cons_of_mem _ hc))
    · obtain ⟨-, -, hmig, happended, -⟩ := migrated_append h.migrated hres
      have hnow : ∀ e ∈ res.envelopes, e.recordedAt = truncateMicros inp.recordedNow :=
        fun e he => (happended e he).recordedAt
      refine ih hmig.written hrest ?_ (fun e he c hc => ?_)
      · refine List.pairwise_append.mpr ⟨hlog, ?_, fun e he f hf => ?_⟩
        · -- the events of one append are recorded at the same time
          exact List.pairwise_of_forall_mem_list (fun e he f hf => by rw [hnow e he, hnow f hf])
        · rw [hnow f hf]
          exact hbefore e he (inp, p) List.mem_cons_self
      · rcases List.mem_append.mp he with hold | hnew
        · exact hbefore e hold c (List.mem_cons_of_mem _ hc)
        · rw [hnow e hnew]
          exact truncateMicros_mono (hfirst c hc)

/-- **What was recorded by an instant** is the stream up to a version. -/
theorem recordedBy_eq_take {cap : Int} (hclock : ClockSorted calls) (sid : StreamID) (asOf : Time) :
    ∃ k ≤ (ofStream sid (appendRun T cap (.empty, []) calls).2).length,
      recordedBy asOf (ofStream sid (appendRun T cap (.empty, []) calls).2) =
        (ofStream sid (appendRun T cap (.empty, []) calls).2).take k := by
  have hsorted : (appendRun T cap (.empty, []) calls).2.Pairwise
      (fun e f => e.recordedAt.ns ≤ f.recordedAt.ns) :=
    recordedAt_sorted (written_empty T) hclock .nil (by simp)
  exact filter_le_eq_take (hsorted.sublist List.filter_sublist) asOf.ns

/-! ## The read -/

/-- The stored text is at or before that of the instant. -/
def textBy (asOf : Time) (es : List Envelope) : List Envelope :=
  es.filter (fun e => !lexLt (formatTS asOf) (formatTS e.recordedAt))

/-- **Reading as of a time** scans the rows of the events whose text is at or before its text. -/
theorem Written.readStreamAsOf_eq (hT : T.Documented) {db : Db} {log : List Envelope}
    (h : Written T db log) {sid : StreamID} (hsid : sid.Valid) (asOf : Time) :
    readStreamAsOf T db.events sid asOf =
      scanAll (scanEnvelope T) ((textBy asOf (ofStream sid log)).map (eventRow T)) := by
  have hvalid : sid.validate = .ok () := hsid
  have hfilter : db.events.rows.filter (fun r => r.streamID = sid.canonical &&
      !lexLt (T.formatTS asOf) r.recordedAt) =
      (textBy asOf (ofStream sid log)).map (eventRow T) := by
    have hsplit : db.events.rows.filter (fun r => r.streamID = sid.canonical &&
        !lexLt (T.formatTS asOf) r.recordedAt) =
        (db.events.rows.filter (·.streamID = sid.canonical)).filter
          (fun r => !lexLt (T.formatTS asOf) r.recordedAt) := by
      rw [List.filter_filter]
      exact List.filter_congr (fun r _ => Bool.and_comm ..)
    rw [hsplit, h.rows_ofStream hsid, List.filter_map, textBy]
    refine congrArg _ (List.filter_congr (fun e _ => ?_))
    simp only [Function.comp_apply, eventRow, hT.formatTS]
  have hsub : (textBy asOf (ofStream sid log)).Sublist (ofStream sid log) := List.filter_sublist
  simp only [readStreamAsOf, hvalid]
  rw [hfilter, orderByVersion_of_sorted ((h.sorted_ofStream sid).sublist (hsub.map _))]

/-- Up to a year of four digits the text decides as the time does. -/
theorem textBy_eq_recordedBy (hyear : asOf.date.year ≤ 9999)
    (hes : ∀ e ∈ es, e.recordedAt.FourDigitYear) : textBy asOf es = recordedBy asOf es := by
  refine List.filter_congr (fun e he => ?_)
  have hiff : lexLt (formatTS asOf) (formatTS e.recordedAt) = true ↔
      asOf.ns < e.recordedAt.ns := by
    by_cases hneg : asOf.date.year < 0
    · exact iff_of_true (lexLt_formatTS_negative hneg (hes e he))
        (Time.ns_lt_of_year_lt (lt_of_lt_of_le hneg (hes e he).1))
    · exact lexLt_formatTS ⟨by omega, hyear⟩ (hes e he)
  rw [Bool.eq_iff_iff, Bool.not_eq_true', decide_eq_true_eq, ← not_lt, ← hiff, Bool.not_eq_true]

/-- With a longer year, the text decides by its first four digits. -/
theorem mem_textBy (hyear : 9999 < asOf.date.year) {e : Envelope} (he : e ∈ es)
    (hfour : e.recordedAt.FourDigitYear) :
    e ∈ textBy asOf es ↔ e.recordedAt.date.year ≤ leadingYear asOf.date.year := by
  rw [textBy, List.mem_filter, and_iff_right he, Bool.not_eq_true', ← not_lt,
    ← lexLt_formatTS_long hyear hfour, Bool.not_eq_true]

/-- An instant after the year 9999 is after everything that is stored. -/
theorem recordedBy_eq_self (hyear : 9999 < asOf.date.year) (hes : ∀ e ∈ es, e.recordedAt.FourDigitYear) :
    recordedBy asOf es = es := by
  refine List.filter_eq_self.mpr (fun e he => decide_eq_true ?_)
  exact (Time.ns_lt_of_year_lt (lt_of_le_of_lt (hes e he).2 hyear)).le

/-- The text decides as the time does exactly if it has four digits for the year, or its first four do
for every event. -/
theorem textBy_eq_recordedBy_iff (asOf : Time) (hes : ∀ e ∈ es, e.recordedAt.FourDigitYear) :
    textBy asOf es = recordedBy asOf es ↔
      asOf.date.year ≤ 9999 ∨ ∀ e ∈ es, e.recordedAt.date.year ≤ leadingYear asOf.date.year := by
  by_cases hyear : asOf.date.year ≤ 9999
  · exact iff_of_true (textBy_eq_recordedBy hyear hes) (.inl hyear)
  · rw [or_iff_right hyear]
    have hyear := not_le.mp hyear
    rw [recordedBy_eq_self hyear hes, textBy, List.filter_eq_self]
    refine forall₂_congr (fun e he => ?_)
    rw [← mem_textBy hyear he (hes e he), textBy, List.mem_filter, and_iff_right he]

/-- **As-of reads are prefixes**, for years of four digits. Take any calls of append, successful or not,
under a clock in the years 1 to 9999 that does not go back, and any stream and instant. Then
`ReadStreamAsOf` returns exactly the events recorded at or before the instant, which are versions 1 to
some `k`, if and only if these can be read at all, and the year of the instant is at most 9999, or no
event of the stream was recorded in a later year than its first four digits. -/
theorem asOf_reads_prefix_iff {T : GoText} (hT : T.Documented) (cap : Int)
    (calls : List (AppendInputs × AppendParams)) (hcalls : ∀ c ∈ calls, c.1.recordedNow.InRange)
    (hclock : ClockSorted calls) (sid : StreamID) (hsid : sid.Valid) (asOf : Time) :
    let db := (appendRun T cap (.empty, []) calls).1
    let stream := ofStream sid (appendRun T cap (.empty, []) calls).2
    (∃ k ≤ stream.length, recordedBy asOf stream = stream.take k ∧
        (stream.take k).map Envelope.versionNat = List.range' 1 k ∧
        readStreamAsOf T db.events sid asOf = .ok ((stream.take k).map (readBack T))) ↔
      (∀ e ∈ recordedBy asOf stream, e.occurredAt.FourDigitYear) ∧
        (asOf.date.year ≤ 9999 ∨
          ∀ e ∈ stream, e.recordedAt.date.year ≤ leadingYear asOf.date.year) := by
  intro db stream
  have hw : Written T db (appendRun T cap (.empty, []) calls).2 :=
    written_appendRun (written_empty T) calls
  have hrows : ∀ e ∈ stream, Storable e ∧ e.recordedAt.FourDigitYear := by
    intro e hmem
    have he := (mem_ofStream.mp hmem).1
    rcases appended_of_appendRun (written_empty T).migrated calls e he with hnil | ⟨c, hc, happended⟩
    · cases hnil
    · refine ⟨happended.storable (happended.streamID ▸ hw.valid e he), ?_⟩
      rw [happended.recordedAt, fourDigitYear_truncateMicros]
      exact (hcalls c hc).fourDigitYear
  have hfour : ∀ e ∈ stream, e.recordedAt.FourDigitYear := fun e he => (hrows e he).2
  obtain ⟨k, hk, htake⟩ : ∃ k ≤ stream.length, recordedBy asOf stream = stream.take k :=
    recordedBy_eq_take hclock sid asOf
  have hversions : (stream.take k).map Envelope.versionNat = List.range' 1 k := by
    rw [List.map_take, hw.versions sid, List.take_range'_of_length_ge hk]
  rw [hw.readStreamAsOf_eq hT hsid, ← textBy_eq_recordedBy_iff asOf hfour]
  constructor
  · rintro ⟨j, hj, hby, -, hread⟩
    rw [← hby] at hread
    have htext : textBy asOf stream = recordedBy asOf stream := by
      have hlen := length_of_scanAll hread
      rw [List.length_map, List.length_map] at hlen
      rcases le_or_gt asOf.date.year 9999 with hyear | hyear
      · exact textBy_eq_recordedBy hyear hfour
      · -- every event was recorded by then, so that the text leaves none out
        rw [recordedBy_eq_self hyear hfour] at hlen ⊢
        exact List.filter_sublist.eq_of_length hlen.symm
    refine ⟨fun e he => ?_, htext⟩
    by_contra hoccurred
    obtain ⟨err, herr⟩ := scanEnvelope_error hT (fun hboth => hoccurred hboth.1)
    obtain ⟨err, hfail⟩ := scanAll_error_of_mem (List.mem_map_of_mem (htext ▸ he)) herr
    rw [hfail] at hread
    cases hread
  · rintro ⟨hoccurred, htext⟩
    refine ⟨k, hk, htake, hversions, ?_⟩
    rw [htext, ← htake]
    refine scanAll_map_eq_ok (fun e he => ?_)
    obtain ⟨hstorable, hrecorded⟩ := hrows e (List.mem_of_mem_filter he)
    exact scanEnvelope_readBack hT hstorable (hoccurred e he) hrecorded

/-- An append of one event, recorded at the epoch. -/
def epochCall : AppendInputs × AppendParams := (epochInputs, datedAppend ⟨0⟩)

/-- Two appends to `counter:main`, recorded at the epoch and at the start of 2027. -/
def datedCalls : List (AppendInputs × AppendParams) :=
  [epochCall, (⟨⟨1798761600000000000⟩, ⟨1798761600000000000⟩, fun _ => .fill 16 2⟩,
    { datedAppend ⟨1798761600000000000⟩ with expectedVersion := 1 })]

/-- At the start of 2026 the first of two events is read, and the other one is not recorded yet. -/
theorem asOf_reads_2026 :
    let log := (appendRun storeText 0 (.empty, []) datedCalls).2
    (ofStream counterMain log).length = 2 ∧
      readStreamAsOf storeText (appendRun storeText 0 (.empty, []) datedCalls).1.events counterMain
        ⟨1767225600000000000⟩ = .ok (((ofStream counterMain log).take 1).map (readBack storeText)) := by
  intro log
  obtain ⟨hlen, hby, hoccurred⟩ : (ofStream counterMain log).length = 2 ∧
      (recordedBy ⟨1767225600000000000⟩ (ofStream counterMain log)).length = 1 ∧
      ∀ e ∈ recordedBy ⟨1767225600000000000⟩ (ofStream counterMain log), e.occurredAt.FourDigitYear := by
    decide +kernel
  obtain ⟨k, hk, htake, -, hread⟩ := (asOf_reads_prefix_iff documented_storeText 0 datedCalls (by decide)
    (List.pairwise_pair.mpr (by decide)) counterMain (by decide) ⟨1767225600000000000⟩).mpr
      ⟨hoccurred, .inl (by decide)⟩
  have hone : (recordedBy ⟨1767225600000000000⟩ (ofStream counterMain log)).length = k := by
    rw [htake, List.length_take, Nat.min_eq_left hk]
  obtain rfl : 1 = k := hby.symm.trans hone
  exact ⟨hlen, hread⟩

/-- At the start of the year 10000 the event recorded in 1970 is not read any more. -/
theorem asOf_misses_year_10000 :
    (appendRun storeText 0 (.empty, []) [epochCall]).2.map (fun e =>
        (e.streamID, decide (e.recordedAt.ns ≤ 253402300800000000000))) = [(counterMain, true)] ∧
      (readStreamAsOf storeText (appendRun storeText 0 (.empty, []) [epochCall]).1.events counterMain
        ⟨253402300800000000000⟩).toOption = some [] := by
  decide +kernel

end Sqlite

end EsLite
