import EsLite.Es.Honest
import EsLite.Sqlite.Written

/-!
# Reading rows back

A row comes back as the envelope it was written from exactly when the years of its two timestamps have
four digits (`scanEnvelope_readBack`, `scanEnvelope_error`). With that, the stream of every honest
sequence of appends verifies as it is read back (`honest_appends_verify`).
-/

namespace EsLite

/-- The year of an instant in UTC has four digits. -/
def Time.FourDigitYear (t : Time) : Prop := 0 ≤ t.date.year ∧ t.date.year ≤ 9999

instance (t : Time) : Decidable t.FourDigitYear := inferInstanceAs (Decidable (_ ∧ _))

@[simp] theorem fourDigitYear_truncateMicros (t : Time) :
    (truncateMicros t).FourDigitYear ↔ t.FourDigitYear := by
  rw [Time.FourDigitYear, Time.FourDigitYear, Time.date_truncateMicros]

/-- The years 1 to 9999. -/
def Time.InRange (t : Time) : Prop := 1 ≤ t.date.year ∧ t.date.year ≤ 9999

instance (t : Time) : Decidable t.InRange := inferInstanceAs (Decidable (_ ∧ _))

theorem Time.InRange.fourDigitYear {t : Time} (h : t.InRange) : t.FourDigitYear :=
  ⟨by have := h.1; omega, h.2⟩

namespace Sqlite

/-! ## One row -/

/-- An envelope as it is read back: its payload as the driver returns the bytes. -/
def readBack (T : GoText) (e : Envelope) : Envelope :=
  { e with payload := T.blob (e.payload.getD []) }

/-- The payload of an envelope that is read back has the same bytes. -/
theorem payload_readBack (T : GoText) (e : Envelope) :
    (readBack T e).payload.getD [] = e.payload.getD [] := T.blob_getD _

/-- The hash attests the bytes of the payload, not how they are represented. -/
theorem envelopeHash_readBack (T : GoText) (e : Envelope) :
    envelopeHash (readBack T e) = envelopeHash e := by
  apply envelopeHash_congr
  simp only [Envelope.attested, payload_readBack]
  rfl

/-- What the columns of a row can hold of an envelope. -/
structure Storable (e : Envelope) : Prop where
  valid : e.streamID.Valid
  workspace : e.workspace = []
  version : e.versionNat < 2 ^ 63
  position : e.globalPosition.toNat < 2 ^ 63
  prevHash : e.prevHash = none ∨ ∃ d : Digest, e.prevHash = some d.bytes
  hash : e.hash = none ∨ ∃ d : Digest, e.hash = some d.bytes

/-- A nullable digest scans back. -/
theorem scanBlob_eq {T : GoText} {b : Option Bytes} (h : b = none ∨ ∃ d : Digest, b = some d.bytes) :
    scanBlob T b = b := by
  rcases h with rfl | ⟨d, rfl⟩
  · rfl
  · exact scanBlob_digest T d

section Scan

variable {T : GoText} {e : Envelope}

/-- **A row is read back** as the envelope it was written from, if the years of its timestamps have
four digits. -/
theorem scanEnvelope_readBack (hT : T.Documented) (h : Storable e)
    (hoccurred : e.occurredAt.FourDigitYear) (hrecorded : e.recordedAt.FourDigitYear) :
    scanEnvelope T (eventRow T e) = .ok (readBack T e) := by
  have hposition : scanUint64 (eventRow T e).globalPosition = some e.globalPosition :=
    scanUint64_natCast h.position
  have hversion : scanUint64 (eventRow T e).version = some e.version := scanUint64_natCast h.version
  have hschema : scanUint32 (eventRow T e).schemaVersion = some e.schemaVersion :=
    scanUint32_natCast e.schemaVersion
  have hsid : parseCanonical (eventRow T e).streamID = .ok e.streamID :=
    parseCanonical_canonical h.valid
  have hts : ∀ t : Time, t.FourDigitYear → T.parseTS (T.formatTS t) = some t := by
    intro t ht
    rw [hT.formatTS, hT.parseTS, parseTS_formatTS ht.1 ht.2]
  have hids : ∀ u, T.uuidParse (T.uuidString u) = (u, true) := hT.uuid
  unfold scanEnvelope
  rw [hposition, hversion, hschema]
  simp only [eventRow] at hsid ⊢
  rw [hids, hids, hids, hids, hsid, hts _ hoccurred, hts _ hrecorded, scanBlob_eq h.prevHash,
    scanBlob_eq h.hash]
  simp only [readBack, ← h.workspace]

/-- **A row is not read back** if a year of its timestamps does not have four digits. -/
theorem scanEnvelope_error (hT : T.Documented)
    (h : ¬ (e.occurredAt.FourDigitYear ∧ e.recordedAt.FourDigitYear)) :
    ∃ err, scanEnvelope T (eventRow T e) = .error err := by
  have hts : ∀ t : Time, ¬ t.FourDigitYear → T.parseTS (T.formatTS t) = none := by
    intro t ht
    rw [hT.formatTS, hT.parseTS]
    refine parseTS_formatTS_eq_none ?_
    unfold Time.FourDigitYear at ht
    omega
  unfold scanEnvelope
  split
  · split
    · exact ⟨_, rfl⟩
    split
    · exact ⟨_, rfl⟩
    simp only [eventRow]
    by_cases hoccurred : e.occurredAt.FourDigitYear
    · rw [hts _ (fun hrecorded => h ⟨hoccurred, hrecorded⟩)]
      cases T.parseTS (T.formatTS e.occurredAt) with
      | none => exact ⟨_, rfl⟩
      | some t => exact ⟨_, rfl⟩
    · rw [hts _ hoccurred]
      exact ⟨_, rfl⟩
  · exact ⟨_, rfl⟩

/-- A row that scans is read back as the envelope it was written from. -/
theorem eq_readBack_of_scanEnvelope (hT : T.Documented) {env : Envelope} (hvalid : e.streamID.Valid)
    (hworkspace : e.workspace = []) (hversion : e.versionNat < 2 ^ 63)
    (hprev : e.prevHash = none ∨ ∃ d : Digest, e.prevHash = some d.bytes)
    (hhash : e.hash = none ∨ ∃ d : Digest, e.hash = some d.bytes)
    (h : scanEnvelope T (eventRow T e) = .ok env) : env = readBack T e := by
  have hyears : e.occurredAt.FourDigitYear ∧ e.recordedAt.FourDigitYear := by
    by_contra hyears
    obtain ⟨err, herr⟩ := scanEnvelope_error hT hyears
    rw [herr] at h
    cases h
  have hposition : e.globalPosition.toNat < 2 ^ 63 := by
    by_contra hposition
    have hnone : scanUint64 (eventRow T e).globalPosition = none := if_neg hposition
    unfold scanEnvelope at h
    rw [hnone] at h
    cases h
  rw [scanEnvelope_readBack hT ⟨hvalid, hworkspace, hversion, hposition, hprev, hhash⟩ hyears.1
    hyears.2] at h
  exact (Except.ok.inj h).symm

end Scan

/-! ## Rows of the same query -/

/-- Rows that all scan. -/
theorem scanAll_map_eq_ok {α β γ : Type} {scan : β → Except StoreError γ} {row : α → β} {f : α → γ}
    {l : List α} (h : ∀ a ∈ l, scan (row a) = .ok (f a)) : scanAll scan (l.map row) = .ok (l.map f) := by
  induction l with
  | nil => rfl
  | cons a l ih =>
    rw [List.forall_mem_cons] at h
    rw [List.map_cons, scanAll, h.1, ih h.2]
    rfl

/-- One row that does not scan fails the query. -/
theorem scanAll_error_of_mem {α β : Type} {scan : α → Except StoreError β} {l : List α} {a : α}
    (ha : a ∈ l) {err : StoreError} (h : scan a = .error err) : ∃ err, scanAll scan l = .error err := by
  induction l with
  | nil => cases ha
  | cons b l ih =>
    rw [scanAll]
    cases hb : scan b with
    | error err' => exact ⟨err', rfl⟩
    | ok x =>
      rcases List.mem_cons.mp ha with rfl | ha
      · rw [h] at hb
        cases hb
      · obtain ⟨err', herr'⟩ := ih ha
        rw [herr']
        exact ⟨err', rfl⟩

/-! ## Honest streams -/

/-- A chain is still one when it is read back. -/
theorem chainFrom_readBack (T : GoText) {sid : StreamID} {n : Nat} {prev : Digest} {es : List Envelope}
    (h : ChainFrom sid n prev es) : ChainFrom sid n prev (es.map (readBack T)) := by
  induction es generalizing n prev with
  | nil => trivial
  | cons e es ih =>
    obtain ⟨hrow, htail⟩ := h
    rw [List.map_cons]
    refine ⟨⟨hrow.stream, hrow.version, hrow.linked, ?_⟩, ?_⟩
    · rw [envelopeHash_readBack]
      exact hrow.hashed
    · rw [envelopeHash_readBack]
      exact ih htail

/-- The times that an append can put into a row are in range. -/
structure TimesInRange (c : AppendInputs × AppendParams) : Prop where
  occurredAt : c.2.occurredAt.InRange
  occurredNow : c.1.occurredNow.InRange
  recordedNow : c.1.recordedNow.InRange

/-- The years of what an append writes have four digits. -/
theorem Appended.fourDigitYear {inp : AppendInputs} {p : AppendParams} {e : Envelope}
    (h : Appended inp p e) (ht : TimesInRange (inp, p)) :
    e.occurredAt.FourDigitYear ∧ e.recordedAt.FourDigitYear := by
  rw [h.occurredAt, h.recordedAt, fourDigitYear_truncateMicros, fourDigitYear_truncateMicros]
  refine ⟨?_, ht.recordedNow.fourDigitYear⟩
  split
  · exact ht.occurredNow.fourDigitYear
  · exact ht.occurredAt.fourDigitYear

theorem Appended.storable {inp : AppendInputs} {p : AppendParams} {e : Envelope}
    (h : Appended inp p e) (hsid : p.streamID.Valid) : Storable e where
  valid := by rw [h.streamID]; exact hsid
  workspace := h.workspace
  version := h.version
  position := h.position
  prevHash := .inr h.prevHash
  hash := .inr ⟨_, h.hash⟩

/-- **What appends write is read back**, with all times in range. -/
theorem scanEnvelope_appendRun {T : GoText} (hT : T.Documented) {cap : Int} {db : Db}
    {pre : List Envelope} (hpre : Migrated T db pre []) {calls : List (AppendInputs × AppendParams)}
    (hcalls : ∀ c ∈ calls, TimesInRange c) :
    ∀ e ∈ (appendRun T cap (db, []) calls).2, scanEnvelope T (eventRow T e) = .ok (readBack T e) := by
  intro e he
  rcases appended_of_appendRun hpre calls e he with hnil | ⟨c, hc, happended⟩
  · cases hnil
  · have hvalid : c.2.streamID.Valid :=
      happended.streamID ▸ (migrated_appendRun hpre calls).valid e (List.mem_append_right _ he)
    obtain ⟨hoccurred, hrecorded⟩ := happended.fourDigitYear (hcalls c hc)
    exact scanEnvelope_readBack hT (happended.storable hvalid) hoccurred hrecorded

/-- All versions of a stream are in the range without bounds. -/
theorem versionRange_zero_zero {es : List Envelope} {n : Nat}
    (h : es.map Envelope.versionNat = List.range' 1 n) : versionRange 0 0 es = es := by
  refine List.filter_eq_self.mpr (fun e he => ?_)
  have hv : e.versionNat ∈ List.range' 1 n := h ▸ List.mem_map_of_mem he
  have hpos : 0 < e.version := UInt64.lt_iff_toNat_lt.mpr (List.mem_range'_1.mp hv).1
  simp [hpos]

section Appends

variable {T : GoText} {cap : Int} {calls : List (AppendInputs × AppendParams)} {sid : StreamID}

/-- **A stream of appends is read back**, in any range of versions. -/
theorem readStream_appendRun (hT : T.Documented) (hcalls : ∀ c ∈ calls, TimesInRange c) (hsid : sid.Valid)
    {v w : UInt64} (hv : v.toNat < 2 ^ 63) (hw : w.toNat < 2 ^ 63) :
    readStream T (appendRun T cap (.empty, []) calls).1.events sid v w =
      .ok ((versionRange v w (ofStream sid (appendRun T cap (.empty, []) calls).2)).map (readBack T)) := by
  rw [(written_appendRun (written_empty T) calls).migrated.readStream_eq hsid hv hw]
  refine scanAll_map_eq_ok fun e he => ?_
  exact scanEnvelope_appendRun hT (written_empty T).migrated hcalls e
    (mem_ofStream.mp (List.mem_of_mem_filter he)).1

/-- What is read back of a stream of appends is a chain. -/
theorem chained_appendRun (sid : StreamID) :
    Chained sid ((ofStream sid (appendRun T cap (.empty, []) calls).2).map (readBack T)) :=
  chainFrom_readBack T ((written_appendRun (written_empty T) calls).chained sid)

end Appends

/-- **Honest appends verify.** Take a database of unhashed rows, and any calls of append, successful or
not, with all times in the years 1 to 9999. Then every stream is read back, a checker accepts its rows,
reports the stream's version as its head and the first version that was appended as the first hashed
one, and the hash of every envelope that an append returned is the one that is read back. -/
theorem honest_appends_verify {T : GoText} (hT : T.Documented) (cap : Int) {db : Db}
    {pre : List Envelope} (hpre : Migrated T db pre [])
    (hposition : ∀ e ∈ pre, e.globalPosition.toNat < 2 ^ 63)
    (hyears : ∀ e ∈ pre, e.occurredAt.InRange ∧ e.recordedAt.InRange)
    (calls : List (AppendInputs × AppendParams)) (hcalls : ∀ c ∈ calls, TimesInRange c)
    (sid : StreamID) (hsid : sid.Valid) :
    let db' := (appendRun T cap (db, []) calls).1
    let log := (appendRun T cap (db, []) calls).2
    ∃ envs c, readStream T db'.events sid 0 0 = .ok envs ∧
      (newChainChecker sid .zero).feed envs = (c, none) ∧
      currentStreamVersion db'.events sid = .ok c.rep.head ∧
      c.rep.chainedFrom.toNat = ((ofStream sid log).head?.map Envelope.versionNat).getD 0 ∧
      ∀ e ∈ ofStream sid log, ∃ e' ∈ envs, e'.version = e.version ∧ e'.hash = e.hash := by
  intro db' log
  have hmig : Migrated T db' pre log := migrated_appendRun hpre calls
  have hrow : ∀ e ∈ pre ++ log, scanEnvelope T (eventRow T e) = .ok (readBack T e) := by
    intro e he
    rcases List.mem_append.mp he with hold | hnew
    · obtain ⟨hprev, hhash⟩ := hmig.unhashed e hold
      exact scanEnvelope_readBack hT ⟨hmig.valid e he, hmig.workspace e he, hmig.version e he,
        hposition e hold, .inl hprev, .inl hhash⟩ (hyears e hold).1.fourDigitYear
        (hyears e hold).2.fourDigitYear
    · exact scanEnvelope_appendRun hT hpre hcalls e hnew
  -- every row of the stream is read back
  have hread : readStream T db'.events sid 0 0 =
      .ok ((ofStream sid (pre ++ log)).map (readBack T)) := by
    rw [hmig.readStream_eq hsid (by decide) (by decide), versionRange_zero_zero (hmig.versions sid)]
    exact scanAll_map_eq_ok (fun e he => hrow e (mem_ofStream.mp he).1)
  -- the checker accepts the unhashed rows and then the chain
  have hlength := hmig.length_lt sid
  rw [ofStream_append, List.length_append] at hlength
  have hold : ∀ e' ∈ (ofStream sid pre).map (readBack T), Unhashed sid .zero e' := by
    intro e' he'
    obtain ⟨e, he, rfl⟩ := List.mem_map.mp he'
    obtain ⟨hmem, hstream⟩ := mem_ofStream.mp he
    exact ⟨hstream, (hmig.unhashed e hmem).1, (hmig.unhashed e hmem).2, .inl rfl⟩
  have hversions : ((ofStream sid pre).map (readBack T)).map Envelope.versionNat =
      List.range' 1 ((ofStream sid pre).map (readBack T)).length := by
    rw [List.map_map, List.length_map]
    exact hmig.contiguous sid
  have hnew : ChainFrom sid ((ofStream sid pre).map (readBack T)).length
      (chainBase sid ((ofStream sid pre).map (readBack T)).length)
      ((ofStream sid log).map (readBack T)) := by
    rw [List.length_map]
    exact chainFrom_readBack T (hmig.chained sid)
  obtain ⟨c, hfeed, hhead, hchained⟩ := ChainChecker.feed_honest hold hversions hnew
    (by rw [List.length_map, List.length_map]; exact hlength)
  rw [List.length_map] at hhead hchained
  refine ⟨_, c, hread, ?_, ?_, ?_, fun e he => ?_⟩
  · rw [ofStream_append, List.map_append]
    exact hfeed
  · rw [hmig.currentStreamVersion_eq hsid, ofStream_append, List.length_append]
    rw [List.length_map] at hhead
    rw [← hhead]
    exact congrArg _ UInt64.ofNat_toNat
  · rw [hchained]
    cases hlog : ofStream sid log with
    | nil => rfl
    | cons e es =>
      have hchain := hmig.chained sid
      rw [hlog] at hchain
      exact hchain.1.version.symm
  · refine ⟨readBack T e, List.mem_map_of_mem ?_, rfl, rfl⟩
    rw [ofStream_append]
    exact List.mem_append_right _ he

/-- A database with one unhashed row. -/
def oneOldRow : Db where
  events :=
    { rows := [eventRow storeText (unhashedRow counterMain 1)]
      positions := List.nodup_singleton _
      versions := List.nodup_singleton _
      eventIDs := List.nodup_singleton _ }
  claims := []
  anchors := []
  seq := 1

/-- A clock at the epoch. -/
def epochInputs : AppendInputs := ⟨⟨0⟩, ⟨0⟩, fun _ => .fill 16 1⟩

/-- An append of one event at version 1, in 1970. -/
def secondAppend : AppendInputs × AppendParams :=
  (epochInputs,
    { streamID := counterMain
      expectedVersion := 1
      events := [⟨.zero 16, str "counter.v1.Incremented", 1, some [1]⟩]
      constraints := []
      commandID := .zero 16
      correlationID := .zero 16
      causationID := .zero 16
      actor := ⟨str "user", str "alice"⟩
      occurredAt := .zero })

theorem migrated_oneOldRow : Migrated storeText oneOldRow [unhashedRow counterMain 1] [] where
  rows := rfl
  unhashed := by simp [unhashedRow]
  contiguous := by
    intro sid
    by_cases h : counterMain = sid
    · rw [ofStream_eq_self (by simpa [unhashedRow] using h)]
      rfl
    · rw [ofStream_eq_nil h (by simp [unhashedRow])]
      rfl
  chained := fun _ => trivial
  valid := by simpa [unhashedRow] using (by decide : counterMain.Valid)
  workspace := by simp [unhashedRow]
  version := by simp [unhashedRow, Envelope.versionNat]
  payload := by simp [unhashedRow]
  sorted := List.pairwise_singleton _ _

/-- An unhashed row and then an append: the second version is the first hashed one. -/
theorem honest_appends_verify_second :
    ∃ envs c, readStream storeText (appendRun storeText 0 (oneOldRow, []) [secondAppend]).1.events
        counterMain 0 0 = .ok envs ∧
      (newChainChecker counterMain .zero).feed envs = (c, none) ∧ c.rep.chainedFrom.toNat = 2 := by
  have hyears : ∀ e ∈ [unhashedRow counterMain 1], e.occurredAt.InRange ∧ e.recordedAt.InRange := by
    intro e he
    rw [List.mem_singleton.mp he]
    exact ⟨by decide, by decide⟩
  have hcalls : ∀ c ∈ [secondAppend], TimesInRange c := by
    intro c hc
    rw [List.mem_singleton.mp hc]
    exact ⟨by decide, by decide, by decide⟩
  obtain ⟨envs, c, hread, hfeed, -, hfrom, -⟩ :=
    honest_appends_verify documented_storeText 0 migrated_oneOldRow (by simp [unhashedRow]) hyears
      [secondAppend] hcalls counterMain (by decide)
  refine ⟨envs, c, hread, hfeed, hfrom.trans ?_⟩
  decide +kernel

end Sqlite

end EsLite
