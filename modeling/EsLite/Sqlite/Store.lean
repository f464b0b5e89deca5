import EsLite.Es.Anchor
import EsLite.Es.Chain
import EsLite.Es.Store
import EsLite.Sqlite.Text
import Mathlib.Data.List.Nodup

/-!
# The SQLite store

The events and claims tables, and the operations of the store on them. One append is one transaction
on the single connection, hence one atomic step: it returns the new database or an error.

* `EventsTable` — any content of the events table that respects its unique keys.
* `scanEnvelope` — reading a row back.
* `append` — the write path: version check, hash chain, inserts, uniqueness claims.
* `appendRun` — a sequence of appends, successful or not.
-/

namespace EsLite

variable {T : GoText} {p : AppendParams} {e : Envelope} {sid : StreamID}

namespace Sqlite

/-! ## Tables -/

/-- A row of the events table. -/
structure EventRow where
  globalPosition : Int
  eventID : Bytes
  streamType : Bytes
  streamID : Bytes
  version : Int
  typeURL : Bytes
  schemaVersion : Int
  occurredAt : Bytes
  recordedAt : Bytes
  correlationID : Bytes
  causationID : Bytes
  commandID : Bytes
  actorType : Bytes
  actorID : Bytes
  actorPrincipal : Bytes
  payload : Bytes
  prevHash : Option Bytes
  hash : Option Bytes
deriving DecidableEq

/-- The events table: rows with distinct positions, distinct stream and version, and distinct event
ids. -/
structure EventsTable where
  rows : List EventRow
  positions : (rows.map (·.globalPosition)).Nodup
  versions : (rows.map (fun r => (r.streamID, r.version))).Nodup
  eventIDs : (rows.map (·.eventID)).Nodup

/-- The unique keys of a row are not taken. -/
def EventsTable.Fresh (t : EventsTable) (r : EventRow) : Prop :=
  r.globalPosition ∉ t.rows.map (·.globalPosition) ∧
  (r.streamID, r.version) ∉ t.rows.map (fun r => (r.streamID, r.version)) ∧
  r.eventID ∉ t.rows.map (·.eventID)

instance (t : EventsTable) (r : EventRow) : Decidable (t.Fresh r) :=
  inferInstanceAs (Decidable (_ ∧ _ ∧ _))

/-- A row with a new key keeps the keys distinct. -/
theorem nodup_map_append_singleton {α β : Type} {f : α → β} {l : List α} {a : α}
    (hl : (l.map f).Nodup) (ha : f a ∉ l.map f) : ((l ++ [a]).map f).Nodup := by
  rw [List.map_append, List.map_singleton, List.nodup_append]
  refine ⟨hl, List.nodup_singleton _, fun b hb c hc hbc => ha ?_⟩
  rwa [← List.mem_singleton.mp hc, ← hbc]

/-- Insert a row; `none` when one of its unique keys is taken. -/
def EventsTable.insert (t : EventsTable) (r : EventRow) : Option EventsTable :=
  if h : t.Fresh r then
    some
      { rows := t.rows ++ [r]
        positions := nodup_map_append_singleton t.positions h.1
        versions := nodup_map_append_singleton t.versions h.2.1
        eventIDs := nodup_map_append_singleton t.eventIDs h.2.2 }
  else none

/-- What an insert that succeeds does. -/
theorem EventsTable.insert_eq_some {t t' : EventsTable} {r : EventRow} (h : t.insert r = some t') :
    t.Fresh r ∧ t'.rows = t.rows ++ [r] := by
  unfold insert at h
  split at h
  · rename_i hf
    cases h
    exact ⟨hf, rfl⟩
  · cases h

/-- A row of the claims table. -/
structure ClaimRow where
  scope : Bytes
  value : Bytes
  streamID : Bytes
deriving DecidableEq

/-- The database: its tables and the counter behind `AUTOINCREMENT`. -/
structure Db where
  events : EventsTable
  claims : List ClaimRow
  anchors : List Anchor
  seq : Nat

/-- The database right after the migrations. -/
def Db.empty : Db := ⟨⟨[], List.nodup_nil, List.nodup_nil, List.nodup_nil⟩, [], [], 0⟩

/-- Why the database refuses a statement. -/
inductive DbError : Type where
  /-- A unique key is taken. -/
  | unique
  /-- A column that may not be null was null. -/
  | notNull
  /-- A `uint64` argument with the high bit set. -/
  | highBit
  /-- No position is left. -/
  | full
deriving DecidableEq

def DbError.text : DbError → Bytes
  | .unique => str "UNIQUE constraint failed"
  | .notNull => str "NOT NULL constraint failed"
  | .highBit => str "uint64 values with high bit set are not supported"
  | .full => str "database or disk is full"

/-- The columns written for an envelope. -/
def eventRow (T : GoText) (e : Envelope) : EventRow where
  globalPosition := e.globalPosition.toNat
  eventID := T.uuidString e.eventID
  streamType := e.streamID.type
  streamID := e.streamID.canonical
  version := e.version.toNat
  typeURL := e.typeURL
  schemaVersion := e.schemaVersion.toNat
  occurredAt := T.formatTS e.occurredAt
  recordedAt := T.formatTS e.recordedAt
  correlationID := T.uuidString e.correlationID
  causationID := T.uuidString e.causationID
  commandID := T.uuidString e.commandID
  actorType := e.actor.type
  actorID := e.actor.id
  actorPrincipal := e.actor.principal
  payload := e.payload.getD []
  prevHash := e.prevHash
  hash := e.hash

/-- The largest position ever used. -/
def Db.lastPosition (db : Db) : Nat :=
  (db.events.rows.map (·.globalPosition.toNat)).foldr max db.seq

/-- The `INSERT INTO events` statement: the row at the next position, with the envelope as it is
returned. -/
def Db.insertEvent (T : GoText) (db : Db) (e : Envelope) : Except DbError (Db × Envelope) :=
  if 2 ^ 63 ≤ e.version.toNat then .error .highBit
  else if e.payload.isNone then .error .notNull
  else if 2 ^ 63 ≤ db.lastPosition + 1 then .error .full
  else
    let e' := { e with globalPosition := UInt64.ofNat (db.lastPosition + 1) }
    match db.events.insert (eventRow T e') with
    | some events => .ok ({ db with events := events, seq := db.lastPosition + 1 }, e')
    | none => .error .unique

/-! ## Reading rows back -/

/-- An integer column scanned into a `uint64`. -/
def scanUint64 : Int → Option UInt64
  | .ofNat n => if n < 2 ^ 63 then some (UInt64.ofNat n) else none
  | .negSucc _ => none

/-- A `uint64` that a column can hold scans back. -/
theorem scanUint64_natCast {v : UInt64} (h : v.toNat < 2 ^ 63) :
    scanUint64 (v.toNat : Int) = some v := by
  rw [show scanUint64 (v.toNat : Int) =
    if v.toNat < 2 ^ 63 then some (UInt64.ofNat v.toNat) else none from rfl, if_pos h]
  simp

/-- A scanned integer is the column, and below the bound of signed integers. -/
theorem scanUint64_eq_some {i : Int} {v : UInt64} (h : scanUint64 i = some v) :
    i = v.toNat ∧ v.toNat < 2 ^ 63 := by
  unfold scanUint64 at h
  split at h
  · rename_i n
    split at h
    · rename_i hn
      cases h
      have : (UInt64.ofNat n).toNat = n :=
        UInt64.toNat_ofNat_of_lt' (hn.trans (by decide))
      rw [this]
      exact ⟨rfl, hn⟩
    · cases h
  · cases h

/-- An integer column scanned into a `uint32`. -/
def scanUint32 : Int → Option UInt32
  | .ofNat n => if n < 2 ^ 32 then some (UInt32.ofNat n) else none
  | .negSucc _ => none

/-- A `uint32` scans back. -/
theorem scanUint32_natCast (v : UInt32) : scanUint32 (v.toNat : Int) = some v := by
  rw [show scanUint32 (v.toNat : Int) =
    if v.toNat < 2 ^ 32 then some (UInt32.ofNat v.toNat) else none from rfl, if_pos v.toNat_lt]
  simp

/-- A nullable blob column. -/
def scanBlob (T : GoText) (b : Option Bytes) : Option Bytes := b.bind T.blob

/-- Scan one row. Ids other than the event id are taken as they parse. -/
def scanEnvelope (T : GoText) (r : EventRow) : Except StoreError Envelope :=
  match scanUint64 r.globalPosition, scanUint64 r.version, scanUint32 r.schemaVersion with
  | some globalPosition, some version, some schemaVersion =>
    match T.uuidParse r.eventID with
    | (_, false) => .error (.backend (str "parse event_id"))
    | (eventID, true) =>
      match parseCanonical r.streamID with
      | .error s => .error (.sentinel s)
      | .ok streamID =>
        match T.parseTS r.occurredAt, T.parseTS r.recordedAt with
        | none, _ => .error (.backend (str "parse occurred_at"))
        | some _, none => .error (.backend (str "parse recorded_at"))
        | some occurredAt, some recordedAt =>
          .ok
            { eventID := eventID
              streamID := streamID
              version := version
              globalPosition := globalPosition
              workspace := []
              typeURL := r.typeURL
              schemaVersion := schemaVersion
              occurredAt := occurredAt
              recordedAt := recordedAt
              correlationID := (T.uuidParse r.correlationID).1
              causationID := (T.uuidParse r.causationID).1
              commandID := (T.uuidParse r.commandID).1
              actor := ⟨r.actorType, r.actorID⟩
              payload := T.blob r.payload
              prevHash := scanBlob T r.prevHash
              hash := scanBlob T r.hash }
  | _, _, _ => .error (.backend (str "converting driver.Value type"))

/-- A scanned envelope carries the position of its row. -/
theorem position_of_scanEnvelope {r : EventRow} (h : scanEnvelope T r = .ok e) :
    scanUint64 r.globalPosition = some e.globalPosition := by
  unfold scanEnvelope at h
  split at h
  · rename_i hposition _ _
    split at h
    · cases h
    split at h
    · cases h
    split at h
    · cases h
    · cases h
    · rw [hposition, ← Except.ok.inj h]
  · cases h

/-- A scanned envelope carries the columns of its row. -/
theorem scanEnvelope_eq_ok {r : EventRow} (h : scanEnvelope T r = .ok e) :
    scanUint64 r.version = some e.version ∧ parseCanonical r.streamID = .ok e.streamID ∧
      e.hash = scanBlob T r.hash ∧ e.typeURL = r.typeURL ∧
      scanUint32 r.schemaVersion = some e.schemaVersion ∧ e.payload = T.blob r.payload := by
  unfold scanEnvelope at h
  split at h
  · rename_i hposition hversion hschema
    split at h
    · cases h
    split at h
    · cases h
    rename_i hsid
    split at h
    · cases h
    · cases h
    · cases h
      exact ⟨hversion, hsid, rfl, rfl, hschema, rfl⟩
  · cases h

/-- The one sentinel that scanning a row can return. -/
theorem scanEnvelope_eq_error {r : EventRow} {s : Sentinel}
    (h : scanEnvelope T r = .error (.sentinel s)) : s = .invalidStreamID := by
  unfold scanEnvelope at h
  split at h
  · split at h
    · cases h
    split at h
    · rename_i hparse
      cases h
      exact parseCanonical_eq_error hparse
    · split at h <;> cases h
  · cases h

/-- `ORDER BY version ASC`. -/
def orderByVersion (rows : List EventRow) : List EventRow :=
  rows.mergeSort (fun a b => a.version ≤ b.version)

/-- Rows in version order stay as they are. -/
theorem orderByVersion_of_sorted {rows : List EventRow}
    (h : rows.Pairwise (fun a b => a.version < b.version)) : orderByVersion rows = rows :=
  List.mergeSort_of_pairwise (h.imp (fun hab => decide_eq_true hab.le))

/-- `ReadStream`. -/
def readStream (T : GoText) (t : EventsTable) (sid : StreamID) (fromVersion toVersion : UInt64) :
    Except StoreError (List Envelope) :=
  match sid.validate with
  | .error s => .error (.sentinel s)
  | .ok () =>
    if 2 ^ 63 ≤ fromVersion.toNat ∨ 2 ^ 63 ≤ toVersion.toNat then
      .error (.backend DbError.highBit.text)
    else
      scanAll (scanEnvelope T) (orderByVersion (t.rows.filter (fun r =>
        r.streamID = sid.canonical && (fromVersion.toNat : Int) < r.version &&
          (toVersion == 0 || r.version ≤ toVersion.toNat))))

/-- The one sentinel that `ReadStream` can return: a stream without rows is read as empty, not as
missing. -/
theorem readStream_eq_error {t : EventsTable} {fromVersion toVersion : UInt64} {s : Sentinel}
    (h : readStream T t sid fromVersion toVersion = .error (.sentinel s)) : s = .invalidStreamID := by
  unfold readStream at h
  split at h
  · rename_i hvalidate
    cases h
    exact StreamID.validate_eq_error hvalidate
  · split at h
    · cases h
    · obtain ⟨r, -, hr⟩ := scanAll_eq_error h
      exact scanEnvelope_eq_error hr

/-- `ReadStreamAsOf`: the rows recorded at or before an instant, compared as text. -/
def readStreamAsOf (T : GoText) (t : EventsTable) (sid : StreamID) (asOf : Time) :
    Except StoreError (List Envelope) :=
  match sid.validate with
  | .error s => .error (.sentinel s)
  | .ok () =>
    scanAll (scanEnvelope T) (orderByVersion (t.rows.filter (fun r =>
      r.streamID = sid.canonical && !lexLt (T.formatTS asOf) r.recordedAt)))

/-! ## Append -/

/-- The version of a head row and the hash the next event links to. -/
def scanHeadRow (T : GoText) (sid : StreamID) (r : EventRow) : Except AppendError (UInt64 × Digest) :=
  match scanUint64 r.version with
  | none => .error (.backend (str "read stream head"))
  | some current => .ok (current, digestOr (scanBlob T r.hash) (unchainedHeadHash sid current))

/-- The stream's current version and the hash the next event links to. -/
def readHead (T : GoText) (t : EventsTable) (sid : StreamID) : Except AppendError (UInt64 × Digest) :=
  match (t.rows.filter (·.streamID = sid.canonical)).maxOn? (·.version) with
  | none => .ok (0, zeroHash)
  | some r => scanHeadRow T sid r

/-- `CurrentStreamVersion`: the largest version of the stream, 0 when it has no rows. -/
def currentStreamVersion (t : EventsTable) (sid : StreamID) : Except StoreError UInt64 :=
  match sid.validate with
  | .error s => .error (.sentinel s)
  | .ok () =>
    let last := (t.rows.filter (·.streamID = sid.canonical)).maxOn? (·.version)
    match scanUint64 ((last.map (·.version)).getD 0) with
    | none => .error (.backend (str "converting driver.Value type"))
    | some v => .ok v

/-- The clock readings and fresh ids an append draws. -/
structure AppendInputs where
  occurredNow : Time
  recordedNow : Time
  /-- The id drawn for the event with the given index. -/
  newV7 : Nat → UUID

/-- The envelope of the event with index `i`, linked to `prev`. -/
def appendEnvelope (inp : AppendInputs) (p : AppendParams) (i : Nat) (prev : Digest)
    (ev : EventData) : Envelope :=
  chainRow
    { eventID := if ev.eventID = .zero 16 then inp.newV7 i else ev.eventID
      streamID := p.streamID
      version := p.expectedVersion + UInt64.ofNat i + 1
      globalPosition := 0
      workspace := []
      typeURL := ev.typeURL
      schemaVersion := ev.schemaVersion
      occurredAt := truncateMicros (if p.occurredAt.isZero then inp.occurredNow else p.occurredAt)
      recordedAt := truncateMicros inp.recordedNow
      correlationID := p.correlationID
      causationID := p.causationID
      commandID := p.commandID
      actor := p.actor
      payload := ev.payload
      prevHash := none
      hash := none } prev

/-- Insert the events from index `i` on, each linked to the one before. -/
def insertEvents (T : GoText) (inp : AppendInputs) (p : AppendParams) :
    Nat → Digest → Db → List EventData → Except AppendError (Db × List Envelope)
  | _, _, db, [] => .ok (db, [])
  | i, prev, db, ev :: evs =>
    let env := appendEnvelope inp p i prev ev
    match db.insertEvent T env with
    | .error .unique => .error (.conflictAt p.streamID env.version)
    | .error err => .error (.backend err.text)
    | .ok (db', env') =>
      match insertEvents T inp p (i + 1) (envelopeHash env) db' evs with
      | .error err => .error err
      | .ok (db'', envs) => .ok (db'', env' :: envs)

/-- Releases first: delete the claims of this stream. -/
def applyReleases (streamID : Bytes) (claims : List ClaimRow) : List ConstraintOp → List ClaimRow
  | [] => claims
  | o :: os =>
    if o.op = .releaseOp then
      applyReleases streamID (claims.filter (· ≠ ⟨o.scope, o.value, streamID⟩)) os
    else applyReleases streamID claims os

/-- Then claims: a taken scope and value is an error. -/
def insertClaims (streamID : Bytes) (claims : List ClaimRow) :
    List ConstraintOp → Except AppendError (List ClaimRow)
  | [] => .ok claims
  | o :: os =>
    if o.op = .claimOp then
      if claims.any (fun c => c.scope = o.scope ∧ c.value = o.value) then
        .error (.constraintViolated o.scope o.value)
      else insertClaims streamID (claims ++ [⟨o.scope, o.value, streamID⟩]) os
    else insertClaims streamID claims os

/-- The uniqueness operations of an append. -/
def applyClaims (streamID : Bytes) (claims : List ClaimRow) (ops : List ConstraintOp) :
    Except AppendError (List ClaimRow) :=
  insertClaims streamID (applyReleases streamID claims ops) ops

/-- The transaction of an append. -/
def appendTx (T : GoText) (inp : AppendInputs) (p : AppendParams) (db : Db) :
    Except AppendError (Db × AppendResult) :=
  match readHead T db.events p.streamID with
  | .error err => .error err
  | .ok (current, prev) =>
    if current ≠ p.expectedVersion then
      .error (.conflict p.streamID current p.expectedVersion)
    else
      match insertEvents T inp p 0 prev db p.events with
      | .error err => .error err
      | .ok (db', envs) =>
        match applyClaims p.streamID.canonical db'.claims p.constraints with
        | .error err => .error err
        | .ok claims =>
          .ok ({ db' with claims := claims },
            { fromVersion := p.expectedVersion
              toVersion := p.expectedVersion + UInt64.ofNat p.events.length
              envelopes := envs })

/-- `Append`: the checks before the transaction, and the transaction. -/
def append (T : GoText) (maxPayloadBytes : Int) (inp : AppendInputs) (p : AppendParams) (db : Db) :
    Except AppendError (Db × AppendResult) :=
  match p.streamID.validate with
  | .error s => .error (.invalid s)
  | .ok () =>
    match checkConstraints p.constraints with
    | .error err => .error err
    | .ok () =>
      match checkPayloads maxPayloadBytes p.streamID p.expectedVersion p.events with
      | .error err => .error err
      | .ok () => appendTx T inp p db

/-- The parts of an `INSERT` that succeeded. -/
theorem Db.insertEvent_eq_ok {db db' : Db} {e' : Envelope} (h : db.insertEvent T e = .ok (db', e')) :
    e.versionNat < 2 ^ 63 ∧ e.payload.isSome ∧ db.lastPosition + 1 < 2 ^ 63 ∧
      e' = { e with globalPosition := UInt64.ofNat (db.lastPosition + 1) } ∧
      db'.events.rows = db.events.rows ++ [eventRow T e'] ∧ db'.claims = db.claims ∧
      db'.seq = db.lastPosition + 1 := by
  unfold Db.insertEvent at h
  split at h
  · cases h
  rename_i hversion
  split at h
  · cases h
  rename_i hpayload
  split at h
  · cases h
  rename_i hfull
  simp only at h
  split at h
  · rename_i events hinsert
    cases h
    refine ⟨Nat.not_le.mp hversion, ?_, Nat.not_le.mp hfull, rfl, ?_, rfl, rfl⟩
    · cases hp : e.payload with
      | none => simp [hp] at hpayload
      | some b => rfl
    · exact (EventsTable.insert_eq_some hinsert).2
  · cases h

theorem le_foldr_max {l : List Nat} {a x : Nat} (h : x ∈ l) : x ≤ l.foldr max a := by
  induction l with
  | nil => cases h
  | cons y ys ih =>
    rcases List.mem_cons.mp h with rfl | h
    · exact le_max_left _ _
    · exact (ih h).trans (le_max_right _ _)

/-- No row lies above the last position. -/
theorem Db.position_le {db : Db} {r : EventRow} (h : r ∈ db.events.rows) :
    r.globalPosition ≤ db.lastPosition := by
  have hle : r.globalPosition.toNat ≤ db.lastPosition :=
    le_foldr_max (List.mem_map.mpr ⟨r, h, rfl⟩)
  have hself := Int.self_le_toNat r.globalPosition
  omega

/-- The last position after an insert is the one it took. -/
theorem Db.lastPosition_insertEvent {db db' : Db} {e' : Envelope}
    (h : db.insertEvent T e = .ok (db', e')) : db'.lastPosition = db.lastPosition + 1 := by
  obtain ⟨-, -, hfull, rfl, hrows, -, hseq⟩ := Db.insertEvent_eq_ok h
  have hpos : (UInt64.ofNat (db.lastPosition + 1)).toNat = db.lastPosition + 1 :=
    UInt64.toNat_ofNat_of_lt' (hfull.trans (by decide))
  have hfold : ∀ (l : List Nat) (a b : Nat), (∀ x ∈ l, x ≤ b) → a ≤ b → l.foldr max a ≤ b := by
    intro l a b hl ha
    induction l with
    | nil => exact ha
    | cons x xs ih =>
      exact max_le (hl x List.mem_cons_self) (ih fun y hy => hl y (List.mem_cons_of_mem _ hy))
  apply le_antisymm
  · refine hfold _ _ _ (fun x hx => ?_) hseq.le
    obtain ⟨r, hr, rfl⟩ := List.mem_map.mp hx
    rw [hrows] at hr
    rcases List.mem_append.mp hr with hr | hr
    · have := Db.position_le hr
      omega
    · rw [List.mem_singleton.mp hr]
      simp only [eventRow, Int.toNat_natCast]
      omega
  · have hle : ∀ (l : List Nat) (a : Nat), a ≤ l.foldr max a := by
      intro l a
      induction l with
      | nil => exact le_rfl
      | cons x xs ih => exact ih.trans (le_max_right _ _)
    rw [← hseq]
    exact hle _ _

/-- The encoded event an envelope carries. -/
def encodedOf (e : Envelope) : Bytes × UInt32 × Bytes :=
  (e.typeURL, e.schemaVersion, e.payload.getD [])

/-- The encoded event to append. -/
def encodedData (ev : EventData) : Bytes × UInt32 × Bytes :=
  (ev.typeURL, ev.schemaVersion, ev.payload.getD [])

/-- What an append puts into every envelope it returns. -/
structure Appended (inp : AppendInputs) (p : AppendParams) (e : Envelope) : Prop where
  streamID : e.streamID = p.streamID
  workspace : e.workspace = []
  occurredAt : e.occurredAt =
    truncateMicros (if p.occurredAt.isZero then inp.occurredNow else p.occurredAt)
  recordedAt : e.recordedAt = truncateMicros inp.recordedNow
  prevHash : ∃ d : Digest, e.prevHash = some d.bytes
  hash : e.hash = some (envelopeHash e).bytes
  payload : e.payload.isSome
  version : e.versionNat < 2 ^ 63
  position : e.globalPosition.toNat < 2 ^ 63

/-- The version the event with index `i` takes. -/
theorem versionNat_appendEnvelope (inp : AppendInputs) {i : Nat} (prev : Digest) (ev : EventData)
    (hi : p.expectedVersion.toNat + i < 2 ^ 63) :
    (appendEnvelope inp p i prev ev).versionNat = p.expectedVersion.toNat + i + 1 := by
  have hofNat : (UInt64.ofNat i).toNat = i := UInt64.toNat_ofNat_of_lt' (by
    simp only [UInt64.size]
    omega)
  have hv : (appendEnvelope inp p i prev ev).versionNat =
      (p.expectedVersion + UInt64.ofNat i + 1).toNat := rfl
  rw [hv, UInt64.toNat_add, UInt64.toNat_add, hofNat, show (1 : UInt64).toNat = 1 from rfl]
  omega

/-- **A batch of inserts** adds the rows of its envelopes at the end of the table, with consecutive
versions and positions, and nothing else. -/
theorem insertEvents_eq_ok {inp : AppendInputs} {i : Nat} {prev : Digest} {db db' : Db}
    {envs : List Envelope} {evs : List EventData} (hi : p.expectedVersion.toNat + i < 2 ^ 63)
    (h : insertEvents T inp p i prev db evs = .ok (db', envs)) :
    db'.events.rows = db.events.rows ++ envs.map (eventRow T) ∧ db'.claims = db.claims ∧
      envs.map encodedOf = evs.map encodedData ∧ (∀ e ∈ envs, Appended inp p e) ∧
      envs.map Envelope.versionNat =
        List.range' (p.expectedVersion.toNat + i + 1) envs.length ∧
      envs.map (·.globalPosition.toNat) = List.range' (db.lastPosition + 1) envs.length := by
  induction evs generalizing i prev db envs with
  | nil =>
    cases h
    simp
  | cons ev evs ih =>
    simp only [insertEvents] at h
    rcases hins : db.insertEvent T (appendEnvelope inp p i prev ev) with err | ⟨db₁, env⟩
    · rw [hins] at h
      cases err <;> cases h
    rw [hins] at h
    simp only at h
    rcases hrest : insertEvents T inp p (i + 1)
      (envelopeHash (appendEnvelope inp p i prev ev)) db₁ evs with err | ⟨db₂, es⟩
    · rw [hrest] at h
      cases h
    rw [hrest] at h
    cases h
    have hversion := versionNat_appendEnvelope inp prev ev hi
    have hlast := Db.lastPosition_insertEvent hins
    obtain ⟨hbound, hpayload, hfull, rfl, hrows, hclaims, -⟩ := Db.insertEvent_eq_ok hins
    have hpos : (UInt64.ofNat (db.lastPosition + 1)).toNat = db.lastPosition + 1 :=
      UInt64.toNat_ofNat_of_lt' (hfull.trans (by decide))
    obtain ⟨hrows', hclaims', hencoded, happended, hversions, hpositions⟩ :=
      ih (by omega) hrest
    refine ⟨?_, hclaims'.trans hclaims, ?_, ?_, ?_, ?_⟩
    · rw [hrows', hrows, List.append_assoc, List.map_cons, List.singleton_append]
    · rw [List.map_cons, List.map_cons, hencoded]
      rfl
    · intro e he
      rcases List.mem_cons.mp he with rfl | he
      · exact
          { streamID := rfl, workspace := rfl, occurredAt := rfl, recordedAt := rfl
            prevHash := ⟨prev, rfl⟩, hash := congrArg some (congrArg _ (envelopeHash_congr rfl))
            payload := hpayload, version := hbound, position := by rw [hpos]; exact hfull }
      · exact happended e he
    · rw [List.map_cons, List.length_cons, List.range'_succ, hversions]
      exact congrArg₂ _ hversion (by rw [Nat.add_assoc _ i 1])
    · rw [List.map_cons, List.length_cons, List.range'_succ, hpositions, hlast]
      exact congrArg₂ _ hpos rfl

/-- An append that succeeds has a valid stream id and a transaction that succeeded. -/
theorem append_eq_ok {cap : Int} {inp : AppendInputs} {db : Db} {r : Db × AppendResult}
    (h : append T cap inp p db = .ok r) : p.streamID.Valid ∧ appendTx T inp p db = .ok r := by
  unfold append at h
  split at h
  · cases h
  rename_i hvalid
  split at h
  · cases h
  split at h
  · cases h
  · exact ⟨hvalid, h⟩

/-- The content of the database after a sequence of append calls, successful or not, with the
envelopes that the successful ones returned. -/
def appendRun (T : GoText) (cap : Int) :
    Db × List Envelope → List (AppendInputs × AppendParams) → Db × List Envelope
  | s, [] => s
  | (db, log), (inp, p) :: calls =>
    match append T cap inp p db with
    | .error _ => appendRun T cap (db, log) calls
    | .ok (db', res) => appendRun T cap (db', log ++ res.envelopes) calls

/-! ## Reading back what was written -/

/-- A stored digest scans back. -/
theorem scanBlob_digest (T : GoText) (d : Digest) : scanBlob T (some d.bytes) = some d.bytes := by
  have hne : d.bytes ≠ [] := fun h0 => by
    have := d.length_bytes
    rw [h0] at this
    cases this
  exact T.blob_of_ne_nil hne

theorem scanHeadRow_eq {r : EventRow} {v : UInt64} (h : scanUint64 r.version = some v) :
    scanHeadRow T sid r = .ok (v, digestOr (scanBlob T r.hash) (unchainedHeadHash sid v)) := by
  unfold scanHeadRow
  rw [h]

theorem scanHeadRow_eventRow {d : Digest} (hversion : e.versionNat < 2 ^ 63)
    (hhash : e.hash = some d.bytes) : scanHeadRow T sid (eventRow T e) = .ok (e.version, d) := by
  have hscan : scanUint64 (eventRow T e).version = some e.version := scanUint64_natCast hversion
  rw [scanHeadRow_eq hscan, show (eventRow T e).hash = some d.bytes from hhash, scanBlob_digest,
    digestOr_some]

/-- The events of a stream in a range of versions; no upper end when `toVersion` is zero. -/
def versionRange (fromVersion toVersion : UInt64) (es : List Envelope) : List Envelope :=
  es.filter (fun e => fromVersion < e.version && (toVersion == 0 || e.version ≤ toVersion))

/-- A row read back carries the encoded event it was written with, at its version. -/
theorem scanEnvelope_eventRow {env : Envelope} (h : scanEnvelope T (eventRow T e) = .ok env) :
    encodedOf env = encodedOf e ∧ env.version = e.version := by
  obtain ⟨hversion, -, -, htype, hschema, hpayload⟩ := scanEnvelope_eq_ok h
  have hschema' : e.schemaVersion = env.schemaVersion :=
    Option.some.inj ((scanUint32_natCast e.schemaVersion).symm.trans hschema)
  refine ⟨?_, ?_⟩
  · rw [encodedOf, encodedOf, htype, ← hschema', hpayload, T.blob_getD]
    rfl
  · exact UInt64.toNat_inj.mp (Int.ofNat.inj (scanUint64_eq_some hversion).1.symm)

end Sqlite

end EsLite
