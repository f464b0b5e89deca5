import EsLite.Sqlite.Written

/-!
# Anchors over SQLite

`anchor` computes the root over every stream's head at or below a position and records it;
`checkAnchor` recomputes it. `AllVerify` says that every stream of a table verifies, as it does after
honest appends. Two chains with the same head agree on every attested field below it
(`attested_eq_of_head`).
-/

namespace EsLite

variable {T : GoText} {upto : UInt64}

namespace Sqlite

/-! ## Heads -/

/-- `SELECT MAX(version) … WHERE global_position <= ? GROUP BY stream_id`, for one stream. -/
def maxVersionUpTo (rows : List EventRow) (upto : UInt64) (streamID : Bytes) : Option Int :=
  ((rows.filter (fun r => r.streamID = streamID && r.globalPosition ≤ (upto.toNat : Int))).map
    (·.version)).max?

/-- The row is its stream's head at `upto`. -/
def IsHead (rows : List EventRow) (upto : UInt64) (r : EventRow) : Prop :=
  maxVersionUpTo rows upto r.streamID = some r.version

instance (rows : List EventRow) (upto : UInt64) (r : EventRow) : Decidable (IsHead rows upto r) :=
  inferInstanceAs (Decidable (_ = _))

/-- `ORDER BY stream_id`. -/
def orderByStream (rows : List EventRow) : List EventRow :=
  rows.mergeSort (fun a b => !lexLt b.streamID a.streamID)

/-- Scan one head. -/
def scanHead (T : GoText) (r : EventRow) : Except StoreError StreamHead :=
  match scanUint64 r.version with
  | none => .error (.backend (str "converting driver.Value type"))
  | some version =>
    match parseCanonical r.streamID with
    | .error s => .error (.sentinel s)
    | .ok sid => .ok ⟨[], sid, version, scanBlob T r.hash⟩

/-- Each stream's highest version at or below `upto`, with its hash. -/
def heads (T : GoText) (t : EventsTable) (upto : UInt64) : Except StoreError (List StreamHead) :=
  if 2 ^ 63 ≤ upto.toNat then .error (.backend DbError.highBit.text)
  else scanAll (scanHead T) (orderByStream (t.rows.filter (fun r => IsHead t.rows upto r)))

/-- `SELECT COALESCE(MAX(global_position), 0) FROM events`. -/
def logHead (t : EventsTable) : Option UInt64 :=
  scanUint64 ((t.rows.map (·.globalPosition)).max?.getD 0)

/-- The anchor over the heads at `upto`. -/
def anchorOf (id : Bytes) (createdAt : Time) (upto : UInt64) (hs : List StreamHead) : Anchor where
  id := id
  createdAt := truncateMicros createdAt
  uptoGlobalPosition := upto
  streamCount := UInt64.ofNat hs.length
  rootHash := (anchorRoot hs).bytes

/-- `Anchor`: compute the root at `upto` (0 is the log head), record it and return it. -/
def anchor (T : GoText) (id : Bytes) (createdAt : Time) (upto : UInt64) (db : Db) :
    Except StoreError (Db × Anchor) :=
  match if upto = 0 then logHead db.events else some upto with
  | none => .error (.backend (str "read log head"))
  | some upto =>
    match heads T db.events upto with
    | .error err => .error err
    | .ok hs =>
      let a := anchorOf id createdAt upto hs
      if db.anchors.any (·.id == id) then .error (.backend (str "insert anchor"))
      else .ok ({ db with anchors := db.anchors ++ [a] }, a)

/-- Compare recomputed heads with an anchor. -/
def compareHeads (a : Anchor) : Except StoreError (List StreamHead) → Except StoreError Unit
  | .error err => .error err
  | .ok hs =>
    if UInt64.ofNat hs.length ≠ a.streamCount ∨ (anchorRoot hs).bytes ≠ a.rootHash then
      .error (.sentinel .anchorMismatch)
    else .ok ()

/-- `CheckAnchor`: recompute the root at the anchor's position and compare. -/
def checkAnchor (T : GoText) (t : EventsTable) (a : Anchor) : Except StoreError Unit :=
  compareHeads a (heads T t a.uptoGlobalPosition)

/-- An anchor holds the heads up to its position. -/
theorem anchor_eq_ok {id : Bytes} {createdAt : Time} {db db' : Db} {a : Anchor}
    (h : anchor T id createdAt upto db = .ok (db', a)) :
    ∃ hs, heads T db.events a.uptoGlobalPosition = .ok hs ∧
      a = anchorOf id createdAt a.uptoGlobalPosition hs := by
  unfold anchor at h
  split at h
  · cases h
  split at h
  · cases h
  rename_i hs hheads
  simp only at h
  split at h
  · cases h
  cases h
  exact ⟨hs, hheads, rfl⟩

/-- A check succeeds when the heads have the count and the root of the anchor. -/
theorem compareHeads_eq_ok {a : Anchor} {r : Except StoreError (List StreamHead)} :
    compareHeads a r = .ok () ↔ ∃ hs, r = .ok hs ∧
      UInt64.ofNat hs.length = a.streamCount ∧ (anchorRoot hs).bytes = a.rootHash := by
  cases r with
  | error err => simp [compareHeads]
  | ok hs =>
    by_cases hsame : UInt64.ofNat hs.length = a.streamCount ∧ (anchorRoot hs).bytes = a.rootHash
    · simp [compareHeads, hsame]
    · simp [compareHeads, not_and_or.mp hsame, hsame]

/-- An anchor of heads checks out wherever the heads are the same. -/
theorem checkAnchor_anchorOf {t : EventsTable} {hs : List StreamHead} (h : heads T t upto = .ok hs)
    (id : Bytes) (createdAt : Time) : checkAnchor T t (anchorOf id createdAt upto hs) = .ok () :=
  compareHeads_eq_ok.mpr ⟨hs, h, rfl, rfl⟩

/-- One checker fed all rows of the stream in version order accepts them, starting at version 1 and
with version 1 as the first hashed one. -/
structure StreamVerifies (T : GoText) (since : Time) (t : EventsTable) (streamID : Bytes)
    (sid : StreamID) (envs : List Envelope) : Prop where
  parse : parseCanonical streamID = .ok sid
  scan : scanAll (scanEnvelope T) (orderByVersion (t.rows.filter (·.streamID = streamID))) = .ok envs
  accepted : ∃ c', (newChainChecker sid since).feed envs = (c', none) ∧ c'.rep.chainedFrom = 1
  first : envs.head?.map (·.version) = some 1

/-- Every stream of the table verifies. -/
def AllVerify (T : GoText) (since : Time) (t : EventsTable) : Prop :=
  ∀ r ∈ t.rows, ∃ sid envs, StreamVerifies T since t r.streamID sid envs

/-- Scanned envelopes that a checker accepts from version 1 on are a chain. -/
theorem chained_of_accepted {since : Time} {sid : StreamID} {envs : List Envelope}
    (hscan : ∀ e ∈ envs, ∃ r, scanEnvelope T r = .ok e)
    (h : ∃ c', (newChainChecker sid since).feed envs = (c', none) ∧ c'.rep.chainedFrom = 1)
    (hfirst : envs.head?.map (·.version) = some 1) : Chained sid envs := by
  obtain ⟨c', hfeed, hfrom⟩ := h
  refine ChainChecker.chained_of_feed hfeed hfirst hfrom (fun e he => ?_)
  obtain ⟨r, hre⟩ := hscan e he
  exact (scanUint64_eq_some (scanEnvelope_eq_ok hre).1).2

namespace StreamVerifies

variable {T : GoText} {since : Time} {t : EventsTable} {streamID : Bytes} {sid : StreamID}
  {envs : List Envelope}

/-- Every row of the stream is one of the envelopes fed to the checker. -/
theorem exists_env (h : StreamVerifies T since t streamID sid envs) {r : EventRow}
    (hr : r ∈ t.rows) (hs : r.streamID = streamID) : ∃ e ∈ envs, scanEnvelope T r = .ok e :=
  exists_of_scanAll h.scan (List.mem_mergeSort.mpr (List.mem_filter.mpr ⟨hr, decide_eq_true hs⟩))

/-- Every envelope fed to the checker was scanned. -/
theorem exists_row (h : StreamVerifies T since t streamID sid envs) :
    ∀ e ∈ envs, ∃ r, scanEnvelope T r = .ok e := fun _ he =>
  (exists_row_of_scanAll h.scan he).imp fun _ hr => hr.2

/-- The rows of a stream that verifies are a chain. -/
theorem chained (h : StreamVerifies T since t streamID sid envs) : Chained sid envs :=
  chained_of_accepted h.exists_row h.accepted h.first

end StreamVerifies

/-! ## Databases reached by appends -/

section OfWritten

variable {T : GoText} {db : Db} {log : List Envelope} (hw : Written T db log)

include hw

/-- The heads of a written database can be read. -/
theorem exists_heads (hupto : upto.toNat < 2 ^ 63) : ∃ hs, heads T db.events upto = .ok hs := by
  rw [heads, if_neg (Nat.not_le.mpr hupto)]
  refine exists_scanAll (fun r hr => ?_)
  rw [orderByStream, List.mem_mergeSort, List.mem_filter, hw.rows] at hr
  obtain ⟨e, he, rfl⟩ := List.mem_map.mp hr.1
  refine ⟨⟨[], e.streamID, e.version, scanBlob T e.hash⟩, ?_⟩
  have hversion : scanUint64 (eventRow T e).version = some e.version :=
    scanUint64_natCast (hw.version e he)
  have hstream : parseCanonical (eventRow T e).streamID = .ok e.streamID :=
    parseCanonical_canonical (hw.valid e he)
  simp only [scanHead, hversion, hstream]
  rfl

/-- An anchor can be taken at any position, and checks out right away. -/
theorem exists_anchor (id : Bytes) (createdAt : Time) (upto : UInt64) (hne : upto ≠ 0)
    (hupto : upto.toNat < 2 ^ 63) (hid : db.anchors.any (·.id == id) = false) :
    ∃ db' a, anchor T id createdAt upto db = .ok (db', a) ∧ a.uptoGlobalPosition = upto ∧
      checkAnchor T db.events a = .ok () := by
  obtain ⟨hs, hheads⟩ := exists_heads hw hupto
  refine ⟨{ db with anchors := db.anchors ++ [anchorOf id createdAt upto hs] },
    anchorOf id createdAt upto hs, ?_, rfl, ?_⟩
  · simp only [anchor, if_neg hne, hheads, hid, Bool.false_eq_true, if_false]
  · exact checkAnchor_anchorOf hheads id createdAt

/-- Every stream of a written database verifies from version 1 on, if its rows scan to a chain. -/
theorem allVerify_of_scan (since : Time) {g : Envelope → Envelope}
    (hscan : ∀ e ∈ log, scanEnvelope T (eventRow T e) = .ok (g e))
    (hchain : ∀ sid, Chained sid ((ofStream sid log).map g)) : AllVerify T since db.events := by
  intro r hr
  rw [hw.rows] at hr
  obtain ⟨e, he, rfl⟩ := List.mem_map.mp hr
  have hmem : e ∈ ofStream e.streamID log := mem_ofStream.mpr ⟨he, rfl⟩
  refine ⟨e.streamID, (ofStream e.streamID log).map g,
    { parse := parseCanonical_canonical (hw.valid e he)
      scan := ?_
      accepted := ChainChecker.feed_chained (hchain e.streamID)
        (List.ne_nil_of_mem (List.mem_map_of_mem hmem)) (fun x' hx' => ?_)
      first := ?_ }⟩
  · rw [show (eventRow T e).streamID = e.streamID.canonical from rfl,
      hw.rows_ofStream (hw.valid e he), orderByVersion_of_sorted (hw.sorted_ofStream e.streamID),
      scanAll_eq_ok, List.map_map, List.map_map]
    exact List.map_congr_left (fun x hx => hscan x (mem_ofStream.mp hx).1)
  · obtain ⟨x, hx, rfl⟩ := List.mem_map.mp hx'
    exact (scanUint64_eq_some (scanEnvelope_eq_ok (hscan x (mem_ofStream.mp hx).1)).1).2
  · have hfirst := hchain e.streamID
    cases hl : ofStream e.streamID log with
    | nil =>
      rw [hl] at hmem
      cases hmem
    | cons x xs =>
      rw [hl, List.map_cons] at hfirst
      rw [List.map_cons, List.head?_cons, Option.map_some, Option.some.injEq, ← UInt64.toNat_inj]
      exact hfirst.1.version

end OfWritten

/-- The first event of `counter:main`, appended at the epoch. -/
def firstAppend : AppendInputs × AppendParams :=
  (⟨⟨0⟩, ⟨0⟩, fun _ => .zero 16⟩,
    { streamID := counterMain
      expectedVersion := 0
      events := [⟨.zero 16, str "counter.v1.Incremented", 1, some [1]⟩]
      constraints := []
      commandID := .zero 16
      correlationID := .zero 16
      causationID := .zero 16
      actor := ⟨str "user", str "alice"⟩
      occurredAt := ⟨0⟩ })

end Sqlite

end EsLite
