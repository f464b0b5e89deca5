import EsLite.Es.Page
import EsLite.Es.Anchor
import EsLite.Es.Store
import EsLite.Foundation.Interleaving
import EsLite.Foundation.Mvcc
import Mathlib.Data.List.Sort

/-!
# The Postgres database

The database as the Postgres store uses it: the statements of the store as atomic calls, each with
its effect on tables that many transactions share at `READ COMMITTED`. A statement sees what was
committed before it started and what its own transaction wrote; it waits while another open
transaction decides whether it may go on; an error ends its transaction.

The rows of the events table are envelopes at positions of the shared sequence. An `INSERT` is two
calls, the draw of the position and the insertion of the row, since other statements run between
them.
-/

namespace EsLite.Postgres

/-! ## Tables -/

/-- A row of `unique_claims`. -/
structure ClaimRow where
  workspace : Bytes
  scope : Bytes
  value : Bytes
  streamID : Bytes
deriving DecidableEq

/-- Two claims of the same value. -/
def ClaimRow.sameKey (a b : ClaimRow) : Bool :=
  a.workspace = b.workspace && a.scope = b.scope && a.value = b.value

/-- A change to `unique_claims` by an open transaction. -/
inductive ClaimWrite where
  | put (c : ClaimRow)
  | drop (c : ClaimRow)
deriving DecidableEq

/-- The claim a change is about. -/
def ClaimWrite.claim : ClaimWrite → ClaimRow
  | .put c => c
  | .drop c => c

/-- The claims after a change. -/
def ClaimWrite.apply (claims : List ClaimRow) : ClaimWrite → List ClaimRow
  | .put c => claims ++ [c]
  | .drop c => claims.filter (· ≠ c)

/-- The unique keys of the events table: workspace, stream and version, and workspace and event. -/
def clash (a b : Envelope) : Bool :=
  a.workspace = b.workspace &&
    ((a.streamID.canonical = b.streamID.canonical && a.version = b.version) ||
      a.eventID = b.eventID)

theorem clash_comm (a b : Envelope) : clash a b = clash b a := by
  simp only [clash, eq_comm]

/-- The database, with the fence of the one `Workspace` whose reads are followed. -/
structure State where
  /-- The clock of the database. -/
  now : Time
  events : Mvcc Envelope
  claims : List ClaimRow
  /-- What open transactions did to the claims. -/
  claimWrites : List (Nat × ClaimWrite)
  /-- The mutex of the `Workspace`. -/
  locked : Bool
  /-- The sequence value a round recorded. -/
  boundL : Nat
  /-- The transaction id drawn after it; 0 when no fence is stored. -/
  fenceR : Nat
deriving DecidableEq

namespace State

/-- The database right after the migrations, and a new `Workspace`. -/
def fresh (now : Time) : State := ⟨now, .empty, [], [], false, 0, 0⟩

/-- The claims a statement of a transaction sees. -/
def visibleClaims (s : State) (t : Nat) : List ClaimRow :=
  ((s.claimWrites.filter (·.1 = t)).map Prod.snd).foldl ClaimWrite.apply s.claims

/-- Roll a transaction back. -/
def abort (s : State) (t : Nat) : State :=
  { s with
    events := s.events.abort t
    claimWrites := s.claimWrites.filter (·.1 ≠ t) }

/-- Commit a transaction. -/
def commit (s : State) (t : Nat) : State :=
  { s with
    events := s.events.commit t
    claims := s.visibleClaims t
    claimWrites := s.claimWrites.filter (·.1 ≠ t) }

end State

/-! ## Queries -/

/-- What `heads` returns of a row. -/
structure HeadRow where
  workspace : Bytes
  streamID : Bytes
  version : UInt64
  hash : Option Bytes
deriving DecidableEq

section Queries

variable (rows : List (Placed Envelope))

/-- `ORDER BY global_position ASC`. -/
def orderByPosition : List (Placed Envelope) :=
  rows.insertionSort (fun a b => a.position ≤ b.position)

/-- `WHERE workspace_id = $1 AND global_position > $2 AND type_url = ANY($4) AND global_position <= $5
ORDER BY global_position ASC LIMIT $3`, with the columns of step 1. -/
def selectSizes (ws : Bytes) (start limit : Nat) (types : List Bytes) (bound : Nat) : List SizeRow :=
  ((orderByPosition (rows.filter (fun r => r.row.workspace = ws && start < r.position &&
    r.row.typeURL ∈ types && r.position ≤ bound))).take limit).map
      (fun r => ⟨r.position, r.row.typeURL, (r.row.payload.getD []).length⟩)

/-- `WHERE workspace_id = $1 AND global_position = ANY($2) ORDER BY global_position ASC`. -/
def selectRows (ws : Bytes) (positions : List Nat) : List (Placed Envelope) :=
  orderByPosition (rows.filter (fun r => r.row.workspace = ws && r.position ∈ positions))

/-- `COALESCE(MAX(global_position), 0)` over the rows that satisfy a condition. -/
def maxPosition (q : Placed Envelope → Bool) : Nat :=
  ((rows.filter q).map (·.position)).max?.getD 0

/-- `ORDER BY version DESC LIMIT 1`, for one stream of a workspace. -/
def selectHead (ws stream : Bytes) : Option (Placed Envelope) :=
  (rows.filter (fun r => r.row.workspace = ws && r.row.streamID.canonical = stream)).maxOn?
    (fun r => r.row.version.toNat)

/-- `SELECT MAX(version) … WHERE global_position <= $1 GROUP BY workspace_id, stream_id`, for one
stream of a workspace. -/
def maxVersionUpTo (upto : Nat) (ws stream : Bytes) : Option Nat :=
  ((rows.filter (fun r => r.row.workspace = ws && r.row.streamID.canonical = stream &&
    r.position ≤ upto)).map (fun r => r.row.version.toNat)).max?

/-- The row has the version of its stream's head at `upto`. -/
def isHead (upto : Nat) (r : Placed Envelope) : Bool :=
  maxVersionUpTo rows upto r.row.workspace r.row.streamID.canonical = some r.row.version.toNat

/-- The columns of a head. -/
def headRow (r : Placed Envelope) : HeadRow :=
  ⟨r.row.workspace, r.row.streamID.canonical, r.row.version, r.row.hash⟩

/-- The join of `heads`, `ORDER BY e.workspace_id, e.stream_id`. -/
def selectHeads (upto : Nat) : List HeadRow :=
  ((rows.filter (isHead rows upto)).map headRow).insertionSort (fun a b =>
    ¬ (lexLt b.workspace a.workspace ∨
      (b.workspace = a.workspace ∧ lexLt b.streamID a.streamID)))

end Queries

/-! ## Statements -/

/-- Why a statement fails. -/
inductive DbError where
  /-- A unique key is taken. -/
  | unique
  /-- A column that may not be null was null. -/
  | notNull
  /-- The transaction has ended. -/
  | closed
  /-- Anything else: the connection, a timeout, the server. -/
  | failed
deriving DecidableEq

/-- Which caller a `heads` statement belongs to; the statement is the same. -/
inductive HeadsFor where
  | anchor
  | checkAnchor
deriving DecidableEq

/-- The atomic calls of the store: statements of a transaction `t`, statements on the pool, the
fields of the `Workspace`, and the clock and id source of the process. -/
inductive Op where
  | beginTx
  | commit (t : Nat)
  | rollback (t : Nat)
  | setConfig (t : Nat)
  | currentXid (t : Nat)
  | readHead (t : Nat) (ws stream : Bytes)
  | clockTimestamp (t : Nat)
  | nextval (t : Nat)
  | insertEvent (t p : Nat) (e : Envelope)
  | deleteClaim (t : Nat) (c : ClaimRow)
  | insertClaim (t : Nat) (c : ClaimRow)
  | selectSizes (t : Nat) (ws : Bytes) (start limit : Nat) (types : List Bytes) (bound : Nat)
  | selectRows (t : Nat) (ws : Bytes) (positions : List Nat)
  | maxPosition (t : Nat) (q : Placed Envelope → Bool)
  | selectHeads (on : HeadsFor) (t upto : Nat)
  | insertAnchor (t : Nat) (a : Anchor)
  | relayRole
  | lastValue
  | horizonReached (r : Nat)
  | lock
  | unlock
  | readFence
  | writeFence (l r : Nat)
  | timeNow
  | newV7
  | newAnchorID

/-- The reply of a call. -/
def Res : Op → Type
  | .beginTx | .currentXid _ | .nextval _ | .lastValue | .maxPosition .. => Except DbError Nat
  | .readHead .. => Except DbError (Option (Placed Envelope))
  | .clockTimestamp _ => Except DbError Time
  | .selectSizes .. => Except DbError (List SizeRow)
  | .selectRows .. => Except DbError (List (Placed Envelope))
  | .selectHeads .. => Except DbError (List HeadRow)
  | .relayRole | .horizonReached _ => Except DbError Bool
  | .readFence => Nat × Nat
  | .timeNow => Time
  | .newV7 => UUID
  | .newAnchorID => Bytes
  | .rollback _ | .lock | .unlock | .writeFence .. => Unit
  | _ => Except DbError Unit

/-- Whether a statement fails, and whether it ran then. -/
inductive Fault where
  | none
  | before
  | after
deriving DecidableEq

/-- What the model leaves open in a call. -/
structure Choice where
  fault : Fault := .none
  /-- The clock of the process. -/
  time : Time := ⟨0⟩
  /-- The next id of the process. -/
  uuid : UUID := .zero 16
  /-- The text of the next id of the process. -/
  id : Bytes := []
  /-- Whether the session is a member of the relay role. -/
  member : Bool := true

/-- A statement of the open transaction `t` with the outcome `r`: an error of any kind ends the
transaction. -/
def State.statement {α : Type} (s : State) (t : Nat) (fault : Fault)
    (r : Option (State × Except DbError α)) : Option (State × Except DbError α) :=
  if t ∉ s.events.opened then some (s, .error .closed)
  else
    match fault with
    | .none => r.map (fun x =>
        match x.2 with
        | .ok a => (x.1, .ok a)
        | .error e => (x.1.abort t, .error e))
    | .before => some (s.abort t, .error .failed)
    | .after => r.map (fun x => (x.1.abort t, .error .failed))

/-- A statement that changes nothing. -/
def State.query {α : Type} (s : State) (t : Nat) (fault : Fault) (a : α) :
    Option (State × Except DbError α) :=
  s.statement t fault (some (s, .ok a))

/-- A statement on the pool, outside any transaction. -/
def State.poolQuery {α : Type} (s : State) (fault : Fault) (a : α) :
    Option (State × Except DbError α) :=
  match fault with
  | .none => some (s, .ok a)
  | _ => some (s, .error .failed)

/-- The draw of a position; the sequence is exhausted at the largest `bigint`. -/
def State.nextval (s : State) (t : Nat) : State × Except DbError Nat :=
  if s.events.drawn + 1 < 2 ^ 63 then
    ({ s with events := (s.events.draw t).1 }, .ok (s.events.draw t).2)
  else (s, .error .failed)

/-- The insertion of a row at a drawn position. -/
def State.insertEvent (s : State) (t p : Nat) (e : Envelope) :
    Option (State × Except DbError Unit) :=
  if e.payload.isNone then some (s, .error .notNull)
  else
    (s.events.insert clash t p e).map (fun x =>
      ({ s with events := x.1 }, if x.2 then .ok () else .error .unique))

/-- `DELETE FROM unique_claims`: waits while another transaction is deleting the row. -/
def State.deleteClaim (s : State) (t : Nat) (c : ClaimRow) :
    Option (State × Except DbError Unit) :=
  if c ∉ s.visibleClaims t then some (s, .ok ())
  else if s.claimWrites.any (fun w => w.1 ≠ t && w.2 = .drop c) then none
  else some ({ s with claimWrites := s.claimWrites ++ [(t, .drop c)] }, .ok ())

/-- `INSERT INTO unique_claims`: waits while another transaction decides about the key. -/
def State.insertClaim (s : State) (t : Nat) (c : ClaimRow) :
    Option (State × Except DbError Unit) :=
  if s.claimWrites.any (fun w => w.1 ≠ t && w.2.claim.sameKey c) then none
  else if (s.visibleClaims t).any (·.sameKey c) then some (s, .error .unique)
  else some ({ s with claimWrites := s.claimWrites ++ [(t, .put c)] }, .ok ())

/-- **The effect of one call.** The queries of page reads, heads and anchors run in transactions that
insert no events, so what they see is what is committed. -/
def exec (o : Op) (c : Choice) (s : State) : Option (State × Res o) :=
  match o with
  | .beginTx =>
    match c.fault with
    | .none => some ({ s with events := s.events.openTx.1 }, .ok s.events.openTx.2)
    | _ => some (s, .error .failed)
  | .commit t =>
    if t ∉ s.events.opened then some (s, .error .closed)
    else
      match c.fault with
      | .none => some (s.commit t, .ok ())
      | .before => some (s.abort t, .error .failed)
      -- the commit stands although its reply is lost
      | .after => some (s.commit t, .error .failed)
  | .rollback t => some (s.abort t, ())
  | .setConfig t => s.query t c.fault ()
  | .currentXid t =>
    s.statement t c.fault
      (some ({ s with events := (s.events.assignXid t).1 }, .ok (s.events.assignXid t).2))
  | .readHead t ws stream => s.query t c.fault (selectHead (s.events.visible t) ws stream)
  | .clockTimestamp t => s.query t c.fault s.now
  | .nextval t => s.statement t c.fault (some (s.nextval t))
  | .insertEvent t p e => s.statement t c.fault (s.insertEvent t p e)
  | .deleteClaim t r => s.statement t c.fault (s.deleteClaim t r)
  | .insertClaim t r => s.statement t c.fault (s.insertClaim t r)
  | .selectSizes t ws start limit types bound =>
    s.query t c.fault (Postgres.selectSizes s.events.committed ws start limit types bound)
  | .selectRows t ws positions =>
    s.query t c.fault (Postgres.selectRows s.events.committed ws positions)
  | .maxPosition t q => s.query t c.fault (Postgres.maxPosition s.events.committed q)
  | .selectHeads _ t upto => s.query t c.fault (Postgres.selectHeads s.events.committed upto)
  | .insertAnchor t _ => s.query t c.fault ()
  | .relayRole => s.poolQuery c.fault c.member
  | .lastValue => s.poolQuery c.fault s.events.lastValue
  | .horizonReached r => s.poolQuery c.fault (decide (r ≤ s.events.xmin))
  | .lock => if s.locked then none else some ({ s with locked := true }, ())
  | .unlock => some ({ s with locked := false }, ())
  | .readFence => some (s, (s.boundL, s.fenceR))
  | .writeFence l r => some ({ s with boundL := l, fenceR := r }, ())
  | .timeNow => some (s, c.time)
  | .newV7 => some (s, c.uuid)
  | .newAnchorID => some (s, c.id)

/-- What happens by itself. -/
inductive EnvStep where
  /-- Time passes. -/
  | advance (ns : Nat)
  /-- The server ends a transaction: its client crashed, or its connection is gone. -/
  | kill (t : Nat)

/-- The effect of a step of the environment. -/
def envStep : EnvStep → State → Option State
  | .advance ns, s => some { s with now := ⟨s.now.ns + ns⟩ }
  | .kill t, s => some (s.abort t)

end EsLite.Postgres
