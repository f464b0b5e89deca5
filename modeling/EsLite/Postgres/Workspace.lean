import EsLite.Es.Chain
import EsLite.Postgres.Db

/-!
# The Postgres store

The operations of `Workspace` and `Store` as programs over the statements of the database: appends, in
a transaction of their own or of the caller, the horizon fence and the reads bounded by it, and
anchors. `postgres` is the system in which any number of them run interleaved.
-/

namespace EsLite.Postgres

open Prog (perform ofResult)

/-- A program that may end in an error. -/
abbrev Pg (ε α : Type) := ExceptT ε (Prog Op Res) α

section Calls

variable {ε α : Type}

/-- Run a statement, and wrap its error. -/
def stmt (wrap : DbError → ε) (call : Prog Op Res (Except DbError α)) : Pg ε α :=
  ExceptT.mk (call >>= fun r => pure (r.mapError wrap))

/-- `defer tx.Rollback(ctx)`. -/
def rollbackAfter (t : Nat) (body : Pg ε α) : Pg ε α :=
  ExceptT.mk (body.run >>= fun r => Prog.op (Op.rollback t) >>= fun _ => pure r)

end Calls

/-! ## Appends -/

/-- An error of a statement of an append. -/
def appendErr (text : String) : DbError → AppendError := fun _ => .backend (str text)

def validateAppend (p : AppendParams) : Except AppendError Unit :=
  match p.streamID.validate with
  | .error s => .error (.invalid s)
  | .ok () => checkConstraints p.constraints

/-- The stream's current version and the hash the next event links to. -/
def headOf (sid : StreamID) : Option (Placed Envelope) → UInt64 × Digest
  | none => (0, zeroHash)
  | some r => (r.row.version, digestOr r.row.hash (unchainedHeadHash sid r.row.version))

def readHead (ws : Bytes) (sid : StreamID) (t : Nat) : Pg AppendError (UInt64 × Digest) := do
  let row ← stmt (appendErr "read stream head") (.op (Op.readHead t ws sid.canonical))
  pure (headOf sid row)

/-- The optimistic-concurrency guard. -/
def checkVersion (p : AppendParams) (current : UInt64) : Except AppendError Unit :=
  if current ≠ p.expectedVersion then .error (.conflict p.streamID current p.expectedVersion)
  else .ok ()

/-- When the events happened: the caller's time, or now. -/
def occurredAt (p : AppendParams) : Pg AppendError Time :=
  match p.occurredAt.isZero with
  | true => perform Op.timeNow
  | false => pure p.occurredAt

/-- The id of an event: the caller's, or a new one. -/
def eventID (ev : EventData) : Pg AppendError UUID :=
  match ev.eventID == .zero 16 with
  | true => perform Op.newV7
  | false => pure ev.eventID

/-- The envelope of one event, linked to `prev`. -/
def appendEnvelope (ws : Bytes) (p : AppendParams) (occurred recorded : Time) (id : UUID)
    (version : UInt64) (prev : Digest) (ev : EventData) : Envelope :=
  chainRow
    { eventID := id
      streamID := p.streamID
      version := version
      globalPosition := 0
      workspace := ws
      typeURL := ev.typeURL
      schemaVersion := ev.schemaVersion
      occurredAt := occurred
      recordedAt := recorded
      correlationID := p.correlationID
      causationID := p.causationID
      commandID := p.commandID
      actor := p.actor
      payload := ev.payload
      prevHash := none
      hash := none } prev

/-- The error of an `INSERT INTO events`. -/
def insertErr (sid : StreamID) (version : UInt64) : DbError → AppendError
  | .unique => .conflictAt sid version
  | _ => .backend (str "insert v")

/-- `INSERT INTO events … RETURNING global_position`: the default of the column draws the position
before the row is checked. -/
def insertRow (t : Nat) (e : Envelope) : Pg AppendError Nat := do
  let p ← stmt (insertErr e.streamID e.version) (.op (Op.nextval t))
  stmt (insertErr e.streamID e.version) (.op (Op.insertEvent t p e))
  pure p

/-- Insert the events after `version`, each linked to the one before. -/
def insertEvents (ws : Bytes) (p : AppendParams) (t : Nat) (occurred recorded : Time) :
    UInt64 → Digest → List EventData → Pg AppendError (List Envelope)
  | _, _, [] => pure []
  | version, prev, ev :: evs => do
    let id ← eventID ev
    let env := appendEnvelope ws p occurred recorded id (version + 1) prev ev
    let gp ← insertRow t env
    let envs ← insertEvents ws p t occurred recorded (version + 1) (envelopeHash env) evs
    pure ({ env with globalPosition := UInt64.ofNat gp } :: envs)

/-- The error of an `INSERT INTO unique_claims`. -/
def claimErr (o : ConstraintOp) : DbError → AppendError
  | .unique => .constraintViolated o.scope o.value
  | _ => .backend (str "claim ")

/-- Releases first. -/
def releaseClaims (ws stream : Bytes) (t : Nat) : List ConstraintOp → Pg AppendError Unit
  | [] => pure ()
  | o :: os =>
    if o.op = .releaseOp then do
      stmt (appendErr "release claim ") (.op (Op.deleteClaim t ⟨ws, o.scope, o.value, stream⟩))
      releaseClaims ws stream t os
    else releaseClaims ws stream t os

/-- Then claims. -/
def insertClaims (ws stream : Bytes) (t : Nat) : List ConstraintOp → Pg AppendError Unit
  | [] => pure ()
  | o :: os =>
    if o.op = .claimOp then do
      stmt (claimErr o) (.op (Op.insertClaim t ⟨ws, o.scope, o.value, stream⟩))
      insertClaims ws stream t os
    else insertClaims ws stream t os

/-- The uniqueness operations of an append. -/
def applyClaims (ws stream : Bytes) (t : Nat) (ops : List ConstraintOp) : Pg AppendError Unit := do
  releaseClaims ws stream t ops
  insertClaims ws stream t ops

/-- The shared append body; the transaction gets its id before any position is drawn. -/
def append (cap : Int) (ws : Bytes) (p : AppendParams) (t : Nat) : Pg AppendError AppendResult := do
  ofResult (checkPayloads cap p.streamID p.expectedVersion p.events)
  let _ ← stmt (appendErr "assign append xid") (.op (Op.currentXid t))
  let occurred ← occurredAt p
  let head ← readHead ws p.streamID t
  ofResult (checkVersion p head.1)
  let recorded ← stmt (appendErr "read commit clock") (.op (Op.clockTimestamp t))
  let envs ← insertEvents ws p t (truncateMicros occurred) (truncateMicros recorded)
    p.expectedVersion head.2 p.events
  applyClaims ws p.streamID.canonical t p.constraints
  pure ⟨p.expectedVersion, p.expectedVersion + UInt64.ofNat p.events.length, envs⟩

/-- `AppendTx`: in a transaction of the caller, which it never ends. -/
def appendTx (cap : Int) (ws : Bytes) (p : AppendParams) (t : Nat) : Pg AppendError AppendResult := do
  ofResult (validateAppend p)
  stmt (appendErr "set workspace") (.op (Op.setConfig t))
  append cap ws p t

/-- The part of `Append` inside its transaction. -/
def appendOwned (cap : Int) (ws : Bytes) (p : AppendParams) (t : Nat) :
    Pg AppendError AppendResult := do
  stmt (appendErr "set workspace") (.op (Op.setConfig t))
  let res ← append cap ws p t
  stmt (appendErr "commit") (.op (Op.commit t))
  pure res

/-- `Append`: in a transaction of its own. -/
def appendOwn (cap : Int) (ws : Bytes) (p : AppendParams) : Pg AppendError AppendResult := do
  ofResult (validateAppend p)
  let t ← stmt (appendErr "begin") (.op Op.beginTx)
  rollbackAfter t (appendOwned cap ws p t)

/-- What the owner of a transaction does in it. -/
inductive CallerStep where
  | appendTx (ws : Bytes) (p : AppendParams)
  /-- Some other statement that makes the transaction get its id. -/
  | other

/-- The steps of a transaction of a caller, who goes on whatever they return. -/
def callerSteps (cap : Int) (t : Nat) : List CallerStep → Prog Op Res Unit
  | [] => pure ()
  | .appendTx ws p :: steps => do
    let _ ← (appendTx cap ws p t).run
    callerSteps cap t steps
  | .other :: steps => do
    let _ ← Prog.op (Op.currentXid t)
    callerSteps cap t steps

/-- The end of a transaction of a caller. -/
def endTx (t : Nat) : Bool → Prog Op Res Unit
  | true => do
    let _ ← Prog.op (Op.commit t)
    pure ()
  | false => Prog.op (Op.rollback t)

/-- A transaction of a caller, from the reply of `BEGIN` on. -/
def callerBody (cap : Int) (steps : List CallerStep) (commits : Bool) :
    Except DbError Nat → Prog Op Res Unit
  | .error _ => pure ()
  | .ok t => do
    callerSteps cap t steps
    endTx t commits

/-- A transaction of a caller. -/
def callerTx (cap : Int) (steps : List CallerStep) (commits : Bool) : Prog Op Res Unit :=
  Prog.op Op.beginTx >>= callerBody cap steps commits

/-! ## The horizon fence -/

/-- An error of a statement of a read. -/
def readErr (text : String) : DbError → ReadError := fun _ => .backend (str text)

def readLastPosition : Pg ReadError Nat := stmt (readErr "read last position") (.op Op.lastValue)

def drawFence : Pg ReadError Nat := do
  let t ← stmt (readErr "begin fence") (.op Op.beginTx)
  rollbackAfter t (stmt (readErr "draw fence xid") (.op (Op.currentXid t)))

def fenceCleared (r : Nat) : Pg ReadError Bool :=
  stmt (readErr "check fence") (.op (Op.horizonReached r))

/-- A round that finds the fence `(l, r)` stored. -/
def checkStored (l r : Nat) : Pg ReadError Nat := do
  match ← fenceCleared r with
  | false => pure 0
  | true => do
    let _ ← perform (Op.writeFence 0 0)
    pure l

/-- A round that draws a fence for `last`. -/
def fenceLast (last : Nat) : Pg ReadError Nat := do
  let r ← drawFence
  match ← fenceCleared r with
  | true => pure last
  | false => do
    let _ ← perform (Op.writeFence last r)
    pure 0

/-- A round that finds no fence stored. -/
def drawRound (start : Nat) : Pg ReadError Nat := do
  let last ← readLastPosition
  if last ≤ start then pure 0 else fenceLast last

/-- The body of `fenceBound`, with the mutex held. -/
def fenceRound (start : Nat) : Pg ReadError Nat := do
  let fence ← perform Op.readFence
  if fence.2 ≠ 0 then checkStored fence.1 fence.2 else drawRound start

/-- One round of the fence: the position up to which a page may deliver, 0 for nothing. -/
def fenceBound (start : Nat) : Pg ReadError Nat :=
  ExceptT.mk do
    Prog.op Op.lock
    let r ← (fenceRound start).run
    Prog.op Op.unlock
    pure r

/-! ## Bounded reads -/

/-- Step 2: full rows for the chosen positions. -/
def fetchPage (ws : Bytes) (t : Nat) : List Nat × Bool → Pg ReadError (List (Placed Envelope) × Bool)
  | ([], _) => pure ([], false)
  | (p :: ps, truncated) => do
    let out ← stmt (readErr "") (.op (Op.selectRows t ws (p :: ps)))
    pure (out, truncated)

/-- Both steps of a page, up to `bound`. -/
def readPage (cap : Int) (ws : Bytes) (start limit : Nat) (maxBytes : Int) (types : List Bytes)
    (bound t : Nat) : Pg ReadError (List (Placed Envelope) × Bool) := do
  stmt (readErr "") (.op (Op.setConfig t))
  let rows ← stmt (readErr "") (.op (Op.selectSizes t ws start limit types bound))
  let chosen ← ofResult (choosePositions cap maxBytes rows)
  fetchPage ws t chosen

def readAllBounded (cap : Int) (ws : Bytes) (start : Nat) (limit maxBytes : Int)
    (types : List Bytes) : Pg ReadError (List (Placed Envelope) × Bool) :=
  if types = [] then pure ([], false)
  else do
    let bound ← fenceBound start
    if bound ≤ start then pure ([], false)
    else do
      let t ← stmt (readErr "") (.op Op.beginTx)
      rollbackAfter t (readPage cap ws start (pageLimit limit) maxBytes types bound t)

/-- The highest settled position of a row that satisfies `q`. -/
def readSettled (q : Nat → Placed Envelope → Bool) : Pg ReadError Nat := do
  let bound ← fenceBound 0
  if bound = 0 then pure 0
  else do
    let t ← stmt (readErr "") (.op Op.beginTx)
    rollbackAfter t (do
      stmt (readErr "") (.op (Op.setConfig t))
      stmt (readErr "") (.op (Op.maxPosition t (q bound))))

/-- `Head`. -/
def head (ws : Bytes) : Pg ReadError Nat :=
  readSettled (fun bound r => r.row.workspace = ws && r.position ≤ bound)

/-- `MatchingHead`. -/
def matchingHead (ws : Bytes) (types : List Bytes) : Pg ReadError Nat :=
  if types = [] then pure 0
  else readSettled (fun bound r =>
    r.row.workspace = ws && r.position ≤ bound && r.row.typeURL ∈ types)

/-! ## Anchors -/

/-- An error of a statement of an anchor operation. -/
def anchorErr (text : String) : DbError → StoreError := fun _ => .backend (str text)

/-- `ErrRelayRoleMissing`. -/
def checkRelayRole : Pg StoreError Unit := do
  match ← stmt (anchorErr "postgres: drain: es_relay membership check") (.op Op.relayRole) with
  | true => pure ()
  | false => throw (StoreError.backend (str
      "postgres: drain: session user is not a member of the es_relay role; the RLS bypass is role-gated (see docs/deploy/README.md)"))

/-- A transaction that sees the rows of every workspace. -/
def bypassTx {α : Type} (body : Nat → Pg StoreError α) : Pg StoreError α := do
  checkRelayRole
  let t ← stmt (anchorErr "begin") (.op Op.beginTx)
  rollbackAfter t (do
    stmt (anchorErr "set bypass") (.op (Op.setConfig t))
    body t)

/-- Scan one head. -/
def scanHead (r : HeadRow) : Except StoreError StreamHead :=
  match parseCanonical r.streamID with
  | .error s => .error (.sentinel s)
  | .ok sid => .ok ⟨r.workspace, sid, r.version, r.hash⟩

/-- Each stream's highest version at or below `upto`, with its hash. -/
def heads (on : HeadsFor) (t upto : Nat) : Pg StoreError (List StreamHead) := do
  let rows ← stmt (anchorErr "read stream heads") (.op (Op.selectHeads on t upto))
  ofResult (scanAll scanHead rows)

/-- The bound of an anchor: 0 is the log head. -/
def anchorBound (upto : UInt64) (t : Nat) : Pg StoreError Nat :=
  if upto = 0 then stmt (anchorErr "read log head") (.op (Op.maxPosition t (fun _ => true)))
  else pure upto.toNat

/-- The anchor over the heads at `upto`. -/
def anchorOf (id : Bytes) (createdAt : Time) (upto : Nat) (hs : List StreamHead) : Anchor where
  id := id
  createdAt := truncateMicros createdAt
  uptoGlobalPosition := UInt64.ofNat upto
  streamCount := UInt64.ofNat hs.length
  rootHash := (anchorRoot hs).bytes

/-- `Anchor`. -/
def anchor (upto : UInt64) : Pg StoreError Anchor :=
  bypassTx (fun t => do
    let upto ← anchorBound upto t
    let hs ← heads .anchor t upto
    let id ← perform Op.newAnchorID
    let now ← perform Op.timeNow
    let a := anchorOf id now upto hs
    stmt (anchorErr "insert anchor") (.op (Op.insertAnchor t a))
    stmt (anchorErr "commit") (.op (Op.commit t))
    pure a)

/-- Whether recomputed heads match an anchor. -/
def compareAnchor (a : Anchor) (hs : List StreamHead) : Except StoreError Unit :=
  if UInt64.ofNat hs.length ≠ a.streamCount ∨ (anchorRoot hs).bytes ≠ a.rootHash then
    .error (.sentinel .anchorMismatch)
  else .ok ()

/-- `CheckAnchor`. -/
def checkAnchor (a : Anchor) : Pg StoreError Unit :=
  bypassTx (fun t => do
    let hs ← heads .checkAnchor t a.uptoGlobalPosition.toNat
    ofResult (compareAnchor a hs))

/-! ## The system -/

/-- The calls of the clients. -/
inductive Call where
  | append (ws : Bytes) (p : AppendParams)
  | callerTx (steps : List CallerStep) (commits : Bool)
  | readAllBounded (start : Nat) (limit maxBytes : Int) (types : List Bytes)
  | head
  | matchingHead (types : List Bytes)
  | anchor (upto : UInt64)
  | checkAnchor (a : Anchor)

/-- What a call returns. -/
inductive Reply where
  | appended (r : Except AppendError AppendResult)
  | ended
  | page (r : Except ReadError (List (Placed Envelope) × Bool))
  | head (r : Except ReadError Nat)
  | anchored (r : Except StoreError Anchor)
  | checked (r : Except StoreError Unit)

/-- The program of a call; the reads are those of one `Workspace`, that of `ws`. -/
def program (cap : Int) (ws : Bytes) : Call → Prog Op Res Reply
  | .append ws' p => (appendOwn cap ws' p).run >>= fun r => pure (.appended r)
  | .callerTx steps commits => callerTx cap steps commits >>= fun _ => pure .ended
  | .readAllBounded start limit maxBytes types =>
    (readAllBounded cap ws start limit maxBytes types).run >>= fun r => pure (.page r)
  | .head => (head ws).run >>= fun r => pure (.head r)
  | .matchingHead types => (matchingHead ws types).run >>= fun r => pure (.head r)
  | .anchor upto => (anchor upto).run >>= fun r => pure (.anchored r)
  | .checkAnchor a => (checkAnchor a).run >>= fun r => pure (.checked r)

/-- **The Postgres store**: any number of calls of any kind, interleaved statement by statement. -/
def postgres (cap : Int) (ws : Bytes) : System State Call Op Res Reply Choice EnvStep where
  prog := program cap ws
  exec := exec
  env := envStep

end EsLite.Postgres
