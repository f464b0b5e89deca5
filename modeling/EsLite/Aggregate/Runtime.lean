import EsLite.Foundation.Interleaving
import EsLite.Sqlite.Store

/-!
# The aggregate runtime

The write side of the framework: load a stream, fold its events into a state, decide a command on it,
and append the resulting events at the version that was loaded.

* `Decider`, `Codec`, `Model` — what an aggregate supplies. All of it is pure.
* `Op` — the calls of the runtime that are not: the clock, fresh ids, the store, the snapshot cache.
* `Runtime.load`, `Runtime.loadAsOfVersion`, `Runtime.loadAsOfTime`, `Runtime.handleOnce`,
  `Runtime.handleAt` — the runtime as programs over these calls.
* `runtimes` — the system in which any number of handlers run interleaved over one SQLite store and
  one snapshot cache.
-/

namespace EsLite

/-! ## What an aggregate supplies -/

/-- An error from outside the framework: a decider's rejection, a codec's or a context's error. -/
structure Foreign where
  text : Bytes
  /-- The sentinels `errors.Is` finds in it. -/
  wraps : List Sentinel
  /-- Whether `errors.As` finds a `*ConflictError` in it. -/
  conflictError : Bool
deriving DecidableEq

/-- How a stream's state evolves and which events a command produces. -/
structure Decider (S C E : Type) where
  initial : S
  /-- The events of a command and the uniqueness operations that go with them, or a rejection. -/
  decide : S → C → Except Foreign (List E × List ConstraintOp)
  evolve : S → E → S
  /-- Whether the stream is closed; `none` means never. -/
  isTerminal : Option (S → Bool)

/-- The wire form of one event; a payload may be `nil`. -/
structure EncodedEvent where
  typeURL : Bytes
  schemaVersion : UInt32
  payload : Option Bytes
deriving DecidableEq

/-- The codec of an aggregate's events. -/
structure Codec (E : Type) where
  encode : E → Except Foreign EncodedEvent
  decode : EncodedEvent → Except Foreign E

/-- The codec of an aggregate's states in the snapshot cache. -/
structure StateCodec (S : Type) where
  encode : S → Except Foreign Bytes
  decode : Bytes → Except Foreign S

/-- The audit metadata of a command. What the caller says of `OccurredAt` is ignored. -/
structure Meta where
  commandID : UUID
  correlationID : UUID
  causationID : UUID
  actor : Actor
deriving DecidableEq

/-- The pure part of a runtime. -/
structure Model (S C E : Type) where
  decider : Decider S C E
  codec : Codec E
  /-- Applied after decoding; `none` when no upcaster is installed. -/
  upcaster : Option (Bytes → UInt32 → E → Except Foreign E)
  /-- What a command that implements `DecidedAt` says; `none` when it does not. -/
  decisionTime : C → Option Time
  /-- The command with its decision time replaced, or as it is when it has none that can be set. -/
  stampDecisionTime : C → Time → C

namespace Model

variable {S C E : Type} (M : Model S C E)

/-- The state after a list of events. -/
def fold (evs : List E) : S := evs.foldl M.decider.evolve M.decider.initial

/-- Whether no further command is accepted. -/
def terminal (state : S) : Bool := M.decider.isTerminal.any (fun f => f state)

/-- Upgrade a decoded event, if an upcaster is installed. -/
def upcast (typeURL : Bytes) (fromVersion : UInt32) (ev : E) : Except Foreign E :=
  match M.upcaster with
  | none => .ok ev
  | some f => f typeURL fromVersion ev

end Model

/-- Five minutes. -/
def maxDecisionSkew : Int64 := 300000000000

namespace Aggregate

/-! ## Calls -/

/-- A cached state at a point of a stream's history. -/
structure Snapshot where
  version : UInt64
  /-- Guards changes of the fold. -/
  foldVersion : UInt32
  recordedAt : Time
  state : Bytes
deriving DecidableEq

/-- The calls of the runtime that are not pure. -/
inductive Op : Type where
  | timeNow
  | newV7
  | readStream (sid : StreamID) (fromVersion toVersion : UInt64)
  | readStreamAsOf (sid : StreamID) (asOf : Time)
  | append (p : AppendParams)
  /-- The function a caller passed with `WithAppend`. -/
  | appendFunc (p : AppendParams)
  | loadSnapshot (streamID : Bytes)
  | saveSnapshot (streamID : Bytes) (snap : Snapshot)
  /-- The pause before the given retry. -/
  | sleep (attempt : Nat)
deriving DecidableEq

/-- What the calls return. -/
def Res : Op → Type
  | .timeNow => Time
  | .newV7 => UUID
  | .readStream .. | .readStreamAsOf .. => Except StoreError (List Envelope)
  | .append _ => Except AppendError AppendResult
  | .appendFunc _ => Except Foreign AppendResult
  | .loadSnapshot _ => Except Foreign (Option Snapshot)
  | .saveSnapshot .. => Option Foreign
  | .sleep _ => Option Foreign

/-- A program that may end in an error. -/
abbrev Act (ε α : Type) := ExceptT ε (Prog Op Res) α

open Prog (perform ofResult)

/-! ## Errors -/

/-- Why a load failed. -/
inductive LoadError : Type where
  | store (err : StoreError)
  | chain (err : ChainError)
  /-- `decode event %s v%d: %w` -/
  | decode (sid : StreamID) (version : UInt64) (err : Foreign)
  /-- `upcast event %s v%d: %w` -/
  | upcast (sid : StreamID) (version : UInt64) (err : Foreign)
  /-- `ErrVersionOutOfRange: stream %s has version %d, want %d` -/
  | versionOutOfRange (sid : StreamID) (version want : UInt64)
deriving DecidableEq

/-- Why a command was not handled. -/
inductive HandleError : Type where
  /-- `ErrDecidedAtMissing: %T` -/
  | decidedAtMissing
  /-- A `*DecidedAtSkewError`. -/
  | decidedAtSkew (decidedAt serverTime : Time) (maxSkew : Int64)
  | load (err : LoadError)
  /-- A `*ConflictError`: the caller's assertion is stale. -/
  | conflict (sid : StreamID) (expected current : UInt64)
  /-- `ErrTerminal: %s` -/
  | terminal (sid : StreamID)
  /-- The decider's rejection, as it is. -/
  | rejected (err : Foreign)
  /-- `encode event %d: %w` -/
  | encode (i : Nat) (err : Foreign)
  | append (err : AppendError)
  | appendFunc (err : Foreign)
  /-- The context was cancelled during a pause. -/
  | ctx (err : Foreign)
  /-- `aggregate: conflict retry exhausted after %d attempts: %w` -/
  | exhausted (attempts : Nat) (err : HandleError)
deriving DecidableEq

/-- `errors.Is` on an error of a load. -/
def LoadError.is (s : Sentinel) : LoadError → Bool
  | .store (.sentinel s') => s == s'
  | .store (.backend _) => false
  | .chain _ => s == .chainBroken
  | .decode _ _ err | .upcast _ _ err => err.wraps.contains s
  | .versionOutOfRange .. => s == .versionOutOfRange

/-- `errors.As` with a `*ConflictError`, on an error of a load. -/
def LoadError.isConflictError : LoadError → Bool
  | .decode _ _ err | .upcast _ _ err => err.conflictError
  | _ => false

/-- `errors.Is` on an error of a command. -/
def HandleError.is (s : Sentinel) : HandleError → Bool
  | .decidedAtMissing => s == .decidedAtMissing
  | .decidedAtSkew .. => s == .decidedAtSkew
  | .load err => err.is s
  | .conflict .. => s == .conflict
  | .terminal _ => s == .terminal
  | .append err => err.sentinel == some s
  | .rejected err | .encode _ err | .appendFunc err | .ctx err => err.wraps.contains s
  | .exhausted _ err => err.is s

/-- `errors.As` with a `*ConflictError`, on an error of a command. -/
def HandleError.isConflictError : HandleError → Bool
  | .conflict .. => true
  | .load err => err.isConflictError
  | .rejected err | .encode _ err | .appendFunc err | .ctx err => err.conflictError
  | .exhausted _ err => err.isConflictError
  | .decidedAtMissing | .decidedAtSkew .. | .terminal _ | .append _ => false

/-! ## The runtime -/

/-- The snapshot cache of a runtime: how states are stored, and under which fold version. -/
structure Snapshots (S : Type) where
  stateCodec : StateCodec S
  foldVersion : UInt32

/-- A runtime for one aggregate type. -/
structure Runtime (S C E : Type) extends Model S C E where
  /-- `none` when no snapshot cache is set. -/
  snapshots : Option (Snapshots S)
  /-- The number of additional attempts after a conflict. -/
  retries : Nat
  /-- Whether loads verify the hash chain. -/
  verifyChain : Bool

/-- The post-command state, the events and the versions they occupy. -/
structure Result (S E : Type) where
  state : S
  events : List E
  fromVersion : UInt64
  toVersion : UInt64
  envelopes : List Envelope

/-- The options of one call: whether `WithAppend` replaces the store's append. -/
structure HandleOptions where
  append : Bool := false

variable {S C E : Type}

/-- Decode an event, then upcast it. -/
def decodeEvent (M : Model S C E) (sid : StreamID) (env : Envelope) : Except LoadError E :=
  match M.codec.decode ⟨env.typeURL, env.schemaVersion, env.payload⟩ with
  | .error err => .error (.decode sid env.version err)
  | .ok ev =>
    match M.upcast env.typeURL env.schemaVersion ev with
    | .error err => .error (.upcast sid env.version err)
    | .ok ev => .ok ev

/-- Feed the next envelope to the checker, if the load verifies. -/
def checkNext (checker : Option ChainChecker) (env : Envelope) :
    Except LoadError (Option ChainChecker) :=
  match checker with
  | none => .ok none
  | some c =>
    match c.next env with
    | (_, some err) => .error (.chain err)
    | (c', none) => .ok (some c')

/-- The loop of a load. -/
def foldEnvelopes (M : Model S C E) (sid : StreamID) :
    Option ChainChecker → S × UInt64 → List Envelope → Except LoadError (S × UInt64)
  | _, acc, [] => .ok acc
  | checker, acc, env :: envs =>
    match checkNext checker env with
    | .error err => .error err
    | .ok checker =>
      match decodeEvent M sid env with
      | .error err => .error err
      | .ok ev => foldEnvelopes M sid checker (M.decider.evolve acc.1 ev, env.version) envs

/-- The envelopes of a read; a stream that was not found has none. -/
def envelopesOf (r : Except StoreError (List Envelope)) : Except LoadError (List Envelope) :=
  match r with
  | .ok envs => .ok envs
  | .error (.sentinel .streamNotFound) => .ok []
  | .error err => .error (.store err)

/-- Start from a snapshot of the same fold version that decodes, and from nothing otherwise. -/
def Snapshots.seed (c : Snapshots S) (initial : S) : Except Foreign (Option Snapshot) → S × UInt64
  | .ok (some snap) =>
    if snap.foldVersion = c.foldVersion then
      match c.stateCodec.decode snap.state with
      | .ok state => (state, snap.version)
      | .error _ => (initial, 0)
    else (initial, 0)
  | _ => (initial, 0)

namespace Runtime

variable (R : Runtime S C E)

/-- Where a load starts: only a load of the current state looks at the cache. -/
def seed (sid : StreamID) (upToVersion : UInt64) (asOf : Time) : Act LoadError (S × UInt64) :=
  match R.snapshots with
  | none => pure (R.decider.initial, 0)
  | some c =>
    if upToVersion = 0 ∧ asOf.isZero then do
      let snap ← perform (Op.loadSnapshot sid.canonical)
      pure (c.seed R.decider.initial snap)
    else pure (R.decider.initial, 0)

/-- Fold what was read onto the seed, and check that the wanted version was reached. -/
def foldRead (sid : StreamID) (upToVersion : UInt64) (acc : S × UInt64)
    (r : Except StoreError (List Envelope)) : Except LoadError (S × UInt64) :=
  let checker := if R.verifyChain then some (newChainChecker sid .zero) else none
  match envelopesOf r with
  | .error err => .error err
  | .ok envs =>
    match foldEnvelopes R.toModel sid checker acc envs with
    | .error err => .error err
    | .ok (state, version) =>
      if 0 < upToVersion ∧ version ≠ upToVersion then
        .error (.versionOutOfRange sid version upToVersion)
      else .ok (state, version)

/-- Fold a stream into a state: up to a version, as of a time, or the whole of it. -/
def load (sid : StreamID) (upToVersion : UInt64) (asOf : Time) : Act LoadError (S × UInt64) := do
  let acc ← R.seed sid upToVersion asOf
  let r ←
    if asOf.isZero then perform (Op.readStream sid acc.2 upToVersion)
    else perform (Op.readStreamAsOf sid asOf)
  ofResult (R.foldRead sid upToVersion acc r)

/-- `LoadAsOfVersion`: the state after exactly version `v`; version 0 is before the first event. -/
def loadAsOfVersion (sid : StreamID) (v : UInt64) : Act LoadError S :=
  match sid.validate with
  | .error s => ofResult (.error (.store (.sentinel s)))
  | .ok () =>
    if v = 0 then pure R.decider.initial
    else do
      let (state, _) ← R.load sid v .zero
      pure state

/-- `LoadAsOfTime`: the state at time `t`, by the recorded times of the events. -/
def loadAsOfTime (sid : StreamID) (t : Time) : Act LoadError S := do
  let (state, _) ← R.load sid 0 t
  pure state

/-- Encode the events of a decision. -/
def encodeEvents (codec : Codec E) : Nat → List E → Except HandleError (List EventData)
  | _, [] => .ok []
  | i, ev :: evs =>
    match codec.encode ev with
    | .error err => .error (.encode i err)
    | .ok enc =>
      match encodeEvents codec (i + 1) evs with
      | .error err => .error err
      | .ok datas => .ok (⟨.zero 16, enc.typeURL, enc.schemaVersion, enc.payload⟩ :: datas)

/-- What an attempt does with the loaded state. -/
inductive Decision (E : Type) : Type where
  /-- Nothing to append. -/
  | noop
  /-- Events to append, encoded, and uniqueness operations. -/
  | append (events : List E) (encoded : List EventData) (constraints : List ConstraintOp)

/-- The checks on the loaded state, the decision on it and its encoding. -/
def decideOn (sid : StreamID) (cmd : C) (expected : UInt64) (state : S) (version : UInt64) :
    Except HandleError (Decision E) :=
  if expected ≠ 0 ∧ version ≠ expected then .error (.conflict sid expected version)
  else if R.terminal state then .error (.terminal sid)
  else
    match R.decider.decide state cmd with
    | .error err => .error (.rejected err)
    | .ok (events, constraints) =>
      if events.isEmpty ∧ constraints.isEmpty then .ok .noop
      else
        match encodeEvents R.codec 0 events with
        | .error err => .error err
        | .ok encoded => .ok (.append events encoded constraints)

/-- The input of the append. -/
def appendParams (sid : StreamID) (version : UInt64) (encoded : List EventData)
    (constraints : List ConstraintOp) (m : Meta) (occurredAt : Time) : AppendParams where
  streamID := sid
  expectedVersion := version
  events := encoded
  constraints := constraints
  commandID := m.commandID
  correlationID := m.correlationID
  causationID := m.causationID
  actor := m.actor
  occurredAt := occurredAt

/-- The store's append, or the caller's. -/
def appendFn (ho : HandleOptions) (p : AppendParams) : Act HandleError AppendResult :=
  match ho.append with
  | false => do
    let r ← perform (Op.append p)
    ofResult (r.mapError .append)
  | true => do
    let r ← perform (Op.appendFunc p)
    ofResult (r.mapError .appendFunc)

/-- Write the new state through to the cache. A failure is ignored. -/
def saveSnapshot (sid : StreamID) (state : S) (version : UInt64) : Act HandleError Unit :=
  match R.snapshots with
  | none => pure ()
  | some c =>
    match c.stateCodec.encode state with
    | .error _ => pure ()
    | .ok b => do
      let now ← perform Op.timeNow
      let _ ← perform (Op.saveSnapshot sid.canonical ⟨version, c.foldVersion, now, b⟩)
      pure ()

/-- Append what was decided, and fold it forward. -/
def commit (sid : StreamID) (m : Meta) (occurredAt : Time) (ho : HandleOptions) (state : S)
    (version : UInt64) : Decision E → Act HandleError (Result S E)
  | .noop => pure ⟨state, [], version, version, []⟩
  | .append events encoded constraints => do
    let res ← appendFn ho (appendParams sid version encoded constraints m occurredAt)
    let state := events.foldl R.decider.evolve state
    R.saveSnapshot sid state res.toVersion
    pure ⟨state, events, res.fromVersion, res.toVersion, res.envelopes⟩

/-- One pass: load, check, decide, append. -/
def handleOnce (sid : StreamID) (cmd : C) (m : Meta) (occurredAt : Time) (expected : UInt64)
    (ho : HandleOptions) : Act HandleError (Result S E) := do
  let (state, version) ← ExceptT.adapt HandleError.load (R.load sid 0 .zero)
  let decision ← ofResult (R.decideOn sid cmd expected state version)
  R.commit sid m occurredAt ho state version decision

/-- The error of a call: from the second attempt on it says how many there were. -/
def surface (attempt : Nat) (err : HandleError) : HandleError :=
  if 0 < attempt then .exhausted (attempt + 1) err else err

/-- Attempt `attempt` of a call, and the retries that are left after it: only a conflict with another
writer is retried, and a cancelled pause ends the call. -/
def attempts (once : Act HandleError (Result S E)) :
    Nat → Nat → Prog Op Res (Except HandleError (Result S E))
  | attempt, 0 => do
    let r ← once.run
    pure (r.mapError (surface attempt))
  | attempt, left + 1 => do
    match ← once.run with
    | .ok res => pure (.ok res)
    | .error err =>
      if err.is .conflict && !err.isConflictError then
        match ← Prog.op (Op.sleep (attempt + 1)) with
        | some x => pure (.error (.ctx x))
        | none => attempts once (attempt + 1) left
      else pure (.error (surface attempt err))

/-- Whether a decision time is further from the clock than allowed, either way. -/
def skewed (now decided : Time) : Bool :=
  let skew := now.sub decided
  maxDecisionSkew < if skew < 0 then -skew else skew

/-- Check a command's decision time against the clock, and replace it by the clock. -/
def stampCommand (now : Time) (cmd : C) : Except HandleError C :=
  match R.decisionTime cmd with
  | none => .ok cmd
  | some decided =>
    if decided.isZero then .error .decidedAtMissing
    else if skewed now decided then .error (.decidedAtSkew decided now maxDecisionSkew)
    else .ok (R.stampDecisionTime cmd now)

/-- Fill in the ids of a command, once for all its attempts. -/
def fillMeta (m : Meta) : Act HandleError Meta := do
  let commandID ← if m.commandID = .zero 16 then perform Op.newV7 else pure m.commandID
  pure { m with
    commandID := commandID
    correlationID := if m.correlationID = .zero 16 then commandID else m.correlationID }

/-- `HandleAt`: handle a command at an asserted version, 0 for none. The command is returned with the
result, as stamped. -/
def handleAt (sid : StreamID) (cmd : C) (m : Meta) (expected : UInt64) (ho : HandleOptions) :
    Act HandleError (C × Result S E) := do
  let now ← perform Op.timeNow
  let cmd ← ofResult (R.stampCommand now cmd)
  let m ← fillMeta m
  let res ← ExceptT.mk (attempts (R.handleOnce sid cmd m now expected ho) 0 R.retries)
  pure (cmd, res)

/-- `Handle`. -/
def handle (sid : StreamID) (cmd : C) (m : Meta) (ho : HandleOptions) :
    Act HandleError (C × Result S E) :=
  R.handleAt sid cmd m 0 ho

end Runtime

/-! ## The system -/

/-- The store and the snapshot cache. -/
structure World where
  db : Sqlite.Db
  snapshots : Bytes → Option Snapshot

/-- What the environment decides about a call: the readings of the clock, fresh ids, an error of the
database or of the cache, and the error of the call's context. -/
structure Choice where
  now : Time
  fresh : UUID
  inputs : Sqlite.AppendInputs
  fault : Option Bytes
  ctx : Option Foreign

/-- The effect of a call on the store and the cache. An append is one transaction: it takes effect
and returns its result, or returns an error and has no effect. -/
def exec (T : GoText) (maxPayloadBytes : Int) :
    (o : Op) → Choice → World → Option (World × Res o)
  | .timeNow, ch, w => some (w, ch.now)
  | .newV7, ch, w => some (w, ch.fresh)
  | .readStream sid fromVersion toVersion, ch, w =>
    some (w, match ch.fault with
      | some text => .error (.backend text)
      | none => Sqlite.readStream T w.db.events sid fromVersion toVersion)
  | .readStreamAsOf sid asOf, ch, w =>
    some (w, match ch.fault with
      | some text => .error (.backend text)
      | none => Sqlite.readStreamAsOf T w.db.events sid asOf)
  | .append p, ch, w =>
    match ch.fault with
    | some text => some (w, .error (.backend text))
    | none =>
      match Sqlite.append T maxPayloadBytes ch.inputs p w.db with
      | .error err => some (w, .error err)
      | .ok (db, res) => some ({ w with db := db }, .ok res)
  -- no call of this system brings its own append
  | .appendFunc _, _, _ => none
  | .loadSnapshot streamID, ch, w =>
    some (w, match ch.fault with
      | some text => .error ⟨text, [], false⟩
      | none => .ok (w.snapshots streamID))
  | .saveSnapshot streamID snap, ch, w =>
    match ch.fault with
    | some text => some (w, some ⟨text, [], false⟩)
    | none => some ({ w with snapshots := Function.update w.snapshots streamID (some snap) }, none)
  | .sleep _, ch, w => some (w, ch.ctx)

/-- A call of `Handle` or `HandleAt` on one of the runtimes. -/
structure Call (ι C : Type) where
  runtime : ι
  sid : StreamID
  cmd : C
  info : Meta
  /-- The version that a `HandleAt` asserts; `none` for a `Handle`. -/
  expected : Option UInt64

/-- Runtimes over one store: any number of their calls, interleaved. -/
def runtimes {ι : Type} (R : ι → Runtime S C E) (T : GoText) (maxPayloadBytes : Int) :
    System World (Call ι C) Op Res (Except HandleError (C × Result S E)) Choice Empty where
  prog c :=
    match c.expected with
    | none => (R c.runtime).handle c.sid c.cmd c.info {}
    | some v => (R c.runtime).handleAt c.sid c.cmd c.info v {}
  exec := exec T maxPayloadBytes
  env := nofun

end Aggregate

end EsLite
