import EsLite.Feed.Ops

/-!
# The feed server

The methods of the server as programs over the atomic calls of `EsLite.Feed.Ops`: what each call
checks, in which order it talks to the stores, and how it ends. Loops that the source bounds only by
a context carry a fuel; a run that spends it stands for a stream that never gets further, and every
result is for all fuels.

The observer's signals and the stall probe have no effect on the shared state; `EsLite.Feed.Stall` adds
them. The timing of waits is left out. The renewer of a stream is a program of its own.
-/

namespace EsLite.Feed

/-! ## Errors -/

/-- A part of a subscription key. -/
inductive KeyPart where
  | scope
  | projection
  | instanceName
deriving DecidableEq

/-- What an `ErrInvalidRequest` says. -/
inductive Invalid where
  | required (part : KeyPart)
  | controlByte (part : KeyPart)
  | definitionNameRequired
  | nameMismatch (projection name : Bytes)
  | consumesRequired
deriving DecidableEq

/-- Which call of the server an error of a port is wrapped by. -/
inductive Stage where
  | acquireLease
  | renewLease
  | releaseLease
  | holder
  | openLog
  | loadCheckpoint
  | head
  | rawHead
  | read
  | saveCheckpoint
  | resetCheckpoint
  | skipCheckpoint
  | deleteCheckpoint
  | recordDeadLetter
  | context
  | handler
deriving DecidableEq

/-- The errors of the server's methods. -/
inductive FeedError where
  | invalid (why : Invalid)
  | leaseHeld (key : Key) (lease : Option Lease)
  | leaseLost (key : Key) (owner : Bytes)
  | definitionChanged (projection stored request : Bytes)
  | eventTooLarge (position : Nat) (typeURL : Bytes) (size limit : Nat)
  | port (stage : Stage)
  /-- An error of the sink, with the position of the event it refused. -/
  | send (position : Nat) (cause : FeedError)
  /-- A second error joined to the first. -/
  | joined (first second : FeedError)
  | outOfFuel
deriving DecidableEq

/-- A method of the server: it makes atomic calls and ends in a value or an error. -/
abbrev Server (α : Type) := ExceptT FeedError (Prog Op Res) α

/-- Wrap the error of a port. -/
def wrap {α : Type} (stage : Stage) : Except Failure α → Except FeedError α
  | .ok a => .ok a
  | .error _ => .error (.port stage)

/-- Make a port call, and wrap its error. -/
def port {α : Type} (stage : Stage) (call : Prog Op Res (Except Failure α)) : Server α :=
  ExceptT.mk (call >>= fun r => pure (wrap stage r))

/-- Make a call that cannot fail. -/
def perform (o : Op) : Server (Res o) := ExceptT.lift (Prog.op o)

section Issues

variable {O : Op → Prop} {α : Type}

theorem port_issues {stage : Stage} {p : Prog Op Res (Except Failure α)} (h : Prog.Issues O p) :
    Prog.Issues O (port stage p).run :=
  h.bind (fun _ => trivial)

theorem perform_issues {o : Op} (h : O o) : Prog.Issues O (perform o).run :=
  Prog.Issues.bind (.op h) (fun _ => trivial)

end Issues

/-! ## Requests and their validation -/

/-- A subscription request. -/
structure Request where
  key : Key
  consumer : Bytes
  owner : Bytes
  definition : Definition
  batchSize : Int

/-- An acknowledgement. -/
structure Ack where
  key : Key
  owner : Bytes
  position : Nat
  definition : Bytes

/-- A deliberate skip. -/
structure SkipRequest where
  key : Key
  position : Nat
  actor : Bytes
  reason : Bytes
  force : Bool

/-- The resolved configuration: `NewServer` has filled the defaults. -/
structure Config where
  batch : Int
  maxBatch : Int
  maxPayloadBytes : Int
  maxBatchBytes : Nat
  leaseTTL : Int
  /-- Whether a dead-letter store is configured. -/
  deadLetters : Bool

/-- What `NewServer` fills in when nothing but the stores is given, a dead-letter store among them. -/
def defaultConfig : Config := ⟨500, 1000, 8 * 2 ^ 20, 16 * 2 ^ 20, 30000000000, true⟩

/-- An ASCII control byte: a C0 control or DEL. -/
def containsControl (s : Bytes) : Bool := s.any (fun c => c < 0x20 || c == 0x7f)

/-- Scope and projection are required, and no part may hold a control byte. -/
def validateKey (k : Key) : Option Invalid :=
  if k.scope = [] then some (.required .scope)
  else if k.projection = [] then some (.required .projection)
  else if containsControl k.scope then some (.controlByte .scope)
  else if containsControl k.projection then some (.controlByte .projection)
  else if containsControl k.instanceName then some (.controlByte .instanceName)
  else none

/-- The definition must be named like the projection and consume something. -/
def validateDefinition (req : Request) : Option Invalid :=
  if req.definition.name = [] then some .definitionNameRequired
  else if req.definition.name ≠ req.key.projection then
    some (.nameMismatch req.key.projection req.definition.name)
  else if req.definition.consumes = [] then some .consumesRequired
  else none

/-- Refuse an invalid request. -/
def require (problem : Option Invalid) : Server Unit :=
  match problem with
  | none => pure ()
  | some why => throw (.invalid why)

/-- The default instance of a projection: a key that passes. -/
def ordersKey : Key := ⟨str "acme", str "orders", []⟩

variable {O : Op → Prop} {req : Request} {cfg : Config}

theorem require_issues {problem : Option Invalid} : Prog.Issues O (require problem).run := by
  cases problem <;> exact trivial

/-- `batchSize` resolves a request's page size against the configuration. -/
def batchSize (cfg : Config) (requested : Int) : Nat :=
  let requested := if requested ≤ 0 then cfg.batch else requested
  let requested := if requested > cfg.maxBatch then cfg.maxBatch else requested
  (if requested < 1 then 1 else requested).toNat

/-! ## Acknowledgement and administration -/

/-- Record an acknowledged position: the holder check, then the save. -/
def checkpoint (ack : Ack) : Server Unit := do
  require (validateKey ack.key)
  match ← port .holder (Prog.op (Op.holder ack.key)) with
  | none => throw (.leaseLost ack.key ack.owner)
  | some lease =>
    if lease.owner ≠ ack.owner then throw (.leaseHeld ack.key (some lease))
    else port .saveCheckpoint (Prog.op (Op.save ack.key ack.definition ack.position))

/-- What is left of an acknowledgement once the holder check has replied. -/
def checkpointAfter (ack : Ack) :
    Except Failure (Option Lease) → Prog Op Res (Except FeedError Unit)
  | .error _ => .ret (.error (.port .holder))
  | .ok none => .ret (.error (.leaseLost ack.key ack.owner))
  | .ok (some lease) =>
    if lease.owner ≠ ack.owner then .ret (.error (.leaseHeld ack.key (some lease)))
    else .call (.save ack.key ack.definition ack.position)
      (fun r => .ret (wrap .saveCheckpoint r))

/-- An acknowledgement, call by call. -/
theorem checkpoint_run (ack : Ack) :
    (checkpoint ack).run = match validateKey ack.key with
      | some why => .ret (.error (.invalid why))
      | none => .call (.holder ack.key) (checkpointAfter ack) := by
  cases hv : validateKey ack.key with
  | some why =>
    simp only [checkpoint, hv]
    rfl
  | none =>
    simp only [checkpoint, hv]
    refine congrArg (Prog.call (Op.holder ack.key)) (funext fun r => ?_)
    match r with
    | .error _ => rfl
    | .ok none => rfl
    | .ok (some lease) =>
      by_cases ho : lease.owner ≠ ack.owner
      · simp only [checkpointAfter, if_pos ho]
        exact congrArg ExceptT.run (if_pos ho)
      · simp only [checkpointAfter, if_neg ho]
        exact congrArg ExceptT.run (if_neg ho)

/-- Refuse while the key has a live holder. -/
def refuseIfHeld (k : Key) : Server Unit := do
  match ← port .holder (Prog.op (Op.holder k)) with
  | none => pure ()
  | some lease => throw (.leaseHeld k (some lease))

/-- The lease check of a call that may be forced. -/
def refuseUnlessForced (force : Bool) (k : Key) : Server Unit :=
  if force then pure () else refuseIfHeld k

/-- Move a checkpoint to a position and re-identify it under the request's definition. -/
def resetCheckpoint (req : Request) (position : Nat) (force : Bool) : Server Unit := do
  require (validateKey req.key)
  require (validateDefinition req)
  refuseUnlessForced force req.key
  port .resetCheckpoint (Prog.op (Op.reset req.key req.definition.hash position))

/-- The audit row of a skip. -/
def SkipRequest.deadLetter (sr : SkipRequest) (createdAt : Int) : DeadLetter :=
  ⟨sr.key, sr.position, [], 0, sr.reason, sr.actor, createdAt⟩

/-- Record the audit row of a skip, when a dead-letter store is configured. -/
def recordSkip (cfg : Config) (sr : SkipRequest) : Server Unit :=
  if cfg.deadLetters then do
    let now ← perform .clock
    port .recordDeadLetter (Prog.op (Op.record (sr.deadLetter now)))
  else pure ()

/-- Move a checkpoint past a position under its stored fingerprint, with the audit row first. -/
def skip (cfg : Config) (sr : SkipRequest) : Server Unit := do
  require (validateKey sr.key)
  refuseUnlessForced sr.force sr.key
  let cp ← port .loadCheckpoint (Prog.op (Op.checkpoint sr.key))
  recordSkip cfg sr
  -- an absent row carries the empty fingerprint
  let definition := (cp.map (·.definitionHash)).getD []
  port .skipCheckpoint (Prog.op (Op.reset sr.key definition sr.position))

/-- Remove a checkpoint. -/
def deleteSubscription (k : Key) : Server Unit := do
  require (validateKey k)
  refuseIfHeld k
  port .deleteCheckpoint (Prog.op (Op.delete k))

/-! ### What these methods call -/

section Issues

variable {O : Op → Prop} {cfg : Config} {k : Key}

theorem checkpoint_issues {ack : Ack} (hh : O (.holder ack.key))
    (hs : O (.save ack.key ack.definition ack.position)) : Prog.Issues O (checkpoint ack).run := by
  apply Prog.Issues.bindExcept require_issues
  intro _
  apply Prog.Issues.bindExcept (port_issues (.op hh))
  intro lease
  cases lease with
  | none => exact trivial
  | some l =>
    by_cases ho : l.owner ≠ ack.owner
    · simp only [if_pos ho]
      exact trivial
    · simp only [if_neg ho]
      exact port_issues (.op hs)

theorem refuseIfHeld_issues (h : O (.holder k)) : Prog.Issues O (refuseIfHeld k).run := by
  apply Prog.Issues.bindExcept (port_issues (.op h))
  intro lease
  cases lease <;> exact trivial

theorem refuseUnlessForced_issues (h : O (.holder k)) (force : Bool) :
    Prog.Issues O (refuseUnlessForced force k).run := by
  cases force with
  | false => exact refuseIfHeld_issues h
  | true => exact trivial

theorem resetCheckpoint_issues {position : Nat} {force : Bool} (hh : O (.holder req.key))
    (hr : O (.reset req.key req.definition.hash position)) :
    Prog.Issues O (resetCheckpoint req position force).run := by
  apply Prog.Issues.bindExcept require_issues
  intro _
  apply Prog.Issues.bindExcept require_issues
  intro _
  apply Prog.Issues.bindExcept (refuseUnlessForced_issues hh force)
  intro _
  exact port_issues (.op hr)

theorem recordSkip_issues {sr : SkipRequest} (hn : O .clock)
    (hd : ∀ now, O (.record (sr.deadLetter now))) : Prog.Issues O (recordSkip cfg sr).run := by
  unfold recordSkip
  split
  · apply Prog.Issues.bindExcept (perform_issues hn)
    intro now
    exact port_issues (.op (hd now))
  · exact trivial

theorem skip_issues {sr : SkipRequest} (hh : O (.holder sr.key)) (hc : O (.checkpoint sr.key))
    (hn : O .clock) (hd : ∀ now, O (.record (sr.deadLetter now)))
    (hr : ∀ d, O (.reset sr.key d sr.position)) : Prog.Issues O (skip cfg sr).run := by
  apply Prog.Issues.bindExcept require_issues
  intro _
  apply Prog.Issues.bindExcept (refuseUnlessForced_issues hh sr.force)
  intro _
  apply Prog.Issues.bindExcept (port_issues (.op hc))
  intro cp
  apply Prog.Issues.bindExcept (recordSkip_issues hn hd)
  intro _
  exact port_issues (.op (hr _))

theorem deleteSubscription_issues (hh : O (.holder k)) (hd : O (.delete k)) :
    Prog.Issues O (deleteSubscription k).run := by
  apply Prog.Issues.bindExcept require_issues
  intro _
  apply Prog.Issues.bindExcept (refuseIfHeld_issues hh)
  intro _
  exact port_issues (.op hd)

end Issues

/-! ## Subscribing -/

/-- The consumer's side of a stream: what it does with one event. -/
abbrev Sink := Event → Server Unit

/-- The resume clamp. A checkpoint above the settled head waits while the raw head shows that its
position is still in the log, and falls back to the head otherwise. -/
def clamp (scope : Bytes) (pos : Nat) : (fuel head : Nat) → Server Nat
  | 0, _ => throw .outOfFuel
  | n + 1, head => do
    if pos ≤ head then return pos
    let raw ← port .rawHead (Prog.op (Op.rawHead scope))
    if raw < pos then return head
    port .context (Prog.op Op.pause)
    let head ← port .head (Prog.op (Op.head scope))
    clamp scope pos n head

/-- Send one page, and return the position reached. -/
def sendPage (cfg : Config) (sink : Sink) : Nat → List Event → Server Nat
  | pos, [] => pure pos
  | _, e :: es => do
    -- the server's own backstop against a row over the payload limit
    if 0 < cfg.maxPayloadBytes ∧ cfg.maxPayloadBytes < e.payload.length then
      throw (.eventTooLarge e.globalPosition e.typeURL e.payload.length cfg.maxPayloadBytes.toNat)
    tryCatch (sink e) (fun err => throw (.send e.globalPosition err))
    sendPage cfg sink e.globalPosition es

/-- Read one page. -/
def readPage (cfg : Config) (req : Request) (batch pos : Nat) : Server (List Event × Bool) := do
  match ← perform (.readAllBounded req.key.scope pos batch cfg.maxBatchBytes
      req.definition.consumes) with
  | .ok page => pure page
  | .error (.tooLarge position typeURL size limit) =>
    throw (.eventTooLarge position typeURL size limit)
  | .error .failed => throw (.port .read)

/-- The read and send loop. -/
def readLoop (cfg : Config) (req : Request) (sink : Sink) (batch : Nat) :
    (fuel pos : Nat) → Server Unit
  | 0, _ => throw .outOfFuel
  | n + 1, pos => do
    port .context (Prog.op Op.pause)
    let (page, truncated) ← readPage cfg req batch pos
    let pos ← sendPage cfg sink pos page
    -- a short page waits; a full or a budget-cut one reads on at once
    if page ≠ [] ∧ (truncated ∨ batch ≤ page.length) then
      readLoop cfg req sink batch n pos
    else
      port .context (Prog.op Op.pause)
      readLoop cfg req sink batch n pos

/-- The stream: load the checkpoint, refuse a drifted definition, clamp, then read and send. -/
def stream (cfg : Config) (req : Request) (sink : Sink) (session fuel : Nat) : Server Unit := do
  port .openLog (Prog.op (Op.openLog req.key.scope))
  let cp ← port .loadCheckpoint (Prog.op (Op.checkpoint req.key))
  let stored := (cp.map (·.position)).getD 0
  let definition := (cp.map (·.definitionHash)).getD []
  if definition ≠ [] ∧ definition ≠ req.definition.hash then
    throw (.definitionChanged req.definition.name definition req.definition.hash)
  let head ← port .head (Prog.op (Op.head req.key.scope))
  let pos ← clamp req.key.scope stored fuel head
  let _ ← perform (.begin ⟨session, req.key, req.definition, stored, pos⟩)
  readLoop cfg req sink (batchSize cfg req.batchSize) fuel pos

theorem clamp_issues {scope : Bytes} {pos : Nat} (hraw : O (.rawHead scope)) (hp : O .pause)
    (hh : O (.head scope)) (fuel head : Nat) : Prog.Issues O (clamp scope pos fuel head).run := by
  induction fuel generalizing head with
  | zero => exact trivial
  | succ n ih =>
    simp only [clamp]
    split
    · exact trivial
    refine .bindExcept (port_issues (.op hraw)) (fun raw => ?_)
    split
    · exact trivial
    refine .bindExcept (port_issues (.op hp)) (fun _ => ?_)
    exact .bindExcept (port_issues (.op hh)) (fun head => ih head)

theorem sendPage_issues {sink : Sink} (hs : ∀ e, Prog.Issues O (sink e).run) (pos : Nat)
    (page : List Event) : Prog.Issues O (sendPage cfg sink pos page).run := by
  induction page generalizing pos with
  | nil => exact trivial
  | cons e es ih =>
    have htail : Prog.Issues O (do
        tryCatch (sink e) (fun err => throw (.send e.globalPosition err))
        sendPage cfg sink e.globalPosition es : Server Nat).run := by
      refine .bindExcept (Prog.Issues.bind (hs e) fun r => ?_) fun _ => ih _
      cases r <;> exact trivial
    by_cases hbig : 0 < cfg.maxPayloadBytes ∧ cfg.maxPayloadBytes < e.payload.length
    · simp only [sendPage, if_pos hbig]
      exact trivial
    · simp only [sendPage, if_neg hbig]
      exact htail

theorem readPage_issues {batch pos : Nat}
    (hr : O (.readAllBounded req.key.scope pos batch cfg.maxBatchBytes req.definition.consumes)) :
    Prog.Issues O (readPage cfg req batch pos).run := by
  refine .bindExcept (perform_issues hr) fun reply => ?_
  match reply with
  | .ok _ => exact trivial
  | .error .failed => exact trivial
  | .error (.tooLarge ..) => exact trivial

theorem readLoop_issues {sink : Sink} {batch : Nat} (hp : O .pause)
    (hr : ∀ pos, O (.readAllBounded req.key.scope pos batch cfg.maxBatchBytes
      req.definition.consumes)) (hs : ∀ e, Prog.Issues O (sink e).run) (fuel pos : Nat) :
    Prog.Issues O (readLoop cfg req sink batch fuel pos).run := by
  have hpause : Prog.Issues O (port .context (Prog.op Op.pause)).run :=
    port_issues (.op hp)
  induction fuel generalizing pos with
  | zero => exact trivial
  | succ n ih =>
    refine .bindExcept hpause fun _ => ?_
    refine .bindExcept (readPage_issues (hr pos)) fun ⟨page, truncated⟩ => ?_
    refine .bindExcept (sendPage_issues hs pos page) fun pos' => ?_
    by_cases hfull : page ≠ [] ∧ (truncated = true ∨ batch ≤ page.length)
    · simp only [if_pos hfull]
      exact ih pos'
    · simp only [if_neg hfull]
      exact .bindExcept hpause fun _ => ih pos'

/-- Release the lease after a stream ended in `result`. -/
def releaseAfter (k : Key) (owner : Bytes) (result : Except FeedError Unit) : Server Unit := do
  match ← perform (.release k owner), result with
  | .ok _, .ok _ => pure ()
  | .ok _, .error err => throw err
  | .error _, .ok _ => throw (.port .releaseLease)
  | .error _, .error err => throw (.joined err (.port .releaseLease))

/-- The lease owner of a stream: the caller's token, or a minted one. -/
def leaseOwner (req : Request) : Server Bytes :=
  match req.owner with
  | [] => perform Op.newOwner
  | owner => pure owner

theorem releaseAfter_issues {k : Key} {owner : Bytes} (h : O (.release k owner))
    (result : Except FeedError Unit) : Prog.Issues O (releaseAfter k owner result).run := by
  refine .bindExcept (perform_issues h) (fun reply => ?_)
  rcases reply with _ | _ <;> rcases result with _ | _ <;> exact trivial

theorem leaseOwner_issues (h : O .newOwner) (req : Request) : Prog.Issues O (leaseOwner req).run := by
  unfold leaseOwner
  cases req.owner with
  | nil => exact perform_issues h
  | cons b owner => exact trivial

/-- Subscribe: acquire the lease, stream, and release it in every case. -/
def subscribe (cfg : Config) (req : Request) (sink : Sink) (session fuel : Nat) : Server Unit := do
  require (validateKey req.key)
  require (validateDefinition req)
  let owner ← leaseOwner req
  match ← perform (.acquire req.key owner req.consumer cfg.leaseTTL) with
  | (true, some _) => releaseAfter req.key owner (.error (.port .acquireLease))
  | (false, some _) => throw (.port .acquireLease)
  | (false, none) =>
    let lease ← port .acquireLease (Prog.op (Op.holder req.key))
    throw (.leaseHeld req.key lease)
  | (true, none) =>
    let result ← ExceptT.lift (stream cfg req sink session fuel).run
    releaseAfter req.key owner result

/-- The renewer of a stream: it extends the lease on every tick until a renewal fails. -/
def renewLoop (cfg : Config) (k : Key) (owner : Bytes) : (fuel : Nat) → Server Unit
  | 0 => throw .outOfFuel
  | n + 1 => do
    port .context (Prog.op Op.pause)
    match ← perform (.renew k owner cfg.leaseTTL) with
    | .ok true => renewLoop cfg k owner n
    | _ => throw (.leaseLost k owner)

theorem renewLoop_issues {k : Key} {owner : Bytes} (hp : O .pause) (hr : O (.renew k owner cfg.leaseTTL))
    (fuel : Nat) : Prog.Issues O (renewLoop cfg k owner fuel).run := by
  induction fuel with
  | zero => exact trivial
  | succ n ih =>
    refine .bindExcept (port_issues (.op hp)) fun _ => ?_
    refine .bindExcept (perform_issues hr) fun reply => ?_
    match reply with
    | .ok true => exact ih
    | .ok false => exact trivial
    | .error _ => exact trivial

/-- Any number of programs over the feed's shared state. -/
def feedSystem {κ : Type} (A : Adapter) (ever : Log) (method : κ → Server Unit) :
    System State κ Op Res (Except FeedError Unit) Choice EnvStep where
  prog c := (method c).run
  exec := exec A ever
  env := envStep ever

end EsLite.Feed
