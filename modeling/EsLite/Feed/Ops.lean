import EsLite.Feed.Stores
import EsLite.Foundation.Interleaving
import EsLite.Projection.Definition

/-!
# The feed's shared state and its atomic calls

The feed server, its consumers and its operators share the store tables, the log and, within one
subscription attempt, a small ack window under a mutex. `Op` lists the calls they make on these, one
constructor for each port method and each critical section, and `exec` says what one of them does.

Every port call may fail, before its effect or after it. What the model leaves open (the heads a log
reports, the page it returns, whether a handler or a wait ends in an error) is resolved by a `Choice`.
The log is described by `ever`, the events that ever commit: a page returned from a position holds
every matching event up to its last one that ever commits, which is the contract of the settled reads.
-/

namespace EsLite.Feed

/-! ## Events and pages -/

/-- What the feed reads of an envelope. -/
structure Event where
  globalPosition : Nat
  typeURL : Bytes
  payload : Bytes
deriving DecidableEq

/-- The events of each scope by position. -/
structure Log where
  event : Bytes → Nat → Option Event
  /-- An event is stored at its own position. -/
  position : ∀ scope p e, event scope p = some e → e.globalPosition = p

/-- A log without events. -/
def Log.empty : Log := ⟨fun _ _ => none, fun _ _ _ h => nomatch h⟩

/-- Store an event at its position. -/
def Log.add (log : Log) (scope : Bytes) (e : Event) : Log where
  event := Function.update log.event scope
    (Function.update (log.event scope) e.globalPosition (some e))
  position := by
    intro scope' p e' h
    by_cases hs : scope' = scope
    · subst hs
      rw [Function.update_self] at h
      by_cases hp : p = e.globalPosition
      · subst hp
        rw [Function.update_self] at h
        rw [Option.some.inj h]
      · rw [Function.update_of_ne hp] at h
        exact log.position _ _ _ h
    · rw [Function.update_of_ne hs] at h
      exact log.position _ _ _ h

/-- The events of some types at the positions `1` to `last`. -/
def Log.matching (log : Log) (scope : Bytes) (types : List Bytes) (last : Nat) : List Event :=
  ((List.range' 1 last).filterMap (log.event scope)).filter (fun e => e.typeURL ∈ types)

theorem Log.mem_matching {log : Log} {scope : Bytes} {types : List Bytes} {last : Nat} {e : Event} :
    e ∈ log.matching scope types last ↔
      log.event scope e.globalPosition = some e ∧ e.typeURL ∈ types ∧
        0 < e.globalPosition ∧ e.globalPosition ≤ last := by
  simp only [matching, List.mem_filter, List.mem_filterMap, List.mem_range', decide_eq_true_eq]
  constructor
  · rintro ⟨⟨p, ⟨i, hi, rfl⟩, hp⟩, ht⟩
    have hpos := log.position _ _ _ hp
    rw [hpos]
    exact ⟨hp, ht, by omega, by omega⟩
  · rintro ⟨he, ht, h0, hl⟩
    exact ⟨⟨e.globalPosition, ⟨e.globalPosition - 1, by omega, by omega⟩, he⟩, ht⟩

/-- A page a log may return from `pos`: committed events of the requested types in position order,
among them every one that ever commits between `pos` and the last. -/
structure ValidPage (ever committed : Log) (scope : Bytes) (pos limit : Nat) (types : List Bytes)
    (page : List Event) : Prop where
  /-- The page is in position order. -/
  sorted : page.Pairwise (fun a b => a.globalPosition < b.globalPosition)
  /-- Its events lie above the cursor. -/
  above : ∀ e ∈ page, pos < e.globalPosition
  /-- Its events are committed and of the requested types. -/
  committed : ∀ e ∈ page, committed.event scope e.globalPosition = some e ∧ e.typeURL ∈ types
  /-- Nothing that ever commits below its last event is missing. -/
  complete : ∀ last ∈ page, ∀ e ∈ ever.matching scope types last.globalPosition,
    pos < e.globalPosition → e ∈ page
  /-- It respects the limit. -/
  limit : page.length ≤ limit

instance (ever committed : Log) (scope : Bytes) (pos limit : Nat) (types : List Bytes)
    (page : List Event) : Decidable (ValidPage ever committed scope pos limit types page) :=
  decidable_of_iff (page.Pairwise (fun a b => a.globalPosition < b.globalPosition) ∧
      (∀ e ∈ page, pos < e.globalPosition) ∧
      (∀ e ∈ page, committed.event scope e.globalPosition = some e ∧ e.typeURL ∈ types) ∧
      (∀ last ∈ page, ∀ e ∈ ever.matching scope types last.globalPosition,
        pos < e.globalPosition → e ∈ page) ∧ page.length ≤ limit)
    ⟨fun ⟨h₁, h₂, h₃, h₄, h₅⟩ => ⟨h₁, h₂, h₃, h₄, h₅⟩,
      fun ⟨h₁, h₂, h₃, h₄, h₅⟩ => ⟨h₁, h₂, h₃, h₄, h₅⟩⟩

/-! ## The shared state -/

/-- The ack window of one subscription attempt. -/
structure Window where
  /-- The highest handled position. -/
  pending : Nat
  /-- The events handled since the last ack. -/
  count : Nat
deriving DecidableEq

/-- A stream that passed the definition check and started. -/
structure Start where
  session : Nat
  key : Key
  definition : Definition
  /-- The stored position it loaded, `0` without a row. -/
  stored : Nat
  /-- The position it reads from, after the clamp to the head. -/
  position : Nat
deriving DecidableEq

/-- An event some consumer handled successfully, and the fingerprint it ran under. -/
structure Handled where
  session : Nat
  key : Key
  definitionHash : Bytes
  position : Nat
deriving DecidableEq

/-- A position written by an operator's reset. -/
structure ResetMark where
  key : Key
  definitionHash : Bytes
  position : Nat
deriving DecidableEq

/-- The shared state. The last three fields are history: the programs append to them and never read
them. -/
structure State where
  now : Int
  tables : Tables
  log : Log
  window : Nat → Window
  starts : List Start
  handled : List Handled
  resets : List ResetMark

/-- The state in which nothing has happened yet. -/
def State.start (now : Int) (log : Log) : State :=
  ⟨now, .empty, log, fun _ => ⟨0, 0⟩, [], [], []⟩

/-! ## Calls and replies -/

/-- An error of a port: the store, the log, the handler or the context. -/
inductive Failure where
  | failed
deriving DecidableEq

/-- Why a page read failed. -/
inductive ReadError where
  | failed
  /-- The first row of the page is larger than the store's cap. -/
  | tooLarge (position : Nat) (typeURL : Bytes) (size limit : Nat)
deriving DecidableEq

/-- Which case of the `select` of an attempt's ack clock fires. -/
inductive Wake where
  | ctxDone
  | tick
  | runCtxDone
deriving DecidableEq

/-- The atomic calls. -/
inductive Op where
  | acquire (k : Key) (owner consumer : Bytes) (ttl : Int)
  | renew (k : Key) (owner : Bytes) (ttl : Int)
  | release (k : Key) (owner : Bytes)
  | holder (k : Key)
  | save (k : Key) (definition : Bytes) (position : Nat)
  | reset (k : Key) (definition : Bytes) (position : Nat)
  | delete (k : Key)
  | checkpoint (k : Key)
  | record (dl : DeadLetter)
  | clock
  | newOwner
  | openLog (scope : Bytes)
  | head (scope : Bytes)
  | rawHead (scope : Bytes)
  | readAllBounded (scope : Bytes) (pos limit maxBytes : Nat) (types : List Bytes)
  /-- `ctx.Err`, `Server.wait`, `Server.idleWait` and the sleep of a sink. -/
  | pause
  /-- The `select` of `attempt.loop`. -/
  | select
  /-- A stream starts; recorded, nothing else. -/
  | begin (st : Start)
  /-- The consumer's handler is called with an event. -/
  | handle (session : Nat) (k : Key) (definition : Bytes) (e : Event)
  /-- The critical section of `attempt.Send`. -/
  | account (session position batch : Nat)
  /-- The critical section of `attempt.ack`. -/
  | claim (session : Nat)
deriving DecidableEq

/-- What each call returns. -/
def Res : Op → Type
  | .acquire .. => Bool × Option Failure
  | .renew .. => Except Failure Bool
  | .holder _ => Except Failure (Option Lease)
  | .checkpoint _ => Except Failure (Option Checkpoint)
  | .clock => Int
  | .newOwner => Bytes
  | .head _ => Except Failure Nat
  | .rawHead _ => Except Failure Nat
  | .readAllBounded .. => Except ReadError (List Event × Bool)
  | .select => Wake
  | .begin _ => Unit
  | .account .. => Bool
  | .claim _ => Option Nat
  | _ => Except Failure Unit

/-- Whether a port call fails, and whether it had its effect then. -/
inductive Fault where
  | none
  | before
  | after
deriving DecidableEq

/-- What the model leaves open in a call. -/
structure Choice where
  fault : Fault := .none
  /-- The head a log reports. -/
  number : Nat := 0
  /-- The page a log returns, and whether the byte budget cut it. -/
  page : List Event := []
  truncated : Bool := false
  /-- The poison row a log reports in place of a page. -/
  poison : Option ReadError := .none
  /-- An owner the server mints. -/
  owner : Bytes := []
  /-- The case of a `select`. -/
  wake : Wake := .tick

/-- The outcome of a port call that takes `s` to `s'` and returns `a` when nothing fails. -/
def answer {α : Type} (c : Choice) (s s' : State) (a : α) : State × Except Failure α :=
  match c.fault with
  | .none => (s', .ok a)
  | .before => (s, .error .failed)
  | .after => (s', .error .failed)

/-- Whatever fails, the state after a port call is the one before it or the one after its effect. -/
theorem answer_state {α : Type} (c : Choice) (s s' : State) (a : α) :
    (answer c s s' a).1 = s ∨ (answer c s s' a).1 = s' := by
  unfold answer
  cases c.fault
  · exact .inr rfl
  · exact .inl rfl
  · exact .inr rfl

/-- A port call that succeeds had its effect. -/
theorem answer_eq_ok {α : Type} {c : Choice} {s s' t : State} {a b : α}
    (h : answer c s s' a = (t, .ok b)) : t = s' ∧ b = a := by
  unfold answer at h
  cases hf : c.fault <;> rw [hf] at h <;> cases h
  exact ⟨rfl, rfl⟩

/-- The critical section of `attempt.Send`: account the position, and say whether the window is
full. -/
def State.account (s : State) (i position batch : Nat) : State × Bool :=
  let w : Window := ⟨position, (s.window i).count + 1⟩
  ({ s with window := Function.update s.window i w }, batch ≤ w.count)

/-- The critical section of `attempt.ack`: claim the window. -/
def State.claim (s : State) (i : Nat) : State × Option Nat :=
  let w := s.window i
  if w.count = 0 then (s, none)
  else ({ s with window := Function.update s.window i ⟨w.pending, 0⟩ }, some w.pending)

/-- A claim finds the window empty, or takes its pending position and leaves it pending. -/
theorem State.claim_cases (s : State) (i : Nat) :
    s.claim i = (s, none) ∨
      s.claim i = ({ s with window := Function.update s.window i ⟨(s.window i).pending, 0⟩ },
        some (s.window i).pending) := by
  by_cases h : (s.window i).count = 0
  · exact .inl (if_pos h)
  · exact .inr (if_neg h)

/-- Name the skipped event from the log the store shares a database with. -/
def State.nameDeadLetter (s : State) (dl : DeadLetter) : DeadLetter :=
  if dl.typeURL = [] then
    match s.log.event dl.key.scope dl.position with
    | none => { dl with typeURL := [], sizeBytes := 0 }
    | some e => { dl with typeURL := e.typeURL, sizeBytes := e.payload.length }
  else dl

/-- Put new tables into the state. -/
def State.withTables (s : State) (t : Tables) : State := { s with tables := t }

/-- The effect and the reply of a call; `none` when the choice is not one the call allows. -/
def exec (A : Adapter) (ever : Log) : (o : Op) → Choice → State → Option (State × Res o)
  | .acquire k owner consumer ttl, c, s =>
    let r := s.tables.acquire A s.now k owner consumer ttl
    match c.fault with
    | .none => some (s.withTables r.1, (r.2, none))
    | .before => some (s, (false, some .failed))
    -- a store may report an error after it took the lease
    | .after => some (s.withTables r.1, (r.2, some .failed))
  | .renew k owner ttl, c, s =>
    let r := s.tables.renew A s.now k owner ttl
    some (answer c s (s.withTables r.1) r.2)
  | .release k owner, c, s => some (answer c s (s.withTables (s.tables.release A k owner)) ())
  | .holder k, c, s => some (answer c s s (s.tables.holder A s.now k))
  | .save k definition position, c, s =>
    some (answer c s (s.withTables (s.tables.save s.now k definition position)) ())
  | .reset k definition position, c, s =>
    let s' := s.withTables (s.tables.reset s.now k definition position)
    some (answer c s { s' with resets := ⟨k, definition, position⟩ :: s.resets } ())
  | .delete k, c, s => some (answer c s (s.withTables (s.tables.delete k)) ())
  | .checkpoint k, c, s => some (answer c s s (s.tables.checkpoints k))
  | .record dl, c, s =>
    some (answer c s (s.withTables (s.tables.record (s.nameDeadLetter dl))) ())
  | .clock, _, s => some (s, s.now)
  | .newOwner, c, s => some (s, c.owner)
  | .openLog _, c, s => some (answer c s s ())
  | .head _, c, s => some (answer c s s c.number)
  | .rawHead _, c, s => some (answer c s s c.number)
  | .readAllBounded scope pos limit _ types, c, s =>
    match c.fault, c.poison with
    | .none, none =>
      if ValidPage ever s.log scope pos limit types c.page then
        some (s, .ok (c.page, c.truncated)) else none
    | .none, some err => some (s, .error err)
    | _, _ => some (s, .error .failed)
  | .pause, c, s => some (answer c s s ())
  | .select, c, s => some (s, c.wake)
  | .begin st, _, s => some ({ s with starts := st :: s.starts }, ())
  | .handle i k definition e, c, s =>
    -- a handler that fails did not apply the event, whatever else it did
    some (match c.fault with
      | .none => ({ s with handled := ⟨i, k, definition, e.globalPosition⟩ :: s.handled }, .ok ())
      | _ => (s, .error .failed))
  | .account i position batch, _, s => some (s.account i position batch)
  | .claim i, _, s => some (s.claim i)

/-- **What a page read does**: nothing to the state, and a page is one that the log may return. -/
theorem exec_readAllBounded {A : Adapter} {ever : Log} {scope : Bytes} {pos limit maxBytes : Nat}
    {types : List Bytes} {c : Choice} {s s' : State} {r : Except ReadError (List Event × Bool)}
    (h : exec A ever (.readAllBounded scope pos limit maxBytes types) c s = some (s', r)) :
    s' = s ∧ ∀ page, r = .ok page → ValidPage ever s.log scope pos limit types page.1 := by
  simp only [exec] at h
  split at h
  · split at h
    · rename_i hvalid
      cases h
      refine ⟨rfl, ?_⟩
      rintro page ⟨⟩
      exact hvalid
    · cases h
  · cases h
    exact ⟨rfl, fun _ hp => by cases hp⟩
  · cases h
    exact ⟨rfl, fun _ hp => by cases hp⟩

/-- The calls that write the lease table. -/
def Op.writesLease : Op → Bool
  | .acquire .. => true
  | .renew .. => true
  | .release .. => true
  | _ => false

/-- The calls that write the checkpoint table. -/
def Op.writesCheckpoint : Op → Bool
  | .save .. => true
  | .reset .. => true
  | .delete _ => true
  | _ => false

/-- The calls that leave the checkpoints, the ack windows and the history alone. -/
def Op.quiet : Op → Bool
  | .save .. => false
  | .reset .. => false
  | .delete _ => false
  | .begin _ => false
  | .handle .. => false
  | .account .. => false
  | .claim _ => false
  | _ => true

/-- What consumers and operators agree on: everything but the clock, the log and the leases. -/
structure Ledger where
  checkpoints : Key → Option Checkpoint
  window : Nat → Window
  starts : List Start
  handled : List Handled
  resets : List ResetMark

/-- The ledger of a state. -/
def State.ledger (s : State) : Ledger :=
  ⟨s.tables.checkpoints, s.window, s.starts, s.handled, s.resets⟩

/-- What a call leaves as it was. -/
structure Framed (o : Op) (s s' : State) : Prop where
  now : s'.now = s.now
  leases : o.writesLease = false → s'.tables.leases = s.tables.leases
  checkpoints : o.writesCheckpoint = false → s'.tables.checkpoints = s.tables.checkpoints
  ledger : o.quiet = true → s'.ledger = s.ledger

theorem Framed.refl (o : Op) (s : State) : Framed o s s :=
  ⟨rfl, fun _ => rfl, fun _ => rfl, fun _ => rfl⟩

/-- Writing the lease table only. -/
theorem Framed.ofLeases {o : Op} {s : State} {t : Tables} (ho : o.writesLease = true)
    (ht : t.checkpoints = s.tables.checkpoints) : Framed o s (s.withTables t) := by
  refine ⟨rfl, fun h => ?_, fun _ => ht, fun _ => ?_⟩
  · rw [ho] at h
    cases h
  · simp only [State.ledger, State.withTables, ht]

section Frame

variable {A : Adapter} {ever : Log} {c : Choice} {s s' : State}

/-- A property of the state survives a port call when it survives the call's effect. -/
theorem answer_preserves {α : Type} {I : State → Prop} {b : Except Failure α} {x : α} {t : State}
    (h : some (answer c s t x) = some (s', b)) (hs : I s) (ht : I t) : I s' := by
  have h1 : (answer c s t x).1 = s' := congrArg Prod.fst (Option.some.inj h)
  rcases answer_state c s t x with h2 | h2
  · rw [← h1, h2]
    exact hs
  · rw [← h1, h2]
    exact ht

/-- **What a call leaves as it was.** -/
theorem exec_framed {o : Op} {r : Res o} (h : exec A ever o c s = some (s', r)) : Framed o s s' := by
  have self := Framed.refl o s
  cases o with
  | acquire k owner consumer ttl =>
    have ht : Framed (.acquire k owner consumer ttl) s
        (s.withTables (s.tables.acquire A s.now k owner consumer ttl).1) :=
      .ofLeases rfl Tables.acquire_checkpoints
    simp only [exec] at h
    cases hf : c.fault <;> rw [hf] at h <;> cases h
    · exact ht
    · exact self
    · exact ht
  | renew k owner ttl =>
    exact answer_preserves h self (.ofLeases rfl Tables.renew_checkpoints)
  | release k owner =>
    exact answer_preserves h self (.ofLeases rfl Tables.release_checkpoints)
  | holder k => exact answer_preserves h self self
  | save k d p => exact answer_preserves h self ⟨rfl, fun _ => rfl, nofun, nofun⟩
  | reset k d p => exact answer_preserves h self ⟨rfl, fun _ => rfl, nofun, nofun⟩
  | delete k => exact answer_preserves h self ⟨rfl, fun _ => rfl, nofun, nofun⟩
  | checkpoint k => exact answer_preserves h self self
  | record dl => exact answer_preserves h self ⟨rfl, fun _ => rfl, fun _ => rfl, fun _ => rfl⟩
  | clock => cases h; exact self
  | newOwner => cases h; exact self
  | openLog scope => exact answer_preserves h self self
  | head scope => exact answer_preserves h self self
  | rawHead scope => exact answer_preserves h self self
  | readAllBounded scope pos limit maxBytes types =>
    rw [(exec_readAllBounded h).1]
    exact self
  | pause => exact answer_preserves h self self
  | select => cases h; exact self
  | begin st => cases h; exact ⟨rfl, fun _ => rfl, fun _ => rfl, nofun⟩
  | handle i k d e =>
    simp only [exec] at h
    cases hf : c.fault <;> rw [hf] at h <;> cases h
    · exact ⟨rfl, fun _ => rfl, fun _ => rfl, nofun⟩
    · exact self
    · exact self
  | account i p batch => cases h; exact ⟨rfl, fun _ => rfl, fun _ => rfl, nofun⟩
  | claim i =>
    simp only [exec, State.claim] at h
    split at h <;> cases h
    · exact self
    · exact ⟨rfl, fun _ => rfl, fun _ => rfl, nofun⟩

end Frame

/-- The steps of the environment. -/
inductive EnvStep where
  /-- Time passes. -/
  | advance (d : Nat)
  /-- An append commits. -/
  | commit (scope : Bytes) (e : Event)

/-- What the environment does: the clock never goes back, and an append adds an event that is one of
those that ever commit. -/
def envStep (ever : Log) : EnvStep → State → Option State
  | .advance d, s => some { s with now := s.now + d }
  | .commit scope e, s =>
    if ever.event scope e.globalPosition = some e ∧ s.log.event scope e.globalPosition = none then
      some { s with log := s.log.add scope e }
    else none

end EsLite.Feed
