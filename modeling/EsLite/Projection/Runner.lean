import Mathlib.Data.List.AList
import EsLite.Es.Store
import EsLite.Foundation.Consuming
import EsLite.Foundation.Process

/-!
# The runner of a projection

`Runner.apply` handles one envelope: it skips what lies at or below its marker, dispatches what passes the
filter, and saves the position before it acknowledges. Three positions move apart: where the feed stands,
the marker in memory, and the durable one, which lags behind when a `BufferedMarker` holds saves back.
A crash drops everything but the durable marker, at any point.

`projection_never_skips`: whatever fails, and wherever the process crashes, what lies at or below the
durable marker was dispatched, and first in the order of the log.
-/

namespace EsLite.Projection

open Prog (perform ofResult)

/-! ## The state of a process -/

/-- The event log, in the order of its positions. -/
structure EventLog where
  events : List Envelope
  sorted : events.Pairwise (fun e e' => e.globalPosition.toNat < e'.globalPosition.toNat)
  /-- The first position is 1. -/
  positive : ∀ e ∈ events, 0 < e.globalPosition.toNat

/-- What comes after a position. -/
def EventLog.after (log : EventLog) (pos : UInt64) : List Envelope :=
  EsLite.after (fun e : Envelope => e.globalPosition.toNat) log.events pos.toNat

/-- The unsaved highest positions, by projection. -/
abbrev Pending := AList (fun _ : Bytes => UInt64)

/-- What a `BufferedMarker` holds back. -/
structure Buffer where
  pending : Pending
  /-- Calls of `Save` since the last flush. -/
  count : Nat
  /-- Zero when nothing is pending. -/
  firstDirty : Time

/-- Nothing is held back. -/
def Buffer.empty : Buffer := ⟨∅, 0, .zero⟩

/-- A call of `Dispatch`: the marker that the process had loaded at its start, the envelope, and whether
the call returned without an error. -/
structure Dispatched where
  startedAt : UInt64
  env : Envelope
  ok : Bool

/-- The durable marker; what the process has in memory; where its feed stands; and the calls of `Dispatch`
so far, of all processes. -/
structure RunState where
  durable : Bytes → UInt64
  buffer : Buffer
  marker : UInt64
  loaded : Bool
  /-- The marker as it was loaded. -/
  startedAt : UInt64
  /-- The last position that the feed got an acknowledgement for, or started from. -/
  cursor : UInt64
  calls : List Dispatched

/-- Nothing is saved, and a process has started. -/
def RunState.fresh : RunState := ⟨fun _ => 0, .empty, 0, false, 0, 0, []⟩

/-- A new process, whose feed starts from a position. -/
def RunState.restarted (s : RunState) (pos : UInt64) : RunState :=
  { s with buffer := .empty, marker := 0, loaded := false, cursor := pos }

/-- The envelopes for which `Dispatch` returned without an error, in this order. -/
def RunState.successes (s : RunState) : List Envelope :=
  s.calls.filterMap (fun c => if c.ok then some c.env else none)

/-- The steps of a process. -/
inductive RunOp : Type where
  | loadInner (projection : Bytes)
  | saveInner (projection : Bytes) (position : UInt64)
  | buffer
  | setBuffer (b : Buffer)
  /-- The order in which a loop goes through the pending positions. -/
  | rangePending
  | now
  /-- The marker in memory, and whether it was loaded. -/
  | runner
  | setLoaded (pos : UInt64)
  | setMarker (pos : UInt64)
  | dispatch (e : Envelope)
  | readAll (pos : UInt64) (limit : Nat)
  | sleep
  /-- The feed starts from a position. -/
  | seek (pos : UInt64)
  /-- The feed gets the acknowledgement of an envelope. -/
  | acknowledge (e : Envelope)

/-- What the steps return. -/
def RunRes : RunOp → Type
  | .loadInner _ => Except Bytes UInt64
  | .saveInner _ _ => Except Bytes Unit
  | .buffer => Buffer
  | .setBuffer _ => Unit
  | .rangePending => List (Sigma fun _ : Bytes => UInt64)
  | .now => Time
  | .runner => UInt64 × Bool
  | .setLoaded _ => Unit
  | .setMarker _ => Unit
  | .dispatch _ => Except Bytes Unit
  | .readAll _ _ => Except Bytes (List Envelope)
  | .sleep => Except Bytes Unit
  | .seek _ => Unit
  | .acknowledge _ => Unit

/-- What is left open in a step: an error, whether the step took effect in spite of it, the clock, the
order of a loop over a map, and how much of the log is there yet. -/
structure RunAnswer where
  fault : Option Bytes
  applied : Bool
  now : Time
  order : List (Sigma fun _ : Bytes => UInt64)
  visible : Nat

/-- A step that may fail. -/
def RunAnswer.reply {α : Type} (x : RunAnswer) (a : α) : Except Bytes α :=
  match x.fault with
  | some err => .error err
  | none => .ok a

/-- The effect of a step. -/
def execRun (log : EventLog) : (o : RunOp) → RunAnswer → RunState → Option (RunState × RunRes o)
  | .loadInner projection, x, s => some (s, x.reply (s.durable projection))
  | .saveInner projection position, x, s =>
    -- a save that fails may have been stored
    some (if x.fault.isNone || x.applied
      then { s with durable := Function.update s.durable projection position } else s, x.reply ())
  | .buffer, _, s => some (s, s.buffer)
  | .setBuffer b, _, s => some ({ s with buffer := b }, ())
  | .rangePending, x, s =>
    if x.order.isPerm s.buffer.pending.entries then some (s, x.order) else none
  | .now, x, s => some (s, x.now)
  | .runner, _, s => some (s, (s.marker, s.loaded))
  | .setLoaded pos, _, s => some ({ s with marker := pos, loaded := true, startedAt := pos }, ())
  | .setMarker pos, _, s => some ({ s with marker := pos }, ())
  | .dispatch e, x, s =>
    -- the call is recorded whether it fails or not
    some ({ s with calls := s.calls ++ [⟨s.startedAt, e, x.fault.isNone⟩] }, x.reply ())
  | .readAll pos limit, x, s =>
    -- the log grows at its end: what is there yet is a first part of what follows
    some (s, x.reply (((log.after pos).take x.visible).take limit))
  | .sleep, x, s => some (s, x.reply ())
  | .seek pos, _, s => some ({ s with cursor := pos }, ())
  | .acknowledge e, _, s => some ({ s with cursor := e.globalPosition }, ())

/-! ## Markers -/

/-- A program of steps that may end in an error. -/
abbrev RunAct (ε α : Type) := ExceptT ε (Prog RunOp RunRes) α

/-- `inner.Load` -/
def loadInner (projection : Bytes) : RunAct Bytes UInt64 := do
  let r : Except Bytes UInt64 ← perform (RunOp.loadInner projection)
  ofResult r

/-- `inner.Save` -/
def saveInner (projection : Bytes) (position : UInt64) : RunAct Bytes Unit := do
  let r : Except Bytes Unit ← perform (RunOp.saveInner projection position)
  ofResult r

/-- How saves are held back, before defaults. -/
structure BufferedMarkerOptions where
  maxCount : Int
  maxInterval : Int64

/-- A marker that holds saves back: up to a number of them, and for some time. -/
structure BufferedMarker where
  maxCount : Int
  maxInterval : Int64
  maxCount_pos : 0 < maxCount
  maxInterval_pos : 0 < maxInterval

/-- `NewBufferedMarker` -/
def newBufferedMarker (opts : BufferedMarkerOptions) : BufferedMarker where
  maxCount := if opts.maxCount ≤ 0 then 100 else opts.maxCount
  maxInterval := if opts.maxInterval ≤ 0 then 1000000000 else opts.maxInterval
  maxCount_pos := by split <;> omega
  maxInterval_pos := by
    split
    · decide
    · exact Int64.not_le.mp ‹_›

/-- The loop of `flush`: it stops at the first save that fails, and leaves the rest pending. -/
def flushPending : List (Sigma fun _ : Bytes => UInt64) → RunAct Bytes Unit
  | [] => pure ()
  | ⟨key, pos⟩ :: rest => do
    saveInner key pos
    let b : Buffer ← perform RunOp.buffer
    perform (RunOp.setBuffer { b with pending := b.pending.erase key })
    flushPending rest

/-- `BufferedMarker.flush` -/
def flush : RunAct Bytes Unit := do
  let b : Buffer ← perform RunOp.buffer
  if b.pending.entries.isEmpty then
    perform (RunOp.setBuffer { b with count := 0, firstDirty := .zero })
  else
    let order : List (Sigma fun _ : Bytes => UInt64) ← perform RunOp.rangePending
    flushPending order
    let b : Buffer ← perform RunOp.buffer
    perform (RunOp.setBuffer { b with count := 0, firstDirty := .zero })

/-- `BufferedMarker.Load` -/
def BufferedMarker.load (_ : BufferedMarker) (projection : Bytes) : RunAct Bytes UInt64 := do
  let b : Buffer ← perform RunOp.buffer
  let pending := (b.pending.lookup projection).getD 0
  flush
  let got ← loadInner projection
  pure (if got < pending then pending else got)

/-- The second half of `BufferedMarker.Save`: count the save, and flush if it is time to. -/
def BufferedMarker.countSave (m : BufferedMarker) : RunAct Bytes Unit := do
  let now : Time ← perform RunOp.now
  let b : Buffer ← perform RunOp.buffer
  let firstDirty := if b.firstDirty.isZero then now else b.firstDirty
  let count := b.count + 1
  perform (RunOp.setBuffer { b with firstDirty := firstDirty, count := count })
  if m.maxCount ≤ count || m.maxInterval ≤ now.sub firstDirty then flush else pure ()

/-- `BufferedMarker.Save`: a position below the pending one is dropped. -/
def BufferedMarker.save (m : BufferedMarker) (projection : Bytes) (position : UInt64) :
    RunAct Bytes Unit := do
  let b : Buffer ← perform RunOp.buffer
  let prev := b.pending.lookup projection
  if prev.getD 0 < position then
    perform (RunOp.setBuffer { b with pending := b.pending.insert projection position })
    m.countSave
  else if position == 0 && prev.isNone then pure () -- there is nothing to persist
  else m.countSave

/-- What a runner keeps its position in: the durable marker itself, or one that holds saves back. -/
inductive Marker : Type where
  | durable
  | buffered (m : BufferedMarker)

/-- `Marker.Load` -/
def Marker.load : Marker → Bytes → RunAct Bytes UInt64
  | .durable => loadInner
  | .buffered m => m.load

/-- `Marker.Save` -/
def Marker.save : Marker → Bytes → UInt64 → RunAct Bytes Unit
  | .durable => saveInner
  | .buffered m => m.save

/-! ## Runners -/

/-- A projection: its name, its marker, and what it consumes. -/
structure Runner where
  name : Bytes
  marker : Marker
  /-- Without a filter everything is dispatched. -/
  filter : Option (Envelope → Bool)

/-- Whether the envelope passes the filter. -/
def Runner.consumes (r : Runner) (e : Envelope) : Bool :=
  match r.filter with
  | none => true
  | some f => f e

/-- How a runner and its feed fail. -/
inductive RunError : Type where
  | loadMarker (projection err : Bytes)
  | saveMarker (projection err : Bytes)
  | dispatch (err : Bytes)
  | readAll (err : Bytes)
  /-- The context has ended. -/
  | context (err : Bytes)
  /-- What a marker returns when it is used on its own. -/
  | marker (err : Bytes)
  /-- The feed has used up its rounds, and has not returned yet. -/
  | unfinished

namespace Runner

variable (r : Runner)

/-- `Runner.loadMarker`: once per process. -/
def loadMarker : RunAct RunError Unit := do
  let st : UInt64 × Bool ← perform RunOp.runner
  if st.2 then pure ()
  else
    let pos ← ExceptT.adapt (RunError.loadMarker r.name) (r.marker.load r.name)
    perform (RunOp.setLoaded pos)

/-- `Runner.advance` -/
def advance (pos : UInt64) : RunAct RunError Unit := do
  ExceptT.adapt (RunError.saveMarker r.name) (r.marker.save r.name pos)
  perform (RunOp.setMarker pos)

/-- The call of `Runner.Dispatch`. -/
def dispatch (e : Envelope) : RunAct RunError Unit := do
  let res : Except Bytes Unit ← perform (RunOp.dispatch e)
  ofResult (res.mapError .dispatch)

/-- `Runner.apply` -/
def apply (e : Envelope) : RunAct RunError Unit := do
  r.loadMarker
  let st : UInt64 × Bool ← perform RunOp.runner
  if e.globalPosition ≤ st.1 then pure () -- applied before
  else if !r.consumes e then r.advance e.globalPosition
  else
    dispatch e
    r.advance e.globalPosition

end Runner

/-! ## Feeds -/

/-- A feed over the log itself. -/
structure LogFeed where
  fromPosition : UInt64
  batch : Int

/-- The batch size, with its default. -/
def LogFeed.batchSize (f : LogFeed) : Nat := if f.batch ≤ 0 then 500 else f.batch.toNat

/-- `Source.ReadAll` -/
def readAll (pos : UInt64) (limit : Nat) : RunAct RunError (List Envelope) := do
  let res : Except Bytes (List Envelope) ← perform (RunOp.readAll pos limit)
  ofResult (res.mapError .readAll)

/-- `sleep`: it fails when the context ends. -/
def sleep : RunAct RunError Unit := do
  let res : Except Bytes Unit ← perform RunOp.sleep
  ofResult (res.mapError .context)

/-- An envelope that its handler does not acknowledge is handed to it again, after a while. -/
def retry (handle : Envelope → RunAct RunError Unit) (e : Envelope) : (tries : Nat) → RunAct RunError Unit
  | 0 => throw .unfinished
  | tries + 1 => tryCatch (handle e) (fun _ => do sleep; retry handle e tries)

/-- A page of a feed, one envelope after the other. -/
def deliverPage (handle : Envelope → RunAct RunError Unit) (tries : Nat) :
    UInt64 → List Envelope → RunAct RunError UInt64
  | pos, [] => pure pos
  | _, e :: rest => do
    retry handle e tries
    perform (RunOp.acknowledge e)
    deliverPage handle tries e.globalPosition rest

/-- The loop of `LogFeed.Feed`, for a number of rounds and of tries for each envelope. -/
def LogFeed.loop (f : LogFeed) (handle : Envelope → RunAct RunError Unit) (tries : Nat) :
    (rounds : Nat) → UInt64 → RunAct RunError Unit
  | 0, _ => throw .unfinished
  | rounds + 1, pos => do
    let evs ← readAll pos f.batchSize
    let pos ← deliverPage handle tries pos evs
    if evs.length = f.batchSize then f.loop handle tries rounds pos
    else
      sleep
      f.loop handle tries rounds pos

/-- `LogFeed.Feed` -/
def LogFeed.feed (f : LogFeed) (handle : Envelope → RunAct RunError Unit) (rounds tries : Nat) :
    RunAct RunError Unit := do
  perform (RunOp.seek f.fromPosition)
  f.loop handle tries rounds f.fromPosition

/-- `Runner.Run` with a feed over the log. -/
def Runner.run (r : Runner) (f : LogFeed) (rounds tries : Nat) : RunAct RunError Unit := do
  r.loadMarker
  f.feed r.apply rounds tries

/-- What is called in a process. -/
inductive RunCall : Type where
  /-- Any feed hands the next envelope to the runner. -/
  | deliver (e : Envelope)
  /-- `Run` over the log. -/
  | run (f : LogFeed) (rounds tries : Nat)
  /-- What `Run` begins with, and `Position` consists of. -/
  | loadMarker
  /-- `BufferedMarker.Flush` -/
  | flush
  /-- Another projection saves its position in the same marker. -/
  | saveOther (projection : Bytes) (position : UInt64)

/-- The programs of the calls. -/
def runProg (r : Runner) : RunCall → RunAct RunError Unit
  | .deliver e => do
    r.apply e
    perform (RunOp.acknowledge e)
  | .run f rounds tries => r.run f rounds tries
  | .loadMarker => r.loadMarker
  | .flush => ExceptT.adapt .marker Projection.flush
  | .saveOther projection position => ExceptT.adapt .marker (r.marker.save projection position)

/-- **A projection over a log**: a feed delivers each envelope after the last one that was acknowledged,
and may start over from any position up to the durable marker. A process may crash at any point; the next
one has nothing in memory. -/
def projecting (r : Runner) (log : EventLog) :
    Process RunState RunCall RunOp RunRes (Except RunError Unit) RunAnswer UInt64 where
  prog c := (runProg r c).run
  exec := execRun log
  accepts
    | .deliver e, s => (log.after s.cursor).head? = some e
    | .run f _ _, s => f.fromPosition ≤ s.durable r.name
    | .saveOther projection _, _ => projection ≠ r.name
    | _, _ => true
  between pos s := if pos ≤ s.durable r.name then some { s with cursor := pos } else none
  crash pos s := if pos ≤ s.durable r.name then some (s.restarted pos) else none

/-! ## What is done -/

/-- The envelope was dispatched, if it passes the filter. -/
def Done (r : Runner) (s : RunState) (e : Envelope) : Prop := r.consumes e = true → e ∈ s.successes

/-- Everything up to a position is done. -/
def UpTo (r : Runner) (log : EventLog) (s : RunState) (pos : UInt64) : Prop :=
  DoneUpTo (fun e : Envelope => e.globalPosition.toNat) log.events (Done r s) pos.toNat

/-- Everything is done up to each of the positions, and was dispatched in order. -/
structure RunInv (r : Runner) (log : EventLog) (s : RunState) : Prop where
  durable : UpTo r log s (s.durable r.name)
  pending : ∀ pos, s.buffer.pending.lookup r.name = some pos → UpTo r log s pos
  marker : s.loaded = true → UpTo r log s s.marker
  startedAt : s.loaded = true → s.startedAt ≤ s.marker
  cursor : UpTo r log s s.cursor
  skipped : ∀ c ∈ s.calls, c.startedAt < c.env.globalPosition
  ordered : FirstsInOrder (fun e : Envelope => e.globalPosition.toNat)
    (fun e => e ∈ log.events ∧ r.consumes e = true) s.successes

/-- Only the durable marker and what is held back differ. -/
structure MarkerLe (s t : RunState) : Prop where
  marker : t.marker = s.marker
  loaded : t.loaded = s.loaded
  startedAt : t.startedAt = s.startedAt
  cursor : t.cursor = s.cursor
  calls : t.calls = s.calls

theorem MarkerLe.trans {s t u : RunState} (h : MarkerLe s t) (h' : MarkerLe t u) : MarkerLe s u :=
  ⟨h'.marker.trans h.marker, h'.loaded.trans h.loaded, h'.startedAt.trans h.startedAt,
    h'.cursor.trans h.cursor, h'.calls.trans h.calls⟩

/-- The feed stands where it stood, a marker stays loaded, and what was dispatched stays so. -/
structure ApplyLe (s t : RunState) : Prop where
  cursor : t.cursor = s.cursor
  loaded : s.loaded = true → t.loaded = true ∧ t.startedAt = s.startedAt
  successes : s.successes ⊆ t.successes

/-- What the programs of a marker keep. -/
def markerLogic (r : Runner) (log : EventLog) : Logic RunState RunOp where
  inv := RunInv r log
  le := MarkerLe
  allowed _ _ := True
  refl _ := ⟨rfl, rfl, rfl, rfl, rfl⟩
  trans _ _ _ := .trans

/-- What the handling of one envelope keeps. -/
def applyLogic (r : Runner) (log : EventLog) : Logic RunState RunOp where
  inv := RunInv r log
  le := ApplyLe
  allowed _ _ := True
  refl _ := ⟨rfl, fun h => ⟨h, rfl⟩, List.Subset.refl _⟩
  trans _ _ _ h h' := ⟨h'.cursor.trans h.cursor,
    fun hl => ⟨(h'.loaded (h.loaded hl).1).1, (h'.loaded (h.loaded hl).1).2.trans (h.loaded hl).2⟩,
    List.Subset.trans h.successes h'.successes⟩

/-- What a feed keeps. -/
def feedLogic (r : Runner) (log : EventLog) : Logic RunState RunOp where
  inv := RunInv r log
  le s t := s.successes ⊆ t.successes
  allowed _ _ := True
  refl _ := List.Subset.refl _
  trans _ _ _ := List.Subset.trans

section Positions

variable {r : Runner} {log : EventLog} {s t : RunState} {pos : UInt64} {e : Envelope} {rest : List Envelope}

theorem UpTo.mono (h : UpTo r log s pos) (hsub : s.successes ⊆ t.successes) : UpTo r log t pos :=
  DoneUpTo.mono h fun _ hdone hcons => hsub (hdone hcons)

theorem upTo_zero (r : Runner) (log : EventLog) (s : RunState) : UpTo r log s 0 :=
  fun e he hle => absurd hle (not_le.mpr (log.positive e he))

theorem MarkerLe.successes (h : MarkerLe s t) : t.successes = s.successes := by
  rw [RunState.successes, h.calls, RunState.successes]

theorem MarkerLe.apply (h : MarkerLe s t) : ApplyLe s t where
  cursor := h.cursor
  loaded hl := ⟨h.loaded.trans hl, h.startedAt⟩
  successes := h.successes ▸ List.Subset.refl _

/-- **The next envelope** moves the position on, once it is done. -/
theorem UpTo.next (h : UpTo r log s pos) (hnext : log.after pos = e :: rest) (hdone : Done r s e) :
    UpTo r log s e.globalPosition := by
  refine DoneUpTo.advance h fun x hx hlt hle => ?_
  rw [eq_of_after log.sorted hnext hx hlt hle]
  exact hdone

/-- A marker that is loaded at a done position. -/
theorem RunInv.setLoaded (h : RunInv r log s) (hpos : UpTo r log s pos) :
    RunInv r log { s with marker := pos, loaded := true, startedAt := pos } :=
  { h with marker := fun _ => hpos, startedAt := fun _ => UInt64.le_refl pos }

/-- A marker that moves on to a done position. -/
theorem RunInv.setMarker (h : RunInv r log s) (hpos : UpTo r log s pos) (hle : s.startedAt ≤ pos) :
    RunInv r log { s with marker := pos } :=
  { h with marker := fun _ => hpos, startedAt := fun _ => hle }

/-- A feed that stands at a done position. -/
theorem RunInv.setCursor (h : RunInv r log s) (hpos : UpTo r log s pos) :
    RunInv r log { s with cursor := pos } :=
  { h with cursor := hpos }

end Positions

/-! ## What markers keep -/

open Logic

section Markers

variable {r : Runner} {log : EventLog} {s : RunState} {projection : Bytes} {position : UInt64} {ε : Type}

theorem MarkerLe.refl (s : RunState) : MarkerLe s s := ⟨rfl, rfl, rfl, rfl, rfl⟩

/-- A step that does not fail. -/
theorem reply_eq_ok {α : Type} {x : RunAnswer} {a b : α} (h : x.reply a = .ok b) :
    x.fault = none ∧ a = b := by
  unfold RunAnswer.reply at h
  split at h
  · cases h
  · exact ⟨‹_›, Except.ok.inj h⟩

theorem alone_buffer (hs : RunInv r log s) :
    (markerLogic r log).Alone (execRun log) (OnOk fun (b : Buffer) t => t = s ∧ b = s.buffer)
      (perform RunOp.buffer : RunAct ε _).run s := by
  refine Alone.perform fun x t b hex => ?_
  cases hex
  exact ⟨hs, .refl s, rfl, rfl⟩

/-- What is held back for the projection has to be done. -/
theorem alone_setBuffer {b : Buffer} (hs : RunInv r log s)
    (hb : ∀ pos, b.pending.lookup r.name = some pos → UpTo r log s pos) :
    (markerLogic r log).Alone (execRun log) (OnOk fun _ _ => True)
      (perform (RunOp.setBuffer b) : RunAct ε _).run s := by
  refine Alone.perform fun x t res hex => ?_
  cases hex
  exact ⟨{ hs with pending := hb }, ⟨rfl, rfl, rfl, rfl, rfl⟩, trivial⟩

theorem alone_loadInner (hs : RunInv r log s) :
    (markerLogic r log).Alone (execRun log) (OnOk fun pos t => UpTo r log t pos)
      (loadInner r.name).run s := by
  refine Alone.andThen (R := fun (res : Except Bytes UInt64) t => ∀ pos, res = .ok pos → UpTo r log t pos)
    (Alone.perform fun x t res hex => ?_) hs (fun res t _ _ hres => Alone.ofResult hres)
  cases hex
  exact ⟨hs, .refl s, fun pos hpos => (reply_eq_ok hpos).2 ▸ hs.durable⟩

/-- **A durable save** of a position that is done, whether it fails or not. -/
theorem alone_saveInner (hs : RunInv r log s) (hpos : projection = r.name → UpTo r log s position) :
    (markerLogic r log).Alone (execRun log) (OnOk fun _ _ => True)
      (saveInner projection position).run s := by
  refine Alone.andThen (R := fun _ _ => True) (Alone.perform fun x t res hex => ?_) hs
    (fun res t _ _ _ => Alone.ofResult fun _ _ => trivial)
  cases hex
  split
  · refine ⟨{ hs with durable := ?_ }, ⟨rfl, rfl, rfl, rfl, rfl⟩, trivial⟩
    change UpTo r log s (Function.update s.durable projection position r.name)
    rw [Function.update_apply]
    split
    · rename_i hname
      exact hpos hname.symm
    · exact hs.durable
  · exact ⟨hs, .refl s, trivial⟩

/-- The loop of a flush, over positions that are done. -/
theorem alone_flushPending (order : List (Sigma fun _ : Bytes => UInt64)) (hs : RunInv r log s)
    (horder : ∀ x ∈ order, x.1 = r.name → UpTo r log s x.2) :
    (markerLogic r log).Alone (execRun log) (OnOk fun _ _ => True) (flushPending order).run s := by
  induction order generalizing s with
  | nil => exact trivial
  | cons x rest ih =>
    -- a save that fails ends the loop; otherwise its entry is dropped, and the others were done before
    refine Alone.andThen (alone_saveInner hs (horder x List.mem_cons_self)) hs fun _ t hle ht _ => ?_
    refine Alone.andThen (alone_buffer ht) ht fun b u _ hu hb => ?_
    obtain ⟨rfl, rfl⟩ := hb
    refine Alone.andThen (alone_setBuffer hu fun pos hpos => ?_) hu fun _ v hle' hv _ => ?_
    · by_cases hname : r.name = x.1
      · rw [hname, AList.lookup_erase] at hpos
        cases hpos
      · rw [AList.lookup_erase_ne hname] at hpos
        exact hu.pending pos hpos
    · refine ih hv fun y hy hname => (horder y (List.mem_cons_of_mem _ hy) hname).mono ?_
      rw [hle'.successes, hle.successes]
      exact List.Subset.refl _

/-- **A flush** saves positions that are done. -/
theorem alone_flush (hs : RunInv r log s) :
    (markerLogic r log).Alone (execRun log) (OnOk fun _ _ => True) flush.run s := by
  refine Alone.andThen (alone_buffer hs) hs fun b t _ ht hb => ?_
  obtain ⟨rfl, rfl⟩ := hb
  refine Alone.ite (fun _ => alone_setBuffer ht ht.pending) (fun _ => ?_)
  refine Alone.andThen (R := fun (order : List (Sigma fun _ : Bytes => UInt64)) u =>
      u = t ∧ order.Perm t.buffer.pending.entries) (Alone.perform fun x u order hex => ?_) ht
    fun order u _ hu horder => ?_
  · simp only [execRun] at hex
    split at hex
    · rename_i hperm
      cases hex
      exact ⟨ht, .refl _, rfl, List.isPerm_iff.mp hperm⟩
    · cases hex
  · obtain ⟨rfl, hperm⟩ := horder
    refine Alone.andThen (alone_flushPending order hu fun x hx hname => ?_) hu fun _ v _ hv _ => ?_
    · refine hu.pending x.2 (AList.mem_lookup_iff.mpr ?_)
      rw [← hname]
      exact hperm.subset hx
    · refine Alone.andThen (alone_buffer hv) hv fun b w _ hw hb => ?_
      obtain ⟨rfl, rfl⟩ := hb
      exact alone_setBuffer hw hw.pending

theorem alone_countSave (m : BufferedMarker) (hs : RunInv r log s) :
    (markerLogic r log).Alone (execRun log) (OnOk fun _ _ => True) m.countSave.run s := by
  refine Alone.andThen (R := fun _ t => t = s) (Alone.perform fun x t now hex => ?_) hs
    fun now t _ ht heq => ?_
  · cases hex
    exact ⟨hs, .refl s, rfl⟩
  · refine Alone.andThen (alone_buffer ht) ht fun b u _ hu hb => ?_
    obtain ⟨rfl, rfl⟩ := hb
    refine Alone.andThen (alone_setBuffer hu hu.pending) hu fun _ v _ hv _ => ?_
    exact Alone.ite (fun _ => alone_flush hv) (fun _ => trivial)

/-- What is pending, or zero, is done. -/
theorem RunInv.pending_getD (hs : RunInv r log s) :
    UpTo r log s ((s.buffer.pending.lookup r.name).getD 0) := by
  cases hpending : s.buffer.pending.lookup r.name with
  | none => exact upTo_zero r log s
  | some pos => exact hs.pending pos hpending

/-- **What a marker loads is done.** -/
theorem alone_load (m : Marker) (hs : RunInv r log s) :
    (markerLogic r log).Alone (execRun log) (OnOk fun pos t => UpTo r log t pos)
      (m.load r.name).run s := by
  cases m with
  | durable => exact alone_loadInner hs
  | buffered m =>
    refine Alone.andThen (alone_buffer hs) hs fun b t _ ht hb => ?_
    obtain ⟨rfl, rfl⟩ := hb
    refine Alone.andThen (alone_flush ht) ht fun _ u hle hu _ => ?_
    refine Alone.andThen (alone_loadInner hu) hu fun got v hle' hv hgot => ?_
    change UpTo r log v (if _ then _ else got)
    split
    · refine ht.pending_getD.mono ?_
      rw [hle'.successes, hle.successes]
      exact List.Subset.refl _
    · exact hgot

/-- **A save through a marker** of a position that is done. -/
theorem alone_save (m : Marker) (hs : RunInv r log s)
    (hpos : projection = r.name → UpTo r log s position) :
    (markerLogic r log).Alone (execRun log) (OnOk fun _ _ => True) (m.save projection position).run s := by
  cases m with
  | durable => exact alone_saveInner hs hpos
  | buffered m =>
    refine Alone.andThen (alone_buffer hs) hs fun b t _ ht hb => ?_
    obtain ⟨rfl, rfl⟩ := hb
    refine Alone.ite (fun _ => ?_)
      (fun _ => Alone.ite (fun _ => trivial) (fun _ => alone_countSave m ht))
    refine Alone.andThen (alone_setBuffer ht fun pos hlookup => ?_) ht fun _ u _ hu _ =>
      alone_countSave m hu
    by_cases hname : r.name = projection
    · subst hname
      rw [AList.lookup_insert] at hlookup
      cases hlookup
      exact hpos rfl
    · rw [AList.lookup_insert_ne hname] at hlookup
      exact ht.pending pos hlookup

end Markers

/-! ## What runners and feeds keep -/

section Runners

variable {r : Runner} {log : EventLog} {s : RunState} {e : Envelope} {rest : List Envelope}

/-- A program of a marker, where an envelope is handled: the rest of the process is as before. -/
theorem Alone.ofMarker {ε α : Type} {R : α → RunState → Prop} {p : RunAct ε α}
    (h : (markerLogic r log).Alone (execRun log) (OnOk R) p.run s) :
    (applyLogic r log).Alone (execRun log) (OnOk fun a t => R a t ∧ MarkerLe s t) p.run s :=
  h.liftOk (applyLogic r log) (fun _ hinv => hinv) fun _ _ => MarkerLe.apply

/-- The handling of an envelope, in a feed: the feed stands where it stood. -/
theorem Alone.ofApply {ε α : Type} {R : α → RunState → Prop} {p : RunAct ε α}
    (h : (applyLogic r log).Alone (execRun log) (OnOk R) p.run s) :
    (feedLogic r log).Alone (execRun log) (OnOk fun a t => R a t ∧ ApplyLe s t) p.run s :=
  h.liftOk (feedLogic r log) (fun _ hinv => hinv) fun _ _ => ApplyLe.successes

theorem alone_runner (hs : RunInv r log s) :
    (applyLogic r log).Alone (execRun log)
      (OnOk fun (st : UInt64 × Bool) t => t = s ∧ st = (s.marker, s.loaded))
      (perform RunOp.runner : RunAct RunError _).run s := by
  refine Alone.perform fun x t st hex => ?_
  cases hex
  exact ⟨hs, (applyLogic r log).refl s, rfl, rfl⟩

/-- After it has returned, the marker is loaded. -/
theorem alone_loadMarker (hs : RunInv r log s) :
    (applyLogic r log).Alone (execRun log) (OnOk fun _ t => t.loaded = true) r.loadMarker.run s := by
  refine Alone.andThen (alone_runner hs) hs fun st t _ ht hst => ?_
  obtain ⟨rfl, rfl⟩ := hst
  refine Alone.ite (fun hloaded => hloaded) (fun hloaded => ?_)
  refine Alone.andThen (Alone.adapt (Alone.ofMarker (alone_load r.marker ht)) ht) ht
    fun pos u _ hu hpos => Alone.perform fun x v res hex => ?_
  cases hex
  refine ⟨hu.setLoaded hpos.1, ⟨rfl, fun h => ?_, List.Subset.refl _⟩, rfl⟩
  -- a marker does not load itself, so that it was not loaded before
  exact absurd (hpos.2.loaded ▸ h) hloaded

/-- **Moving the marker on** to a position that is done. -/
theorem alone_advance {pos : UInt64} (hs : RunInv r log s) (hpos : UpTo r log s pos)
    (hloaded : s.loaded = true) (hstarted : s.startedAt ≤ pos) :
    (applyLogic r log).Alone (execRun log) (OnOk fun _ t => UpTo r log t pos) (r.advance pos).run s := by
  refine Alone.andThen (Alone.adapt (Alone.ofMarker (alone_save r.marker hs fun _ => hpos)) hs) hs
    fun _ t hle ht _ => Alone.perform fun x u res hex => ?_
  cases hex
  have hpos' : UpTo r log t pos := hpos.mono hle.successes
  have hstarted' : t.startedAt ≤ pos := (hle.loaded hloaded).2 ▸ hstarted
  exact ⟨ht.setMarker hpos' hstarted', ⟨rfl, fun h => ⟨h, rfl⟩, List.Subset.refl _⟩, hpos'⟩

theorem successes_dispatch (c : Dispatched) :
    RunState.successes { s with calls := s.calls ++ [c] } =
      s.successes ++ if c.ok then [c.env] else [] := by
  unfold RunState.successes
  rw [List.filterMap_append]
  cases hok : c.ok <;> simp [hok]

/-- **A call of `Dispatch`** on the next envelope keeps the order. -/
theorem RunInv.dispatch (hs : RunInv r log s) (hnext : log.after s.cursor = e :: rest)
    (hcons : r.consumes e = true) (hstarted : s.startedAt < e.globalPosition) (ok : Bool) :
    RunInv r log { s with calls := s.calls ++ [⟨s.startedAt, e, ok⟩] } := by
  have hsub : s.successes ⊆ RunState.successes { s with calls := s.calls ++ [⟨s.startedAt, e, ok⟩] } := by
    rw [successes_dispatch]
    exact List.subset_append_left _ _
  refine ⟨hs.durable.mono hsub, fun pos hpos => (hs.pending pos hpos).mono hsub,
    fun hl => (hs.marker hl).mono hsub, hs.startedAt, hs.cursor.mono hsub, fun c hc => ?_, ?_⟩
  · rcases List.mem_append.mp hc with hold | hnew
    · exact hs.skipped c hold
    · rw [List.mem_singleton.mp hnew]
      exact hstarted
  · rw [successes_dispatch]
    cases ok with
    | false => exact (List.append_nil s.successes).symm ▸ hs.ordered
    | true =>
      have hmem : e ∈ log.events ∧ s.cursor.toNat < e.globalPosition.toNat :=
        mem_after.mp (hnext ▸ List.mem_cons_self)
      refine hs.ordered.snoc ⟨hmem.1, hcons⟩ (fun y hy heq => ?_) (fun y hy hlt => ?_)
      · exact eq_of_after log.sorted hnext hy.1 (heq ▸ hmem.2) heq.le
      · -- what lies below the next envelope lies at or below the cursor
        refine hs.cursor y hy.1 (not_lt.mp fun hgt => ?_) hy.2
        rw [eq_of_after log.sorted hnext hy.1 hgt hlt.le] at hlt
        exact lt_irrefl _ hlt

theorem alone_dispatch (hs : RunInv r log s) (hnext : log.after s.cursor = e :: rest)
    (hcons : r.consumes e = true) (hstarted : s.startedAt < e.globalPosition) :
    (applyLogic r log).Alone (execRun log) (OnOk fun _ t => e ∈ t.successes)
      (Runner.dispatch e).run s := by
  refine Alone.andThen (R := fun (res : Except Bytes Unit) t => res = .ok () → e ∈ t.successes)
    (Alone.perform fun x t res hex => ?_) hs
    (fun res t _ _ hres => Alone.ofResult fun _ h => hres (mapError_eq_ok h))
  cases hex
  refine ⟨hs.dispatch hnext hcons hstarted _, ⟨rfl, fun h => ⟨h, rfl⟩, ?_⟩, fun hok => ?_⟩
  · rw [successes_dispatch]
    exact List.subset_append_left _ _
  · rw [successes_dispatch, (reply_eq_ok hok).1]
    exact List.mem_append_right _ List.mem_cons_self

/-- **Handling the next envelope**: when it is acknowledged, everything up to it is done. -/
theorem alone_apply (hs : RunInv r log s) (hnext : log.after s.cursor = e :: rest) :
    (applyLogic r log).Alone (execRun log) (OnOk fun _ t => UpTo r log t e.globalPosition)
      (r.apply e).run s := by
  refine Alone.andThen (alone_loadMarker hs) hs fun _ t hle ht hloaded => ?_
  refine Alone.andThen (alone_runner ht) ht fun st u _ hu hst => ?_
  obtain ⟨rfl, rfl⟩ := hst
  have hnext' : log.after u.cursor = e :: rest := hle.cursor ▸ hnext
  refine Alone.ite (fun hskip => (hu.marker hloaded).of_le hskip) (fun hskip => ?_)
  -- what is not skipped lies above the marker, and so above the one that was loaded
  have hstarted : u.startedAt < e.globalPosition :=
    UInt64.lt_of_le_of_lt (hu.startedAt hloaded) (UInt64.not_le.mp hskip)
  refine Alone.ite (fun hcons => ?_) (fun hcons => ?_)
  · -- the filter drops it, and there is nothing to do
    refine alone_advance hu (hu.cursor.next hnext' fun h => ?_) hloaded (UInt64.le_of_lt hstarted)
    rw [h] at hcons
    cases hcons
  · have hconsumes : r.consumes e = true := by simpa using hcons
    refine Alone.andThen (alone_dispatch hu hnext' hconsumes hstarted) hu fun _ v hle' hv hdone => ?_
    obtain ⟨hloaded', heq⟩ := hle'.loaded hloaded
    refine alone_advance hv (hv.cursor.next (hle'.cursor ▸ hnext') fun _ => hdone) hloaded' ?_
    exact heq ▸ UInt64.le_of_lt hstarted

/-- A wait changes nothing. -/
theorem alone_sleep (L : Logic RunState RunOp) (hs : L.inv s) :
    L.Alone (execRun log) (OnOk fun _ t => t = s) sleep.run s := by
  refine Alone.andThen (R := fun _ t => t = s) (Alone.perform fun x t res hex => ?_) hs
    (fun res t _ _ heq => Alone.ofResult fun _ _ => heq)
  cases hex
  exact ⟨hs, L.refl s, rfl⟩

/-- A read returns what comes next. -/
theorem alone_readAll (L : Logic RunState RunOp) (hs : L.inv s) (pos : UInt64) (limit : Nat) :
    L.Alone (execRun log) (OnOk fun evs t => t = s ∧ evs <+: log.after pos) (readAll pos limit).run s := by
  refine Alone.andThen (R := fun (res : Except Bytes (List Envelope)) t => t = s ∧
      ∀ evs, res = .ok evs → evs <+: log.after pos) (Alone.perform fun x t res hex => ?_) hs
    (fun res t _ _ hres => Alone.ofResult fun evs hevs => ⟨hres.1, hres.2 evs (mapError_eq_ok hevs)⟩)
  cases hex
  refine ⟨hs, L.refl s, rfl, fun evs hevs => ?_⟩
  rw [← (reply_eq_ok hevs).2]
  exact (List.take_prefix _ _).trans (List.take_prefix _ _)

/-- A feed that tries again delivers the same envelope. -/
theorem alone_retry (tries : Nat) (hs : RunInv r log s) (hnext : log.after s.cursor = e :: rest) :
    (applyLogic r log).Alone (execRun log) (OnOk fun _ t => UpTo r log t e.globalPosition)
      (retry r.apply e tries).run s := by
  induction tries generalizing s with
  | zero => exact trivial
  | succ tries ih =>
    refine Alone.tryCatch (alone_apply hs hnext) hs (fun _ _ h => h) fun _ t hle ht _ => ?_
    have hnext' : log.after t.cursor = e :: rest := hle.cursor ▸ hnext
    refine Alone.andThen (alone_sleep _ ht) ht fun _ u _ hu heq => ?_
    subst heq
    exact ih hu hnext'

/-- **The feed moves on** to a position that is done. -/
theorem alone_seek {o : RunOp} {pos : UInt64} (hs : RunInv r log s) (hpos : UpTo r log s pos)
    (ho : o = .seek pos ∨ ∃ e, o = .acknowledge e ∧ pos = e.globalPosition) :
    (feedLogic r log).Alone (execRun log) (OnOk fun _ t => t.cursor = pos)
      (perform o : RunAct RunError _).run s := by
  refine Alone.perform fun x t res hex => ?_
  rcases ho with rfl | ⟨e, rfl, rfl⟩
  all_goals
    cases hex
    exact ⟨hs.setCursor hpos, List.Subset.refl _, rfl⟩

/-- **A page** of the log, one envelope after the other. -/
theorem alone_deliverPage (tries : Nat) (evs : List Envelope) {pos : UInt64} (hs : RunInv r log s)
    (hcursor : s.cursor = pos) (hpage : evs <+: log.after pos) :
    (feedLogic r log).Alone (execRun log) (OnOk fun pos' t => t.cursor = pos')
      (deliverPage r.apply tries pos evs).run s := by
  induction evs generalizing s pos with
  | nil => exact hcursor
  | cons e evs ih =>
    -- the page begins with what comes next, and what is left of it follows that
    obtain ⟨rest, hrest⟩ := hpage
    have hnext : log.after pos = e :: (evs ++ rest) := hrest.symm
    refine Alone.andThen (Alone.ofApply (alone_retry tries hs (hcursor ▸ hnext))) hs fun _ t _ ht hdone => ?_
    refine Alone.andThen (alone_seek ht hdone.1 (.inr ⟨e, rfl, rfl⟩)) ht fun _ u _ hu hcursor' => ?_
    exact ih hu hcursor' ⟨rest, (after_next log.sorted hnext).symm⟩

/-- `LogFeed.Feed`, from where the feed stands. -/
theorem alone_loop (f : LogFeed) (tries rounds : Nat) {pos : UInt64} (hs : RunInv r log s)
    (hcursor : s.cursor = pos) :
    (feedLogic r log).Alone (execRun log) (OnOk fun _ _ => True)
      (f.loop r.apply tries rounds pos).run s := by
  induction rounds generalizing s pos with
  | zero => exact trivial
  | succ rounds ih =>
    refine Alone.andThen (alone_readAll _ hs pos f.batchSize) hs fun evs t _ ht hread => ?_
    obtain ⟨rfl, hpage⟩ := hread
    refine Alone.andThen (alone_deliverPage tries evs ht hcursor hpage) ht fun pos' u _ hu hcursor' => ?_
    refine Alone.ite (fun _ => ih hu hcursor') (fun _ => ?_)
    refine Alone.andThen (alone_sleep _ hu) hu fun _ v _ hv heq => ?_
    subst heq
    exact ih hv hcursor'

/-- `Run` over the log, from a position that is done. -/
theorem alone_run (f : LogFeed) (rounds tries : Nat) (hs : RunInv r log s)
    (hfrom : UpTo r log s f.fromPosition) :
    (feedLogic r log).Alone (execRun log) (OnOk fun _ _ => True) (r.run f rounds tries).run s := by
  refine Alone.andThen (Alone.ofApply (alone_loadMarker hs)) hs fun _ t hle ht _ => ?_
  refine Alone.andThen (alone_seek ht (hfrom.mono hle) (.inl rfl)) ht fun _ u _ hu hcursor => ?_
  exact alone_loop f tries rounds hu hcursor

/-- With nothing in memory, there is only the durable marker to ask about. -/
theorem runInv_restarted (hdurable : UpTo r log s (s.durable r.name))
    (hskipped : ∀ c ∈ s.calls, c.startedAt < c.env.globalPosition)
    (hordered : FirstsInOrder (fun e : Envelope => e.globalPosition.toNat)
      (fun e => e ∈ log.events ∧ r.consumes e = true) s.successes) : RunInv r log (s.restarted 0) where
  durable := hdurable
  pending pos h := by cases h
  marker h := by cases h
  startedAt h := by cases h
  cursor := upTo_zero r log _
  skipped := hskipped
  ordered := hordered

theorem runInv_fresh (r : Runner) (log : EventLog) : RunInv r log .fresh :=
  runInv_restarted (s := .fresh) (upTo_zero r log _) (fun _ h => absurd h List.not_mem_nil) firstsInOrder_nil

/-- **Every call keeps the invariant** at each of its steps, and so do restarts and crashes. -/
theorem keeps_projecting (r : Runner) (log : EventLog) : (projecting r log).Keeps (feedLogic r log) where
  prog c s hs haccepts := by
    cases c with
    | deliver e =>
      obtain ⟨rest, hnext⟩ := List.head?_eq_some_iff.mp (of_decide_eq_true haccepts)
      exact (Alone.andThen (Alone.ofApply (alone_apply hs hnext)) hs fun _ t _ ht hdone =>
        alone_seek ht hdone.1 (.inr ⟨e, rfl, rfl⟩)).weaken fun _ _ _ => trivial
    | run f rounds tries =>
      have hfrom : UpTo r log s f.fromPosition := hs.durable.of_le (of_decide_eq_true haccepts)
      exact (alone_run f rounds tries hs hfrom).weaken fun _ _ _ => trivial
    | loadMarker => exact (Alone.ofApply (alone_loadMarker hs)).weaken fun _ _ _ => trivial
    | flush =>
      exact (Alone.adapt (Alone.ofApply (Alone.ofMarker (alone_flush hs))) hs).weaken fun _ _ _ => trivial
    | saveOther projection position =>
      have hother : projection = r.name → UpTo r log s position :=
        fun hname => absurd hname (of_decide_eq_true haccepts)
      exact (Alone.adapt (Alone.ofApply (Alone.ofMarker (alone_save r.marker hs hother))) hs).weaken
        fun _ _ _ => trivial
  between pos s s' hs h := by
    simp only [projecting] at h
    split at h
    · rename_i hle
      cases h
      exact hs.setCursor (hs.durable.of_le hle)
    · cases h
  crash pos s s' hs h := by
    simp only [projecting] at h
    split at h
    · rename_i hle
      cases h
      exact (runInv_restarted hs.durable hs.skipped hs.ordered).setCursor (hs.durable.of_le hle)
    · cases h

/-- **A projection never skips an event.** Take any log, any filter, and any run of a runner: its feed
delivers the events in the order of the log and starts over from any position up to the durable marker;
dispatches, loads and saves fail in any way; and the process crashes at any point. In every state that is
reached,

* every event up to the durable marker that passes the filter was dispatched without an error,
* when an event was so dispatched for the first time, those that pass the filter had been before if they
  lie below it, and not if they lie above,
* no event was dispatched that lies at or below the marker that its process had loaded. -/
theorem projection_never_skips (r : Runner) (log : EventLog)
    {acts : List (ProcAction RunCall RunAnswer UInt64)}
    {P : Running RunState RunOp RunRes (Except RunError Unit)}
    (hrun : runActions (projecting r log).step (Process.rest .fresh) acts = some P) :
    (∀ e ∈ log.events, e.globalPosition ≤ P.shared.durable r.name → r.consumes e = true →
      e ∈ P.shared.successes) ∧
    FirstsInOrder (fun e : Envelope => e.globalPosition.toNat)
      (fun e => e ∈ log.events ∧ r.consumes e = true) P.shared.successes ∧
    ∀ c ∈ P.shared.calls, c.startedAt < c.env.globalPosition := by
  have hinv : RunInv r log P.shared :=
    Process.run_inv (keeps_projecting r log) (runInv_fresh r log) hrun
  exact ⟨hinv.durable, hinv.ordered, hinv.skipped⟩

end Runners

/-- An event of a counter. -/
def eventAt (pos : UInt64) : Envelope :=
  ⟨.zero 16, counterMain, pos, pos, [], str "counter.v1.Incremented", 1, ⟨0⟩, ⟨0⟩, .zero 16, .zero 16,
    .zero 16, ⟨str "user", str "alice"⟩, some [], none, none⟩

/-- A log of two events. -/
def twoEvents : EventLog := ⟨[eventAt 1, eventAt 2], by decide, by decide⟩

/-- A view that holds one save back. -/
def counterView : Runner := ⟨str "view", .buffered (newBufferedMarker ⟨2, 0⟩), none⟩

/-- Nothing fails. -/
def fine : RunAnswer := ⟨none, false, ⟨0⟩, [⟨str "view", 2⟩], 2⟩

/-- The first process crashes before it acknowledges the first event, and its save is lost. In the second
one `Dispatch` fails on the second event, and is called again. -/
def crashAndRetry : List (ProcAction RunCall RunAnswer UInt64) :=
  List.flatten [
    .start (.deliver (eventAt 1)) :: List.replicate 14 (.step fine),
    .crash 0 :: .start (.run ⟨0, 0⟩ 1 2) :: List.replicate 20 (.step fine),
    .step { fine with fault := some (str "timeout") } :: List.replicate 18 (.step fine)]

/-- The durable marker has arrived at the second event, and the events came in order. -/
theorem projection_never_skips_crashing :
    ∃ P, runActions (projecting counterView twoEvents).step (Process.rest .fresh) crashAndRetry = some P ∧
      P.shared.durable (str "view") = 2 ∧
      P.shared.calls.map (fun c => (c.env.globalPosition, c.ok)) =
        [(1, true), (1, true), (2, false), (2, true)] ∧
      (∀ e ∈ twoEvents.events, e ∈ P.shared.successes) ∧
      FirstsInOrder (fun e : Envelope => e.globalPosition.toNat)
        (fun e => e ∈ twoEvents.events ∧ counterView.consumes e = true) P.shared.successes := by
  refine exists_run_of (fun P => P.shared.durable (str "view") = 2 ∧
    P.shared.calls.map (fun c => (c.env.globalPosition, c.ok)) =
      [(1, true), (1, true), (2, false), (2, true)]) (by decide +kernel) ?_
  rintro P hrun ⟨hdurable, hcalls⟩
  obtain ⟨hdone, hordered, -⟩ := projection_never_skips counterView twoEvents hrun
  refine ⟨hdurable, hcalls, fun e he => hdone e he ?_ rfl, hordered⟩
  change e.globalPosition ≤ P.shared.durable (str "view")
  rw [hdurable]
  revert e
  decide

end EsLite.Projection
