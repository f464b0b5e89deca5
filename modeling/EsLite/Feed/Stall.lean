import EsLite.Es.Hash
import EsLite.Feed.Skip
import EsLite.Foundation.Monitor

/-!
# Stall reports

A stream tells an observer about its pages, about poison rows and about stalls. When a page leaves nothing
more to deliver, the stream compares the raw head of the log with its own position, at most once in three
seconds, and reports a stall when the raw head is above it. The observer and the probe change nothing of what
the stream does (`erases_stream`).

The position of a stream is that of an event of a type that its definition consumes; the raw head counts
events of all types. So a report means undeliverable backlog only if an event of a consumed type is committed
whenever any event is committed above the position (`stall_reports_backlog`): an event of another type is
reported as a stall, too (`foreign_event_reported`).
-/

namespace EsLite.Feed

open Prog Logic

/-! ## The stream and its observer -/

/-- What a stream tells its observer. -/
inductive Signal where
  | onPage (events bytes : Nat)
  | onPoison (position : Nat) (typeURL : Bytes) (size limit : Nat)
  | onStall (settledHead rawHead : Nat)
deriving DecidableEq

/-- The calls of a stream with its observer. -/
inductive StreamCall where
  /-- A call that the stream makes itself. -/
  | own (o : Op)
  /-- A call that is made while the sink handles an event. -/
  | sink (o : Op)
  | now
  /-- The raw head, read by the stall probe. -/
  | rawHead (scope : Bytes)
  | observe (signal : Signal)
deriving DecidableEq

/-- What each call returns. -/
def CallRes : StreamCall → Type
  | .own o => Res o
  | .sink o => Res o
  | .now => Time
  | .rawHead _ => Except Failure Nat
  | .observe _ => Unit

/-- A method of the server that is observed. -/
abbrev Observed (α : Type) := ExceptT FeedError (Prog StreamCall CallRes) α

variable {o : StreamCall} {b : Bool} {scope : Bytes}

namespace Observed

/-- The stream makes the calls of a method. -/
def own {α : Type} (p : Server α) : Observed α := ExceptT.mk (translate StreamCall.own (fun _ r => r) p.run)

/-- The sink makes the calls of a method. -/
def inSink {α : Type} (p : Server α) : Observed α :=
  ExceptT.mk (translate StreamCall.sink (fun _ r => r) p.run)

/-- Make one call. -/
def ask (o : StreamCall) : Prog StreamCall CallRes (CallRes o) := Prog.op o

/-- Make one call, in a method. -/
def aside (o : StreamCall) : Observed (CallRes o) := ExceptT.lift (ask o)

/-- Tell the observer. -/
def observe (signal : Signal) : Observed Unit := aside (.observe signal)

/-- The probe is made at most once in three seconds. -/
def stallProbeEvery : Int64 := 3000000000

/-- The state of the stall detection. -/
structure Probe where
  lastProbe : Time
  stallReported : Bool

/-- No probe was made yet. -/
def Probe.start : Probe := ⟨.zero, false⟩

/-- Report a stall if the raw head is above the position; a failure to read it is ignored. -/
def onRawHead (pos : Nat) (st : Probe) : Except Failure Nat → Prog StreamCall CallRes Probe
  | .error _ => pure st
  | .ok raw =>
    if pos < raw then do
      let _ ← ask (.observe (.onStall pos raw))
      pure { st with stallReported := true }
    else pure st

/-- The stall probe: one report in each episode, and at most one probe in each window. -/
def probeStall (scope : Bytes) (pos : Nat) (st : Probe) : Prog StreamCall CallRes Probe :=
  if st.stallReported then pure st
  else do
    let now : Time ← ask .now
    if now.sub st.lastProbe < stallProbeEvery then pure st
    else do
      let lastProbe : Time ← ask .now
      let raw ← ask (.rawHead scope)
      onRawHead pos { st with lastProbe := lastProbe } raw

/-- What a stream does with the reply of a page read. -/
def onRead : Except ReadError (List Event × Bool) → Observed (List Event × Bool)
  | .ok page => pure page
  | .error (.tooLarge position typeURL size limit) => do
    observe (.onPoison position typeURL size limit)
    throw (.eventTooLarge position typeURL size limit)
  | .error .failed => throw (.port .read)

/-- Read one page. -/
def readPage (cfg : Config) (req : Request) (batch pos : Nat) : Observed (List Event × Bool) := do
  let r ← aside (.own (.readAllBounded req.key.scope pos batch cfg.maxBatchBytes req.definition.consumes))
  onRead r

/-- The backstop against a row over the payload limit. -/
def refuse (cfg : Config) (e : Event) : Observed Unit := do
  observe (.onPoison e.globalPosition e.typeURL e.payload.length cfg.maxPayloadBytes.toNat)
  throw (.eventTooLarge e.globalPosition e.typeURL e.payload.length cfg.maxPayloadBytes.toNat)

/-- Send one page, and return the position reached. -/
def sendPage (cfg : Config) (sink : Sink) : Nat → List Event → Observed Nat
  | pos, [] => pure pos
  | _, e :: es => do
    if 0 < cfg.maxPayloadBytes ∧ cfg.maxPayloadBytes < e.payload.length then refuse cfg e
    inSink (tryCatch (sink e) (fun err => throw (.send e.globalPosition err)))
    sendPage cfg sink e.globalPosition es

/-- A page that delivered events ends an episode. -/
def Probe.delivered (st : Probe) (page : List Event) : Probe :=
  { st with stallReported := st.stallReported && page.isEmpty }

/-- The read and send loop. -/
def readLoop (cfg : Config) (req : Request) (sink : Sink) (batch : Nat) :
    (fuel pos : Nat) → Probe → Observed Unit
  | 0, _, _ => throw .outOfFuel
  | n + 1, pos, st => do
    own (port .context (Prog.op Op.pause))
    let (page, truncated) ← readPage cfg req batch pos
    observe (.onPage page.length (page.map (·.payload.length)).sum)
    let pos ← sendPage cfg sink pos page
    let st := st.delivered page
    if page ≠ [] ∧ (truncated ∨ batch ≤ page.length) then
      readLoop cfg req sink batch n pos st
    else
      let st ← ExceptT.lift (probeStall req.key.scope pos st)
      own (port .context (Prog.op Op.pause))
      readLoop cfg req sink batch n pos st

/-- The stream, from the checkpoint to the loop. -/
def stream (cfg : Config) (req : Request) (sink : Sink) (session fuel : Nat) : Observed Unit := do
  own (port .openLog (Prog.op (Op.openLog req.key.scope)))
  let cp ← own (port .loadCheckpoint (Prog.op (Op.checkpoint req.key)))
  let stored := (cp.map (·.position)).getD 0
  let definition := (cp.map (·.definitionHash)).getD []
  if definition ≠ [] ∧ definition ≠ req.definition.hash then
    throw (.definitionChanged req.definition.name definition req.definition.hash)
  let head ← own (port .head (Prog.op (Op.head req.key.scope)))
  let pos ← own (clamp req.key.scope stored fuel head)
  let _ ← own (perform (.begin ⟨session, req.key, req.definition, stored, pos⟩))
  readLoop cfg req sink (batchSize cfg req.batchSize) fuel pos .start

/-! ## The observer changes nothing -/

/-- What is left of a call when nothing is observed. -/
def unobserved : (o : StreamCall) → Option ((o' : Op) × (CallRes o → Res o'))
  | .own o => some ⟨o, fun r => r⟩
  | .sink o => some ⟨o, fun r => r⟩
  | _ => none

section Erases

variable {α β : Type}

theorem erases_own (p : Server α) : Erases unobserved (own p).run p.run :=
  erases_translate (fun _ => rfl) p.run

theorem erases_inSink (p : Server α) : Erases unobserved (inSink p).run p.run :=
  erases_translate (fun _ => rfl) p.run

/-- A call on the side, before the rest. -/
theorem erases_aside (ho : unobserved o = none) {f : CallRes o → Observed α}
    {p : Prog Op Res (Except FeedError α)} (hf : ∀ r, Erases unobserved (f r).run p) :
    Erases unobserved (aside o >>= f).run p :=
  .aside ho hf

theorem erases_sendPage (cfg : Config) (sink : Sink) (pos : Nat) (page : List Event) :
    Erases unobserved (sendPage cfg sink pos page).run (Feed.sendPage cfg sink pos page).run := by
  induction page generalizing pos with
  | nil => exact .ret _
  | cons e es ih =>
    simp only [sendPage, Feed.sendPage]
    split
    · exact erases_aside rfl (fun _ => .ret _)
    · exact (erases_inSink _).bindExcept (fun _ => ih e.globalPosition)

theorem erases_readPage (cfg : Config) (req : Request) (batch pos : Nat) :
    Erases unobserved (readPage cfg req batch pos).run (Feed.readPage cfg req batch pos).run := by
  refine .call rfl (fun r => ?_)
  rcases (r : Except ReadError (List Event × Bool)) with (_ | _) | page
  · exact .ret _
  · exact erases_aside rfl (fun _ => .ret _)
  · exact .ret _

/-- The probe only makes calls on the side. -/
theorem issues_probeStall (scope : Bytes) (pos : Nat) (st : Probe) :
    Issues (fun o => unobserved o = none) (probeStall scope pos st) := by
  have honRawHead : ∀ st r, Issues (fun o => unobserved o = none) (onRawHead pos st r) := by
    intro st r
    unfold onRawHead
    split
    · exact trivial
    · split
      · exact ⟨rfl, fun _ => trivial⟩
      · exact trivial
  unfold probeStall
  split
  · exact trivial
  refine ⟨rfl, fun now => ?_⟩
  show Issues _ (if now.sub st.lastProbe < stallProbeEvery then _ else _)
  split
  · exact trivial
  · exact ⟨rfl, fun lastProbe => ⟨rfl, fun raw => honRawHead _ raw⟩⟩

/-- A program that only makes calls on the side and cannot fail, before the rest. -/
theorem erases_lift {q : Prog StreamCall CallRes β} (hq : Issues (fun o => unobserved o = none) q)
    {f : β → Observed α} {p : Prog Op Res (Except FeedError α)}
    (hf : ∀ b, Erases unobserved (f b).run p) : Erases unobserved (ExceptT.lift q >>= f).run p := by
  show Erases unobserved ((q >>= fun b => .ret (.ok b)) >>= ExceptT.bindCont f) p
  rw [bind_assoc]
  exact .asides hq hf

/-- The loop with its observer does what the loop does. -/
theorem erases_readLoop (cfg : Config) (req : Request) (sink : Sink) (batch fuel pos : Nat) (st : Probe) :
    Erases unobserved (readLoop cfg req sink batch fuel pos st).run
      (Feed.readLoop cfg req sink batch fuel pos).run := by
  induction fuel generalizing pos st with
  | zero => exact .ret _
  | succ n ih =>
    simp only [readLoop, Feed.readLoop]
    refine (erases_own _).bindExcept (fun _ => ?_)
    refine (erases_readPage cfg req batch pos).bindExcept (fun page => ?_)
    refine erases_aside rfl (fun _ => ?_)
    refine (erases_sendPage cfg sink pos page.1).bindExcept (fun pos' => ?_)
    split
    · exact ih pos' _
    · exact erases_lift (issues_probeStall _ _ _) (fun st' => (erases_own _).bindExcept (fun _ => ih pos' st'))

/-- **The observer changes nothing**: apart from the probes and the signals, an observed stream makes the
calls of the stream, and ends as it does. -/
theorem erases_stream (cfg : Config) (req : Request) (sink : Sink) (session fuel : Nat) :
    Erases unobserved (stream cfg req sink session fuel).run (Feed.stream cfg req sink session fuel).run := by
  refine (erases_own _).bindExcept (fun _ => (erases_own _).bindExcept (fun cp => ?_))
  dsimp only
  split
  · exact .ret _
  refine (erases_own _).bindExcept (fun head => (erases_own _).bindExcept (fun pos => ?_))
  exact (erases_own _).bindExcept (fun _ => erases_readLoop cfg req sink _ fuel pos .start)

end Erases

end Observed

/-! ## What a stream does before a report -/

/-- A call that was performed. -/
abbrev Entry := Performed State StreamCall CallRes

/-- Where a stream stands: its position, and the page that it has read last. -/
structure Cursor where
  position : Nat
  page : List Event

/-- The position after a page is that of its last event. -/
def Cursor.read (c : Cursor) (page : List Event) : Cursor :=
  ⟨(page.getLast?.map (·.globalPosition)).getD c.position, page⟩

/-- What a stream has done so far. -/
structure Watch where
  cursor : Cursor
  /-- A stall was reported since the last page with events. -/
  reported : Bool
  /-- The raw head, if it was read by the last call. -/
  probed : Option Nat

/-- A stream that has not started. -/
def Watch.start : Watch := ⟨⟨0, []⟩, false, none⟩

/-- The page that a stream has read. -/
def pageRead : (o : StreamCall) → CallRes o → Option (List Event)
  | .own (.readAllBounded ..), .ok page => some page.1
  | _, _ => none

/-- What a call and its reply say about a stream. -/
def Watch.note (w : Watch) : (o : StreamCall) → CallRes o → Watch
  | .own (.begin st), _ => ⟨⟨st.position, []⟩, w.reported, none⟩
  | .own (.readAllBounded ..), .ok page => ⟨w.cursor.read page.1, w.reported && page.1.isEmpty, none⟩
  | .rawHead _, .ok raw => { w with probed := some raw }
  | .observe (.onStall _ _), _ => ⟨w.cursor, true, none⟩
  | _, _ => { w with probed := none }

/-- **When a stall may be reported**: it has not been since the last page with events, and the raw head that
was just read is above the position. -/
def stallMonitor (scope : Bytes) : Monitor Watch StreamCall CallRes where
  note := Watch.note
  accepts w
    | .rawHead scope' => scope' = scope
    | .observe (.onStall settled raw) =>
      w.reported = false ∧ w.probed = some raw ∧ settled = w.cursor.position ∧ settled < raw
    | _ => True

/-- The calls that neither move a stream nor are reports. -/
def StreamCall.Still : StreamCall → Prop
  | .own (.begin _) => False
  | .own (.readAllBounded ..) => False
  | .rawHead _ => False
  | .observe (.onStall ..) => False
  | _ => True

/-- The calls of a stream that are neither its start nor a page read. -/
def Op.Still (o : Op) : Prop := (StreamCall.own o).Still

variable {c : Cursor} {h : List Entry}

section Watched

variable {scope : Bytes} {α : Type} {w : Watch}

/-- A call that leaves the stream where it is. -/
theorem note_still (ho : o.Still) (r : CallRes o) :
    (w.note o r).cursor = w.cursor ∧ (w.note o r).reported = w.reported := by
  unfold Watch.note
  split
  · exact ho.elim
  · exact ho.elim
  · exact ho.elim
  · exact ho.elim
  · exact ⟨rfl, rfl⟩

theorem accepts_still (ho : o.Still) : (stallMonitor scope).accepts w o := by
  unfold stallMonitor
  dsimp only
  split
  · exact ho.elim
  · exact ho.elim
  · trivial

/-- The stream is at the cursor, and has reported or not. -/
def Watch.At (w : Watch) (c : Cursor) (reported : Bool) : Prop := w.cursor = c ∧ w.reported = reported

/-- Calls that leave the stream where it is. -/
theorem watched_still {p : Prog StreamCall CallRes α} (hp : Issues StreamCall.Still p) (hw : w.At c b) :
    Watched (stallMonitor scope) (fun _ w => w.At c b) p w := by
  refine Watched.of_issues (fun o ho g hg => ⟨accepts_still ho, fun r => ?_⟩) hp hw
  obtain ⟨hcursor, hreported⟩ := note_still (w := g) ho r
  exact ⟨hcursor.trans hg.1, hreported.trans hg.2⟩

/-- The same, in a method that may fail. -/
theorem watched_method {p : Observed α} (hp : Issues StreamCall.Still p.run) (hw : w.At c b) :
    Watched (stallMonitor scope) (OnOk fun _ w => w.At c b) p.run w := by
  refine (watched_still hp hw).weaken (fun r g hg => ?_)
  cases r with
  | ok a => exact hg
  | error err => trivial

theorem still_own {p : Server α} (hp : Issues Op.Still p.run) :
    Issues StreamCall.Still (Observed.own p).run :=
  Issues.translate (f := StreamCall.own) (fun o (ho : (StreamCall.own o).Still) => ho) hp

theorem still_inSink (p : Server α) : Issues StreamCall.Still (Observed.inSink p).run :=
  Issues.translate (fun _ _ => trivial) (issues_all (fun _ => trivial) p.run)

/-- **A page is read.** -/
theorem watched_readPage (cfg : Config) (req : Request) (batch pos : Nat) (hw : w.At c b) :
    Watched (stallMonitor scope)
      (OnOk fun page w => w.At (c.read page.1) (b && page.1.isEmpty))
      (Observed.readPage cfg req batch pos).run w := by
  obtain ⟨rfl, rfl⟩ := hw
  refine ⟨trivial, fun r => ?_⟩
  rcases (r : Except ReadError (List Event × Bool)) with (_ | _) | page
  · trivial
  · exact ⟨trivial, fun _ => trivial⟩
  · exact ⟨rfl, rfl⟩

/-- **A page is sent**: the stream is then at its last event. -/
theorem watched_sendPage (cfg : Config) (sink : Sink) (pos : Nat) (page : List Event) (hw : w.At c b) :
    Watched (stallMonitor scope)
      (OnOk fun pos' w => pos' = (page.getLast?.map (·.globalPosition)).getD pos ∧ w.At c b)
      (Observed.sendPage cfg sink pos page).run w := by
  induction page generalizing pos w with
  | nil => exact ⟨rfl, hw⟩
  | cons e es ih =>
    simp only [Observed.sendPage]
    split
    · exact ⟨trivial, fun _ => trivial⟩
    · refine Watched.andThen ((watched_method (still_inSink _) hw).weaken (fun r g hg => ?_))
      cases r with
      | error err => trivial
      | ok u =>
        refine (ih e.globalPosition hg).weaken (fun r g hr => ?_)
        cases r with
        | error err => trivial
        | ok pos' =>
          refine ⟨hr.1.trans ?_, hr.2⟩
          rw [List.getLast?_cons]
          cases es.getLast? <;> rfl

/-- **The probe** reports what it has read, once. -/
theorem watched_probeStall (st : Observed.Probe) (hw : w.At c st.stallReported) :
    Watched (stallMonitor scope) (fun st w => w.At c st.stallReported)
      (Observed.probeStall scope c.position st) w := by
  obtain ⟨rfl, hreported⟩ := hw
  unfold Observed.probeStall
  split
  · exact ⟨rfl, hreported⟩
  rename_i hnot
  rw [Bool.not_eq_true] at hnot
  refine ⟨trivial, fun now => ?_⟩
  show Watched _ _ (if now.sub st.lastProbe < Observed.stallProbeEvery then _ else _) _
  split
  · exact ⟨rfl, hreported⟩
  refine ⟨trivial, fun lastProbe => ⟨rfl, fun r => ?_⟩⟩
  rcases (r : Except Failure Nat) with _ | raw
  · exact ⟨rfl, hreported⟩
  show Watched _ _ (if w.cursor.position < raw then _ else _) _
  split
  · rename_i hraw
    exact ⟨⟨hreported.trans hnot, rfl, rfl, hraw⟩, fun _ => ⟨rfl, rfl⟩⟩
  · exact ⟨rfl, hreported⟩

/-- **The loop** reports as it may. -/
theorem watched_readLoop (cfg : Config) (req : Request) (sink : Sink) (batch fuel : Nat) {pos : Nat}
    (st : Observed.Probe) (hpos : w.cursor.position = pos) (hw : w.reported = st.stallReported) :
    Watched (stallMonitor req.key.scope) (OnOk fun _ _ => True)
      (Observed.readLoop cfg req sink batch fuel pos st).run w := by
  have hpause : Issues StreamCall.Still (Observed.own (port .context (Prog.op Op.pause))).run :=
    still_own (port_issues (.op trivial))
  have hobserve : ∀ n m, Issues StreamCall.Still (Observed.observe (.onPage n m)).run :=
    fun n m => ⟨trivial, fun _ => trivial⟩
  induction fuel generalizing pos st w with
  | zero => trivial
  | succ n ih =>
    simp only [Observed.readLoop]
    refine Watched.andThen ((watched_method hpause ⟨rfl, hw⟩).onOk fun _ g hg => ?_)
    refine Watched.andThen ((watched_readPage cfg req batch pos hg).onOk fun page g hg => ?_)
    refine Watched.andThen ((watched_method (hobserve _ _) hg).onOk fun _ g hg => ?_)
    refine Watched.andThen ((watched_sendPage cfg sink pos page.1 hg).onOk fun pos' g hsent => ?_)
    obtain ⟨rfl, hat⟩ := hsent
    have hposition : g.cursor.position = (page.1.getLast?.map (·.globalPosition)).getD pos := by
      rw [hat.1, ← hpos]
      rfl
    split
    · exact ih (st.delivered page.1) hposition hat.2
    · rw [← hposition]
      refine Watched.andThen (Watched.bind ((watched_probeStall (st.delivered page.1) ⟨rfl, hat.2⟩).weaken
        fun st' g' hprobed => ?_))
      refine Watched.andThen ((watched_method hpause hprobed).onOk fun _ g'' hend => ?_)
      exact ih st' (congrArg Cursor.position hend.1) hend.2

/-- **A stream** reports as it may. -/
theorem watched_stream (cfg : Config) (req : Request) (sink : Sink) (session fuel : Nat) :
    Watched (stallMonitor req.key.scope) (OnOk fun _ _ => True)
      (Observed.stream cfg req sink session fuel).run .start := by
  have hown : ∀ {α β : Type} {p : Server α} {f : α → Observed β} {w : Watch}, Issues Op.Still p.run →
      w.reported = false → (∀ a w, w.reported = false → Watched (stallMonitor req.key.scope)
        (OnOk fun _ _ => True) (f a).run w) →
      Watched (stallMonitor req.key.scope) (OnOk fun _ _ => True) (Observed.own p >>= f).run w := by
    intro α β p f w hp hw hf
    exact Watched.andThen ((watched_method (still_own hp) ⟨rfl, hw⟩).onOk fun a g hg => hf a g hg.2)
  refine hown (port_issues (.op trivial)) rfl fun _ w hw => ?_
  refine hown (port_issues (.op trivial)) hw fun cp w hw => ?_
  dsimp only
  split
  · trivial
  refine hown (port_issues (.op trivial)) hw fun head w hw => ?_
  refine hown (clamp_issues trivial trivial trivial fuel head) hw fun pos w hw => ?_
  exact Watched.andThen ⟨trivial, fun _ => watched_readLoop cfg req sink _ fuel .start rfl hw⟩

end Watched

/-! ## Runs -/

/-- What the environment decides about a call. -/
structure StreamChoice extends Choice where
  /-- The clock. -/
  time : Time := .zero

/-- **What a raw head may be**: the position of a committed event, or `0`. That it is the highest one does not
matter here. -/
def Log.Reaches (log : Log) (scope : Bytes) (n : Nat) : Prop := n = 0 ∨ (log.event scope n).isSome

instance (log : Log) (scope : Bytes) (n : Nat) : Decidable (log.Reaches scope n) :=
  inferInstanceAs (Decidable (n = 0 ∨ (log.event scope n).isSome))

/-- The effect of a call. -/
def execCall (A : Adapter) (ever : Log) : (o : StreamCall) → StreamChoice → State → Option (State × CallRes o)
  | .own o, c, s => exec A ever o c.toChoice s
  | .sink o, c, s => exec A ever o c.toChoice s
  | .now, c, s => some (s, c.time)
  | .rawHead scope, c, s =>
    if s.log.Reaches scope c.number then some (answer c.toChoice s s c.number) else none
  | .observe _, _, s => some (s, ())

/-- A stream, or any other method over the same stores. -/
inductive Client where
  | stream (cfg : Config) (req : Request) (sink : Sink) (session fuel : Nat)
  | other (method : Server Unit)

def Client.program : Client → Observed Unit
  | .stream cfg req sink session fuel => Observed.stream cfg req sink session fuel
  | .other method => Observed.own method

/-- Any number of streams and other methods over the feed's shared state, and any appends. -/
def observedSystem (A : Adapter) (ever : Log) :
    System State Client StreamCall CallRes (Except FeedError Unit) StreamChoice EnvStep where
  prog c := c.program.run
  exec := execCall A ever
  env := envStep ever

/-- Nothing is known of a state but that its log only grows. -/
def logLogic : Logic State StreamCall where
  inv _ := True
  le s t := s.log.Le t.log
  allowed _ _ := True
  refl _ := .refl _
  trans _ _ _ := .trans

/-- A log to which an event of a larger one is added. -/
theorem Log.add_le {l l' : Log} {e : Event} (h : l.Le l')
    (he : l'.event scope e.globalPosition = some e) : (l.add scope e).Le l' := by
  intro scope' p e' he'
  simp only [Log.add] at he'
  by_cases hs : scope' = scope
  · subst hs
    rw [Function.update_self] at he'
    by_cases hp : p = e.globalPosition
    · subst hp
      rw [Function.update_self] at he'
      cases he'
      exact he
    · rw [Function.update_of_ne hp] at he'
      exact h _ _ _ he'
  · rw [Function.update_of_ne hs] at he'
    exact h _ _ _ he'

variable {as : List (PoolAction Client StreamChoice EnvStep)}

section Runs

variable {A : Adapter} {ever : Log} {s s' : State}

/-- No call writes the log. -/
theorem exec_log {o : Op} {c : Choice} {r : Res o} (h : exec A ever o c s = some (s', r)) :
    s'.log = s.log := by
  cases o with
  | acquire k owner consumer ttl =>
    simp only [exec] at h
    cases hf : c.fault <;> rw [hf] at h <;> cases h <;> rfl
  | readAllBounded scope pos limit maxBytes types =>
    simp only [exec] at h
    split at h
    · split at h <;> cases h
      rfl
    · cases h
      rfl
    · cases h
      rfl
  | handle i k d e =>
    simp only [exec] at h
    cases hf : c.fault <;> rw [hf] at h <;> cases h <;> rfl
  | claim i =>
    simp only [exec, State.claim] at h
    split at h <;> cases h <;> rfl
  | clock | newOwner | select | begin st | account i p batch =>
    cases h
    rfl
  | _ => exact answer_preserves (I := fun t => t.log = s.log) h rfl rfl

theorem execCall_log {c : StreamChoice} {r : CallRes o} (h : execCall A ever o c s = some (s', r)) :
    s'.log = s.log := by
  cases o with
  | own o => exact exec_log h
  | sink o => exact exec_log h
  | now =>
    cases h
    rfl
  | rawHead scope =>
    simp only [execCall] at h
    split at h
    · exact answer_preserves (I := fun t => t.log = s.log) h rfl rfl
    · cases h
  | observe signal =>
    cases h
    rfl

/-- What a stream has done in a history. -/
def watch (h : List Entry) : Watch := h.foldl (fun w e => w.note e.op e.reply) .start

/-- The pages that a stream has read. -/
def pagesRead (h : List Entry) : List (List Event) := h.filterMap (fun e => pageRead e.op e.reply)

/-- **Undeliverable backlog**: an event of a consumed type is committed above the position, and the page that
was just read did not return it. -/
def Backlog (scope : Bytes) (types : List Bytes) (c : Cursor) (s : State) : Prop :=
  ∃ e : Event, s.log.event scope e.globalPosition = some e ∧ e.typeURL ∈ types ∧
    c.position < e.globalPosition ∧ e ∉ c.page

/-- If an event is committed above the position, then one of a consumed type is. -/
def MatchingAbove (scope : Bytes) (types : List Bytes) (c : Cursor) (s : State) : Prop :=
  (∃ e : Event, s.log.event scope e.globalPosition = some e ∧ c.position < e.globalPosition) →
    ∃ e : Event, s.log.event scope e.globalPosition = some e ∧ e.typeURL ∈ types ∧
      c.position < e.globalPosition

/-- **At most one report between two pages with events.** -/
def ReportsOnce (h : List Entry) : Prop :=
  ∀ pre mid post (e e' : Entry) settled raw settled' raw', h = pre ++ e :: (mid ++ e' :: post) →
    e.op = .observe (.onStall settled raw) → e'.op = .observe (.onStall settled' raw') →
    ∃ page ∈ pagesRead mid, page ≠ []

/-- Every report is of undeliverable backlog above the position of the stream. -/
def ReportsBacklog (scope : Bytes) (types : List Bytes) (h : List Entry) : Prop :=
  ∀ pre post (e : Entry) settled raw, h = pre ++ e :: post → e.op = .observe (.onStall settled raw) →
    settled = (watch pre).cursor.position ∧ Backlog scope types (watch pre).cursor e.before

/-- Whenever the raw head is read for a probe, the events above the position are not all of other types. -/
def ProbesMatching (scope : Bytes) (types : List Bytes) (h : List Entry) : Prop :=
  ∀ pre post (e : Entry), h = pre ++ e :: post → e.op = .rawHead scope →
    MatchingAbove scope types (watch pre).cursor e.before

/-- What a call can do to where a stream stands: it reads a page, or starts, or leaves it there. -/
theorem note_cases (w : Watch) (o : StreamCall) (r : CallRes o) :
    (∃ page, pageRead o r = some page ∧
      w.note o r = ⟨w.cursor.read page, w.reported && page.isEmpty, none⟩) ∨
    (((w.note o r).cursor = w.cursor ∨ ∃ p, (w.note o r).cursor = ⟨p, []⟩) ∧
      (w.reported = true → (w.note o r).reported = true)) := by
  cases o with
  | own o =>
    cases o with
    | readAllBounded scope pos limit maxBytes types =>
      rcases (r : Except ReadError (List Event × Bool)) with err | page
      · exact .inr ⟨.inl rfl, id⟩
      · exact .inl ⟨page.1, rfl, rfl⟩
    | begin st => exact .inr ⟨.inr ⟨st.position, rfl⟩, id⟩
    | _ => exact .inr ⟨.inl rfl, id⟩
  | sink o => exact .inr ⟨.inl rfl, id⟩
  | now => exact .inr ⟨.inl rfl, id⟩
  | rawHead scope =>
    rcases (r : Except Failure Nat) with err | raw
    · exact .inr ⟨.inl rfl, id⟩
    · exact .inr ⟨.inl rfl, id⟩
  | observe signal =>
    cases signal with
    | onStall settled raw => exact .inr ⟨.inl rfl, fun _ => rfl⟩
    | _ => exact .inr ⟨.inl rfl, id⟩

/-- A report is forgotten only at a page with events. -/
theorem page_of_reported {w : Watch} (hw : w.reported = true)
    (hend : (h.foldl (fun w e => w.note e.op e.reply) w).reported = false) :
    ∃ page ∈ pagesRead h, page ≠ [] := by
  induction h generalizing w with
  | nil =>
    rw [List.foldl_nil, hw] at hend
    cases hend
  | cons e es ih =>
    by_cases hnext : (w.note e.op e.reply).reported = true
    · obtain ⟨page, hpage, hne⟩ := ih hnext hend
      exact ⟨page, List.mem_filterMap.mpr ((List.mem_filterMap.mp hpage).imp fun x hx =>
        ⟨List.mem_cons_of_mem e hx.1, hx.2⟩), hne⟩
    · rcases note_cases w e.op e.reply with ⟨page, hpage, hnote⟩ | ⟨-, hkeeps⟩
      · refine ⟨page, List.mem_filterMap.mpr ⟨e, List.mem_cons_self, hpage⟩, ?_⟩
        rintro rfl
        rw [hnote, hw] at hnext
        exact hnext rfl
      · exact absurd (hkeeps hw) hnext

/-- The events of a page are not above the position after it. -/
theorem position_of_sorted {page : List Event}
    (h : page.Pairwise (fun a b => a.globalPosition < b.globalPosition)) :
    ∀ e ∈ (c.read page).page, e.globalPosition ≤ (c.read page).position := by
  intro e he
  rcases List.eq_nil_or_concat' page with rfl | ⟨init, last, rfl⟩
  · exact absurd he List.not_mem_nil
  have hlast : (c.read (init ++ [last])).position = last.globalPosition := by
    rw [Cursor.read, List.getLast?_concat]
    rfl
  rw [hlast]
  rcases List.mem_append.mp he with hinit | hmem
  · exact ((List.pairwise_append.mp h).2.2 e hinit last (List.mem_singleton_self last)).le
  · rw [List.mem_singleton.mp hmem]

/-- A page is in the order of its positions. -/
theorem sorted_of_pageRead {c : StreamChoice} {r : CallRes o} {page : List Event}
    (hex : execCall A ever o c s = some (s', r)) (hpage : pageRead o r = some page) :
    page.Pairwise (fun a b => a.globalPosition < b.globalPosition) := by
  unfold pageRead at hpage
  split at hpage
  · cases hpage
    exact ((exec_readAllBounded (A := A) hex).2 _ rfl).sorted
  · cases hpage

/-- The page that a stream has read last is not above its position. -/
theorem page_le_position {t u : State} (hchain : logLogic.Chain (execCall A ever) t h u) {w : Watch}
    (hw : ∀ e ∈ w.cursor.page, e.globalPosition ≤ w.cursor.position) :
    ∀ e ∈ (h.foldl (fun w e => w.note e.op e.reply) w).cursor.page,
      e.globalPosition ≤ (h.foldl (fun w e => w.note e.op e.reply) w).cursor.position := by
  induction h generalizing w t with
  | nil => exact hw
  | cons x xs ih =>
    obtain ⟨-, -, ⟨ch, hex⟩, -, hrest⟩ := hchain
    refine ih hrest ?_
    show ∀ e ∈ (w.note x.op x.reply).cursor.page, e.globalPosition ≤ (w.note x.op x.reply).cursor.position
    rcases note_cases w x.op x.reply with ⟨page, hpage, hnote⟩ | ⟨hcursor | ⟨p, hcursor⟩, -⟩
    · rw [hnote]
      exact position_of_sorted (sorted_of_pageRead hex hpage)
    · rw [hcursor]
      exact hw
    · rw [hcursor]
      exact fun e he => absurd he List.not_mem_nil

/-- The raw head that was just read was read by the last call. -/
theorem eq_of_probed {w : Watch} {x : Entry} {raw : Nat} (h : (w.note x.op x.reply).probed = some raw) :
    (∃ scope, x = ⟨.rawHead scope, x.before, x.after, .ok raw⟩) ∧ (w.note x.op x.reply).cursor = w.cursor := by
  obtain ⟨o, t, t', r⟩ := x
  cases o with
  | rawHead scope =>
    rcases (r : Except Failure Nat) with err | raw'
    · cases h
    · cases h
      exact ⟨⟨scope, rfl⟩, rfl⟩
  | own o =>
    cases o with
    | readAllBounded scope pos limit maxBytes types =>
      rcases (r : Except ReadError (List Event × Bool)) with err | page
      · cases h
      · cases h
    | _ => cases h
  | observe signal => cases signal <;> cases h
  | sink o => cases h
  | now => cases h

/-- A raw head above the position is an event above the position. -/
theorem exists_above {ch : StreamChoice} {raw n : Nat}
    (hex : execCall A ever (.rawHead scope) ch s = some (s', .ok raw)) (hn : n < raw) :
    ∃ e : Event, s.log.event scope e.globalPosition = some e ∧ n < e.globalPosition := by
  simp only [execCall] at hex
  split at hex
  · rename_i hreaches
    obtain ⟨-, rfl⟩ := answer_eq_ok (Option.some.inj hex)
    rcases hreaches with hzero | hsome
    · omega
    · obtain ⟨e, he⟩ := Option.isSome_iff_exists.mp hsome
      have hposition := s.log.position _ _ _ he
      refine ⟨e, ?_, ?_⟩
      · rw [hposition]
        exact he
      · rw [hposition]
        exact hn
  · cases hex

/-- Every program is verified where nothing but the growth of the log is known. -/
theorem wp_program (p : Prog StreamCall CallRes (Except FeedError Unit)) (t : State) :
    logLogic.WP (observedSystem A ever) (fun _ _ => True) p t := by
  refine WP.of_issues (O := fun _ => True) (fun o _ t _ _ ch t' r hex => ⟨trivial, ?_⟩)
    (issues_all (fun _ => trivial) p) t
  show t.log.Le t'.log
  rw [execCall_log hex]
  exact .refl _

/-- **Where a stream stands**: its history is performed by its program, what is left of it is left in the
pool, and the log only grows. -/
theorem at_of_stream {j : Nat} {c : Client}
    {P P₁ P' : Pool State Client StreamCall CallRes (Except FeedError Unit)}
    (hcall : (observedSystem A ever).step P (.spawn j c) = some P₁)
    (hrun : runActions (observedSystem A ever).step P₁ as = some P') :
    ∃ q, Performs ((observedSystem A ever).history j P₁ as) c.program.run q ∧ P'.At j c q ∧
      logLogic.Chain (execCall A ever) P₁.shared ((observedSystem A ever).history j P₁ as) P'.shared := by
  have hsound : logLogic.Sound (observedSystem A ever) (fun _ _ _ => True) P₁ :=
    ⟨trivial, fun _ _ p _ => wp_program p _, fun _ _ _ _ _ => trivial⟩
  have hguarded : GuardedRun (observedSystem A ever).step
      (System.Allows (fun _ _ => True) logLogic.allowed) P₁ as P' :=
    (guardedRun_of_run hrun).mono (fun Q a _ =>
      System.allows_of_forall (fun _ _ => trivial) (fun _ _ => trivial) Q a)
  exact history_of_run (fun e t t' _ he => ⟨trivial, (idle_envStep he).log⟩)
    (fun c t _ _ => wp_program _ t) hguarded hsound (System.at_of_spawn hcall)

/-- **Observing a stream changes nothing.** At any point of any run, the calls that an observed stream has
made, without those that observe it, are calls of the stream itself, on the same states and with the same
replies; and what is left of the two is the same but for calls that observe. So they return the same. -/
theorem performs_unobserved {j : Nat} {cfg : Config} {req : Request} {sink : Sink} {session fuel : Nat}
    {P P₁ P' : Pool State Client StreamCall CallRes (Except FeedError Unit)}
    {as : List (PoolAction Client StreamChoice EnvStep)}
    (hcall : (observedSystem A ever).step P (.spawn j (.stream cfg req sink session fuel)) = some P₁)
    (hrun : runActions (observedSystem A ever).step P₁ as = some P') :
    ∃ q' q, P'.At j (.stream cfg req sink session fuel) q' ∧
      Performs (((observedSystem A ever).history j P₁ as).filterMap (viewed Observed.unobserved))
        (stream cfg req sink session fuel).run q ∧
      Erases Observed.unobserved q' q := by
  obtain ⟨q', hperf, hat, -⟩ := at_of_stream hcall hrun
  obtain ⟨q, hq, herases⟩ := (Observed.erases_stream cfg req sink session fuel).performs hperf
  exact ⟨q', q, hat, hq, herases⟩

/-- What is committed is among what ever commits. -/
theorem log_le_ever {P P' : Pool State Client StreamCall CallRes (Except FeedError Unit)}
    (hP : P.shared.log.Le ever) (hrun : runActions (observedSystem A ever).step P as = some P') :
    P'.shared.log.Le ever := by
  have hstep : ∀ Q a Q', Q.shared.log.Le ever → (observedSystem A ever).step Q a = some Q' →
      Q'.shared.log.Le ever := by
    intro Q a Q' hQ hs
    rcases System.step_cases hs with ⟨i, c, rfl, -, rfl⟩ | ⟨i, ch, c, o, k, t, r, rfl, -, hex, rfl⟩ |
      ⟨e, t, rfl, he, rfl⟩
    · rw [Pool.put_shared]
      exact hQ
    · rw [Pool.put_shared, execCall_log hex]
      exact hQ
    · cases e with
      | advance d =>
        cases he
        exact hQ
      | commit scope e =>
        simp only [observedSystem, envStep] at he
        split at he
        · rename_i hnew
          cases he
          exact Log.add_le hQ hnew.1
        · cases he
  exact invariant_of_run hstep hrun hP

/-- **Where only events of consumed types ever commit**, no probe finds events of other types only. -/
theorem probesMatching_of_ever {P P' : Pool State Client StreamCall CallRes (Except FeedError Unit)}
    (hP : P.shared.log.Le ever) (hrun : runActions (observedSystem A ever).step P as = some P')
    {types : List Bytes} (hever : ∀ p e, ever.event scope p = some e → e.typeURL ∈ types)
    (hchain : logLogic.Chain (execCall A ever) P.shared h P'.shared) : ProbesMatching scope types h := by
  rintro pre post e rfl - ⟨e₀, hcommitted, habove⟩
  obtain ⟨u, -, -, -, -, hle, hrest⟩ := chain_append.mp hchain
  have hend := log_le_ever hP hrun _ _ _ (hrest.le _ _ _ (hle _ _ _ hcommitted))
  exact ⟨e₀, hcommitted, hever _ _ hend, habove⟩

/-- **A stall report means undeliverable backlog** if, whenever the probe reads the raw head, the events above
the position of the stream are not all of other types; and there is at most one report between two pages with
events, in any case. -/
theorem stall_reports_backlog (A : Adapter) (ever : Log)
    {P P₁ P' : Pool State Client StreamCall CallRes (Except FeedError Unit)} {j : Nat} {cfg : Config}
    {req : Request} {sink : Sink} {session fuel : Nat} {as : List (PoolAction Client StreamChoice EnvStep)}
    (hcall : (observedSystem A ever).step P (.spawn j (.stream cfg req sink session fuel)) = some P₁)
    (hrun : runActions (observedSystem A ever).step P₁ as = some P') :
    ReportsOnce ((observedSystem A ever).history j P₁ as) ∧
      (ProbesMatching req.key.scope req.definition.consumes ((observedSystem A ever).history j P₁ as) →
        ReportsBacklog req.key.scope req.definition.consumes ((observedSystem A ever).history j P₁ as)) := by
  obtain ⟨q, hperf, -, hchain⟩ := at_of_stream hcall hrun
  generalize (observedSystem A ever).history j P₁ as = h at hperf hchain
  have haccepts : ∀ pre post e, h = pre ++ e :: post → (stallMonitor req.key.scope).accepts (watch pre) e.op :=
    fun _ _ _ heq => (watched_stream cfg req sink session fuel).accepts hperf heq
  refine ⟨?_, fun hprobes => ?_⟩
  · intro pre mid post e e' settled raw settled' raw' heq he he'
    have hsecond := haccepts (pre ++ e :: mid) post e' (by rw [heq, List.append_assoc]; rfl)
    rw [he', watch, List.foldl_append] at hsecond
    refine page_of_reported (w := (watch pre).note e.op e.reply) ?_ hsecond.1
    obtain ⟨o, t, t', r⟩ := e
    obtain rfl : o = _ := he
    rfl
  · intro pre post e settled raw heq he
    have hreport := haccepts pre post e heq
    rw [he] at hreport
    obtain ⟨-, hprobed, hsettled, hraw⟩ := hreport
    refine ⟨hsettled, ?_⟩
    -- the call before the report has read the raw head
    rcases List.eq_nil_or_concat' pre with rfl | ⟨before, x, rfl⟩
    · cases hprobed
    rw [watch, List.foldl_append] at hprobed
    obtain ⟨⟨scope, hx⟩, hcursor⟩ := eq_of_probed (w := watch before) hprobed
    have hat : (watch (before ++ [x])).cursor = (watch before).cursor := by
      rw [watch, List.foldl_append]
      exact hcursor
    have hsplit : h = before ++ x :: e :: post := by rw [heq, List.append_assoc]; rfl
    have hscope := haccepts before (e :: post) x hsplit
    rw [hx] at hscope
    obtain rfl : scope = req.key.scope := hscope
    obtain ⟨u, hbefore, -, -, ⟨ch, hex⟩, hle, hle', -⟩ := chain_append.mp (hsplit ▸ hchain)
    have hpage := page_le_position hbefore (w := .start) (fun e he => absurd he List.not_mem_nil)
    rw [hat] at hsettled ⊢
    rw [hsettled] at hraw
    obtain ⟨e₁, hcommitted, htype, habove⟩ := hprobes before (e :: post) x hsplit (congrArg Performed.op hx)
      (exists_above (hx ▸ hex) hraw)
    refine ⟨e₁, hle' _ _ _ (hle _ _ _ hcommitted), htype, habove, fun hmem => ?_⟩
    exact absurd (hpage e₁ hmem) (Nat.not_le.mpr habove)

end Runs

/-! ## Two stalls -/

/-- An event that the projection of orders consumes, and one that it does not. -/
def placed : Event := ⟨1, str "order.v1.Placed", []⟩

def invoiced : Event := ⟨1, str "invoice.v1.Sent", []⟩

/-- A subscription to placed orders. -/
def placedOrders : Request := ⟨ordersKey, [], [], ⟨str "orders", [str "order.v1.Placed"]⟩, 0⟩

/-- A stream whose sink does nothing. -/
def placedStream : Client := .stream defaultConfig placedOrders (fun _ => pure ()) 0 1

/-- An event is all that ever commits. -/
abbrev oneEvent (e : Event) := observedSystem Sqlite.feedAdapter (Log.empty.add ordersKey.scope e)

/-- A stream goes on to its first probe: its page is empty, and the raw head is `1`. -/
def toFirstProbe : List (PoolAction Client StreamChoice EnvStep) :=
  List.replicate 11 (.step 0 { number := 1, time := ⟨0⟩ })

theorem Log.empty_le (l : Log) : Log.empty.Le l := by
  intro scope p e h
  cases h

theorem event_oneEvent {e e' : Event} {p : Nat}
    (h : (Log.empty.add ordersKey.scope e).event ordersKey.scope p = some e') : e' = e := by
  simp only [Log.add, Function.update_self] at h
  by_cases hp : p = e.globalPosition
  · subst hp
    rw [Function.update_self] at h
    exact (Option.some.inj h).symm
  · rw [Function.update_of_ne hp] at h
    cases h

/-- **The stream reports a stall** once the event is committed and its page is empty, whatever the type of the
event is. -/
theorem exists_stall {e : Event} (he : e = placed ∨ e = invoiced) :
    ∃ P P₁ P', (oneEvent e).step (Pool.start (State.start 0 .empty)) (.env (.commit ordersKey.scope e)) =
        some P ∧ (oneEvent e).step P (.spawn 0 placedStream) = some P₁ ∧
      runActions (oneEvent e).step P₁ toFirstProbe = some P' ∧
      P₁.shared.log.Le (Log.empty.add ordersKey.scope e) ∧
      ∃ pre x, (oneEvent e).history 0 P₁ toFirstProbe = pre ++ [x] ∧ x.op = .observe (.onStall 0 1) := by
  obtain ⟨P', hrun, -⟩ : ∃ P', runActions (oneEvent e).step (Pool.start (State.start 0 .empty))
      (.env (.commit ordersKey.scope e) :: .spawn 0 placedStream :: toFirstProbe) = some P' ∧ True :=
    exists_run (by rcases he with rfl | rfl <;> decide +kernel)
  have hlast : (((oneEvent e).history 0 (Pool.start (State.start 0 .empty))
      (.env (.commit ordersKey.scope e) :: .spawn 0 placedStream :: toFirstProbe)).map (·.op)).getLast? =
        some (.observe (.onStall 0 1)) := by
    rcases he with rfl | rfl <;> decide +kernel
  obtain ⟨P, hP, hrun⟩ := runActions_cons_eq_some.mp hrun
  obtain ⟨P₁, hP₁, hrun⟩ := runActions_cons_eq_some.mp hrun
  rw [System.history_cons _ hP, System.history_cons _ hP₁, List.getLast?_map] at hlast
  obtain ⟨x, hx, hop⟩ := Option.map_eq_some_iff.mp hlast
  obtain ⟨pre, hpre⟩ := List.getLast?_eq_some_iff.mp hx
  have hissued : runActions (oneEvent e).step (Pool.start (State.start 0 .empty))
      [.env (.commit ordersKey.scope e), .spawn 0 placedStream] = some P₁ :=
    runActions_cons_eq_some.mpr ⟨P, hP, runActions_cons_eq_some.mpr ⟨P₁, hP₁, rfl⟩⟩
  exact ⟨P, P₁, P', hP, hP₁, hrun, log_le_ever (Log.empty_le _) hissued, pre, x, hpre, hop⟩

/-- A stream that is observed as far as its first report. -/
theorem performs_unobserved_stall :
    ∃ P₁ P' q' q, runActions (oneEvent placed).step P₁ toFirstProbe = some P' ∧ P'.At 0 placedStream q' ∧
      Performs (((oneEvent placed).history 0 P₁ toFirstProbe).filterMap (viewed Observed.unobserved))
        (stream defaultConfig placedOrders (fun _ => pure ()) 0 1).run q ∧
      Erases Observed.unobserved q' q := by
  obtain ⟨P, P₁, P', -, hcall, hrun, -⟩ := exists_stall (.inl rfl : placed = placed ∨ _)
  obtain ⟨q', q, h⟩ := performs_unobserved hcall hrun
  exact ⟨P₁, P', q', q, hrun, h⟩

/-- The page of a stream is held back while an event of its type is committed. -/
theorem stall_reports_backlog_fenced :
    ∃ P P₁ P', (oneEvent placed).step P (.spawn 0 placedStream) = some P₁ ∧
      runActions (oneEvent placed).step P₁ toFirstProbe = some P' ∧
      (∃ x ∈ (oneEvent placed).history 0 P₁ toFirstProbe, x.op = .observe (.onStall 0 1)) ∧
      ReportsOnce ((oneEvent placed).history 0 P₁ toFirstProbe) ∧
      ReportsBacklog ordersKey.scope [str "order.v1.Placed"]
        ((oneEvent placed).history 0 P₁ toFirstProbe) := by
  obtain ⟨P, P₁, P', -, hcall, hrun, hlog, pre, x, hhistory, hop⟩ := exists_stall (.inl rfl : placed = placed ∨ _)
  obtain ⟨_, -, -, hchain⟩ := at_of_stream hcall hrun
  have hmatching : ProbesMatching ordersKey.scope [str "order.v1.Placed"]
      ((oneEvent placed).history 0 P₁ toFirstProbe) := by
    refine probesMatching_of_ever hlog hrun (fun p e he => ?_) hchain
    rw [event_oneEvent he]
    decide
  obtain ⟨honce, hbacklog⟩ := stall_reports_backlog _ _ hcall hrun
  refine ⟨P, P₁, P', hcall, hrun, ⟨x, ?_, hop⟩, honce, hbacklog hmatching⟩
  rw [hhistory]
  exact List.mem_append_right _ (List.mem_singleton_self x)

/-- **An event of another type is reported as a stall.** It is all that is committed, and the stream will
never deliver it. -/
theorem foreign_event_reported :
    ∃ P P₁ P', (oneEvent invoiced).step (Pool.start (State.start 0 .empty))
        (.env (.commit ordersKey.scope invoiced)) = some P ∧
      (oneEvent invoiced).step P (.spawn 0 placedStream) = some P₁ ∧
      runActions (oneEvent invoiced).step P₁ toFirstProbe = some P' ∧
      (∀ p e, P'.shared.log.event ordersKey.scope p = some e → e = invoiced) ∧
      (∃ x ∈ (oneEvent invoiced).history 0 P₁ toFirstProbe, x.op = .observe (.onStall 0 1)) ∧
      ¬ ReportsBacklog ordersKey.scope [str "order.v1.Placed"]
        ((oneEvent invoiced).history 0 P₁ toFirstProbe) := by
  obtain ⟨P, P₁, P', hcommit, hcall, hrun, hlog, pre, x, hhistory, hop⟩ :=
    exists_stall (.inr rfl : invoiced = placed ∨ _)
  obtain ⟨_, -, -, hchain⟩ := at_of_stream hcall hrun
  have hall : ∀ p e, P'.shared.log.event ordersKey.scope p = some e → e = invoiced :=
    fun p e he => event_oneEvent (log_le_ever hlog hrun _ _ _ he)
  rw [hhistory] at hchain
  refine ⟨P, P₁, P', hcommit, hcall, hrun, hall,
    ⟨x, hhistory ▸ List.mem_append_right _ (List.mem_singleton_self x), hop⟩, fun hbacklog => ?_⟩
  rw [hhistory] at hbacklog
  obtain ⟨-, e, he, htype, -⟩ := hbacklog pre [] x 0 1 rfl hop
  obtain ⟨u, -, -, -, -, hle, hrest⟩ := chain_append.mp hchain
  rw [hall _ e (hrest.le _ _ _ (hle _ _ _ he))] at htype
  exact absurd htype (by decide)

end EsLite.Feed
