import EsLite.Eventfeed.Attempt
import EsLite.Foundation.Acknowledging
import EsLite.Foundation.Monitor

/-!
# Redelivery after a crash

What an attempt has handled above the stored checkpoint is delivered again after a crash. Two of its programs
acknowledge: the stream, when its window is full, and the ack clock, on a tick and at the end. Either claims
the window at once and has it saved some time later.

The stream waits for its own acknowledgements, and not for those of the clock. So up to two windows are not
saved at a time, the one that the clock has claimed and the one that the stream fills or has claimed
(`unsaved_le_two_windows`), and more than one page is delivered again (`tick_in_flight_unsaved`). It is one
page as long as no event is handled while the clock is between its claim and its save (`unsaved_le_batch`).
-/

namespace EsLite.Eventfeed

open Feed

deriving instance DecidableEq for Consumer

/-! ## One attempt among others -/

/-- The positions of the events that an attempt has handled. -/
def positions (i : Nat) (s : State) : List Nat := (s.handled.filter (fun h => h.session = i)).map (·.position)

/-- The stored checkpoint of a key, `0` without a row. -/
def stored (k : Key) (s : State) : Nat := storedPosition (s.tables.checkpoints k)

/-- **What a crash delivers again**: the events that the attempt has handled above the stored checkpoint. -/
def unsaved (k : Key) (i : Nat) (s : State) : Nat := (positions i s).countP (fun p => stored k s < p)

/-- The attempt that a call is part of, if it uses a window. -/
def AttemptCall.session : AttemptCall → Option Nat
  | .subscribe i _ _ => some i
  | .loop i _ _ => some i
  | .renew _ _ => none

/-- The calls of one attempt: its stream is the call `0`, and its ack clock the call `1`. All other calls are
renewers or belong to other attempts. -/
def OneAttempt (i : Nat) (c : Consumer) : Nat → AttemptCall → Prop
  | 0, .subscribe j c' _ => j = i ∧ c' = c
  | 1, .loop j c' _ => j = i ∧ c' = c
  | _ + 2, call => call.session ≠ some i
  | _, _ => False

instance (i : Nat) (c : Consumer) : (j : Nat) → (call : AttemptCall) → Decidable (OneAttempt i c j call)
  | 0, .subscribe j c' _ => inferInstanceAs (Decidable (j = i ∧ c' = c))
  | 0, .loop _ _ _ => .isFalse id
  | 0, .renew _ _ => .isFalse id
  | 1, .subscribe _ _ _ => .isFalse id
  | 1, .loop j c' _ => inferInstanceAs (Decidable (j = i ∧ c' = c))
  | 1, .renew _ _ => .isFalse id
  | _ + 2, call => inferInstanceAs (Decidable (call.session ≠ some i))

/-- **A call of an acknowledgement passes**: once the attempt has handled an event, a holder check finds its
lease, and every save is stored. -/
def AckPasses (A : Adapter) (i : Nat) (c : Consumer) (s : State) (ch : Choice) : Op → Prop
  | .holder k => (∃ h ∈ s.handled, h.session = i) →
      ch.fault = .none ∧ (s.tables.holder A s.now k).map (·.owner) = some c.token
  | .save .. => ch.fault = .none
  | _ => True

instance (A : Adapter) (i : Nat) (c : Consumer) (s : State) (ch : Choice) :
    (o : Op) → Decidable (AckPasses A i c s ch o) := by
  intro o
  cases o with
  | holder k =>
    exact inferInstanceAs (Decidable ((∃ h ∈ s.handled, h.session = i) →
      ch.fault = .none ∧ (s.tables.holder A s.now k).map (·.owner) = some c.token))
  | save k d p => exact inferInstanceAs (Decidable (ch.fault = .none))
  | _ => exact .isTrue trivial

/-- A pool of attempts. -/
abbrev AttemptPool := Pool State AttemptCall Op Res (Except FeedError Unit)

/-- A step of a pool. -/
abbrev AttemptAction := PoolAction AttemptCall Choice EnvStep

/-- **No acknowledgement of the attempt fails**; each may take as long as it likes. -/
def AcksPass (A : Adapter) (i : Nat) (c : Consumer) (P : AttemptPool) : AttemptAction → Prop
  | .spawn j call => OneAttempt i c j call
  | .step j ch => j < 2 → ∀ x ∈ P.thread j, x.2.Next (AckPasses A i c P.shared ch)
  | .env _ => True

/-- The calls of an acknowledgement after its claim. -/
def acknowledges : Op → Bool
  | .holder _ => true
  | .save .. => true
  | _ => false

/-- The call of the handler. -/
def handles : Op → Bool
  | .handle .. => true
  | _ => false

/-- The ack clock is not between its claim and its save. -/
def ClockIdle (P : AttemptPool) : Prop := ∀ x ∈ P.thread 1, x.2.Next (fun o => acknowledges o = false)

/-- **The handler waits for the ack clock**: it is not called while the clock is between its claim and its
save. -/
def Waits (P : AttemptPool) : AttemptAction → Prop
  | .step 0 _ => ∀ x ∈ P.thread 0, x.2.Next (fun o => handles o = true → ClockIdle P)
  | _ => True

/-! ## What the programs of an attempt do -/

/-- What one of the two programs has to do next before it goes on. -/
inductive Phase where
  | idle
  /-- The event at the position is handled and has to be accounted. -/
  | handled (position : Nat)
  /-- The window is full and has to be claimed. -/
  | full
  /-- The window is claimed up to the position, and the lease has to be checked. -/
  | claimed (position : Nat)
  /-- The lease is held, and the position has to be saved. -/
  | checked (position : Nat)
deriving DecidableEq

/-- What is noted of one of the two programs: its phase, the position of its stream, once it has started, and
what is left of the page that was read last. -/
structure Duty where
  phase : Phase
  cursor : Option Nat
  page : List Event

/-- A program that has not been issued. -/
def Duty.start : Duty := ⟨.idle, none, []⟩

/-- What follows from the reply of a holder check. -/
def Phase.check (token : Bytes) : Phase → Except Failure (Option Lease) → Phase
  | .claimed pos, .ok (some lease) => if lease.owner = token then .checked pos else .idle
  | .claimed _, _ => .idle
  | phase, _ => phase

/-- What a call and its reply say about a program. A claim for a key that is not valid is rejected before the
holder check. -/
def Duty.note (k : Key) (token : Bytes) (g : Duty) : (o : Op) → Res o → Duty
  | .begin st, _ => { g with cursor := some st.position }
  | .readAllBounded .., .ok page => { g with page := page.1 }
  | .handle _ _ _ e, .ok _ => ⟨.handled e.globalPosition, some e.globalPosition, g.page.tail⟩
  | .account .., true => { g with phase := .full }
  | .account .., false => { g with phase := .idle }
  | .claim _, some pos => { g with phase := if validateKey k = none then .claimed pos else .idle }
  | .claim _, none => { g with phase := .idle }
  | .holder _, r => { g with phase := g.phase.check token r }
  | .save .., _ => { g with phase := .idle }
  | _, _ => g

/-- The calls that neither move a stream nor are part of an acknowledgement. -/
def Aside : Op → Prop
  | .readAllBounded .. => False
  | o => o.quiet = true

/-- **In which order the programs of an attempt make their calls.** The stream handles the events of its page
one after another, accounts each and claims a full window; the ack clock claims whatever there is. Either
goes on only after it has checked the lease and saved what it claimed. -/
inductive Accepts (k : Key) (i : Nat) (c : Consumer) : Nat → Duty → Op → Prop
  | aside {j : Nat} {cursor : Option Nat} {page : List Event} {o : Op} (ho : Aside o) :
      Accepts k i c j ⟨.idle, cursor, page⟩ o
  | begin {page : List Event} {st : Start} : Accepts k i c 0 ⟨.idle, none, page⟩ (.begin st)
  | read {scope : Bytes} {pos limit maxBytes : Nat} {types : List Bytes} {page : List Event} :
      Accepts k i c 0 ⟨.idle, some pos, page⟩ (.readAllBounded scope pos limit maxBytes types)
  | handle {cursor : Option Nat} {k' : Key} {hash : Bytes} {e : Event} {es : List Event}
      (hvalid : validateKey k = none) : Accepts k i c 0 ⟨.idle, cursor, e :: es⟩ (.handle i k' hash e)
  | account {cursor : Option Nat} {page : List Event} {pos : Nat} :
      Accepts k i c 0 ⟨.handled pos, cursor, page⟩ (.account i pos c.batch)
  | claimFull {cursor : Option Nat} {page : List Event} : Accepts k i c 0 ⟨.full, cursor, page⟩ (.claim i)
  | claimTick {cursor : Option Nat} {page : List Event} : Accepts k i c 1 ⟨.idle, cursor, page⟩ (.claim i)
  | holder {j : Nat} {cursor : Option Nat} {page : List Event} {pos : Nat} :
      Accepts k i c j ⟨.claimed pos, cursor, page⟩ (.holder k)
  | save {j : Nat} {cursor : Option Nat} {page : List Event} {hash : Bytes} {pos : Nat} :
      Accepts k i c j ⟨.checked pos, cursor, page⟩ (.save k hash pos)

/-- The calls that leave an attempt alone: they do not touch its window, handle nothing for it and move no
checkpoint back. -/
def Foreign (i : Nat) : Op → Prop
  | .handle j _ _ _ => j ≠ i
  | .account j _ _ => j ≠ i
  | .claim j => j ≠ i
  | .reset .. => False
  | .delete _ => False
  | _ => True

/-- The monitor of a program of the attempt. -/
def dutyMonitor (k : Key) (i : Nat) (c : Consumer) (j : Nat) : Monitor Duty Op Res :=
  ⟨Accepts k i c j, Duty.note k c.token⟩

/-- The monitor of each call: of the stream, of the ack clock, and of all others, of which nothing is noted. -/
def attemptMonitor (k : Key) (i : Nat) (c : Consumer) (j : Nat) : Monitor Duty Op Res :=
  if j < 2 then dutyMonitor k i c j else ⟨fun _ => Foreign i, fun g _ _ => g⟩

/-- The program may go on: it holds no window. -/
def Done {α : Type} (_ : α) (g : Duty) : Prop := g.phase = .idle

variable {o : Op} {pos : Nat} {j : Fin 2} {q : Phase} {size : Fin 2 → Nat} {g : Duty} {page : List Event}

section Watched

variable {k : Key} {i j : Nat} {c : Consumer} {d : Definition} {cfg : Config} {α : Type}
variable {cursor : Option Nat} {page : List Event}

theorem note_aside (ho : Aside o) (r : Res o) {token : Bytes} :
    Duty.note k token ⟨.idle, cursor, page⟩ o r = ⟨.idle, cursor, page⟩ := by
  cases o <;> first | rfl | cases ho

/-- Calls on the side leave a program that may go on as it is. -/
theorem watched_aside {p : Prog Op Res α} (hp : Prog.Issues Aside p) :
    Prog.Watched (dutyMonitor k i c j) (fun _ g => g = ⟨.idle, cursor, page⟩) p ⟨.idle, cursor, page⟩ := by
  refine Prog.Watched.of_issues (I := fun g : Duty => g = ⟨.idle, cursor, page⟩) (fun o ho g hg => ?_) hp rfl
  subst hg
  exact ⟨.aside ho, fun r => note_aside ho r⟩

/-- The same, in a method that may fail. -/
theorem watched_method {p : Server α} (hp : Prog.Issues Aside p.run) :
    Prog.Watched (dutyMonitor k i c j) (Logic.Ends Done Done) p.run ⟨.idle, cursor, page⟩ := by
  refine (watched_aside hp).weaken (fun r g hg => ?_)
  subst hg
  cases r <;> rfl

/-- Calls on the side, and then another program. -/
theorem watched_aside_then {β : Type} {R : β → Duty → Prop} {p : Server α} {f : α → Server β}
    (hp : Prog.Issues Aside p.run)
    (hf : ∀ a, Prog.Watched (dutyMonitor k i c j) (Logic.Ends Done R) (f a).run ⟨.idle, cursor, page⟩) :
    Prog.Watched (dutyMonitor k i c j) (Logic.Ends Done R) (p >>= f).run ⟨.idle, cursor, page⟩ := by
  refine Prog.Watched.thenEnds ((watched_aside hp).weaken fun r g hg => ?_)
  subst hg
  cases r with
  | ok a => exact hf a
  | error err => rfl

/-- **An acknowledgement** of a claimed window: the holder check and the save. -/
theorem watched_checkpoint (hvalid : validateKey k = none) (hash : Bytes) (pos : Nat) :
    Prog.Watched (dutyMonitor k i c j) (fun _ g => g = ⟨.idle, cursor, page⟩)
      (checkpoint ⟨k, c.token, pos, hash⟩).run ⟨.claimed pos, cursor, page⟩ := by
  simp only [checkpoint_run, hvalid]
  refine ⟨.holder, fun r => ?_⟩
  rcases (r : Except Failure (Option Lease)) with _ | (_ | lease)
  · rfl
  · rfl
  · by_cases howner : lease.owner = c.token
    · have hnote : (dutyMonitor k i c j).note ⟨.claimed pos, cursor, page⟩ (.holder k) (.ok (some lease)) =
          ⟨.checked pos, cursor, page⟩ := by
        simp only [dutyMonitor, Duty.note, Phase.check, if_pos howner]
      rw [hnote]
      simp only [checkpointAfter, howner, ne_eq, not_true_eq_false, if_false]
      exact ⟨.save, fun _ => rfl⟩
    · have hnote : (dutyMonitor k i c j).note ⟨.claimed pos, cursor, page⟩ (.holder k) (.ok (some lease)) =
          ⟨.idle, cursor, page⟩ := by
        simp only [dutyMonitor, Duty.note, Phase.check, if_neg howner]
      rw [hnote]
      simp only [checkpointAfter, ne_eq, howner, not_false_eq_true, if_true]
      rfl

/-- Flushing the window. -/
theorem watched_ack {phase : Phase} (hclaim : Accepts k i c j ⟨phase, cursor, page⟩ (.claim i)) :
    Prog.Watched (dutyMonitor k i c j) (fun _ g => g = ⟨.idle, cursor, page⟩) (ack k d c i).run
      ⟨phase, cursor, page⟩ := by
  refine ⟨hclaim, fun r => ?_⟩
  rcases (r : Option Nat) with _ | pos
  · rfl
  · cases hvalid : validateKey k with
    | none =>
      have hnote : (dutyMonitor k i c j).note ⟨phase, cursor, page⟩ (.claim i) (some pos) =
          ⟨.claimed pos, cursor, page⟩ := by
        simp only [dutyMonitor, Duty.note, if_pos hvalid]
      rw [hnote]
      exact watched_checkpoint hvalid d.hash pos
    | some why =>
      have hnote : (dutyMonitor k i c j).note ⟨phase, cursor, page⟩ (.claim i) (some pos) =
          ⟨.idle, cursor, page⟩ := by
        simp only [dutyMonitor, Duty.note, hvalid, reduceCtorEq, if_false]
      rw [hnote]
      show Prog.Watched _ _ (checkpoint ⟨k, c.token, pos, d.hash⟩).run _
      simp only [checkpoint_run, hvalid]
      rfl

/-- The ack clock. -/
theorem watched_loop (fuel : Nat) :
    Prog.Watched (dutyMonitor k i c 1) Done (loop k d c i fuel).run ⟨.idle, cursor, page⟩ := by
  induction fuel with
  | zero => rfl
  | succ n ih =>
    refine ⟨.aside rfl, fun wake => ?_⟩
    rcases (wake : Wake) with _ | _ | _
    · -- the stream-end ack: a rejection is dropped
      show Prog.Watched (dutyMonitor k i c 1) Done (tryCatch (ack k d c i) (fun _ => pure ())).run
        ⟨.idle, cursor, page⟩
      refine Prog.Watched.bind ((watched_ack .claimTick).weaken fun r g hg => ?_)
      subst hg
      cases r <;> rfl
    · show Prog.Watched (dutyMonitor k i c 1) Done (ack k d c i >>= fun _ => loop k d c i n).run
        ⟨.idle, cursor, page⟩
      refine Prog.Watched.bind ((watched_ack .claimTick).weaken fun r g hg => ?_)
      subst hg
      cases r with
      | ok _ => exact ih
      | error err => rfl
    · rfl

/-- The handler is called with the next event of the page until it has handled it. -/
theorem watched_handleRetrying (hvalid : validateKey k = none) (e : Event) (es : List Event) (fuel : Nat) :
    Prog.Watched (dutyMonitor k i c 0)
      (Logic.Ends Done fun _ g => g = ⟨.handled e.globalPosition, some e.globalPosition, es⟩)
      (handleRetrying k d i e fuel).run ⟨.idle, cursor, e :: es⟩ := by
  induction fuel with
  | zero => rfl
  | succ n ih =>
    refine ⟨.handle hvalid, fun r => ?_⟩
    rcases (r : Except Failure Unit) with _ | _
    · exact watched_aside_then (port_issues (.op rfl)) (fun _ => ih)
    · rfl

/-- One event is delivered, accounted and, when the window is full, acknowledged. -/
theorem watched_send (hvalid : validateKey k = none) (e : Event) (es : List Event) (fuel : Nat) :
    Prog.Watched (dutyMonitor k i c 0) (Logic.Ends Done fun _ g => g = ⟨.idle, some e.globalPosition, es⟩)
      (send k d c i fuel e).run ⟨.idle, cursor, e :: es⟩ := by
  refine Prog.Watched.thenEnds ((watched_handleRetrying hvalid e es fuel).weaken fun r g hr => ?_)
  cases r with
  | error err => exact hr
  | ok u =>
    obtain rfl : g = ⟨.handled e.globalPosition, some e.globalPosition, es⟩ := hr
    refine ⟨.account, fun full => ?_⟩
    rcases (full : Bool) with _ | _
    · rfl
    · refine (watched_ack .claimFull).weaken (fun r g hg => ?_)
      subst hg
      cases r <;> rfl

/-- The events of a page are sent one after another. -/
theorem watched_sendPage (hvalid : validateKey k = none) (fuel pos : Nat) (page : List Event) :
    Prog.Watched (dutyMonitor k i c 0) (Logic.Ends Done fun p g => ∃ es, g = ⟨.idle, some p, es⟩)
      (sendPage cfg (send k d c i fuel) pos page).run ⟨.idle, some pos, page⟩ := by
  induction page generalizing pos with
  | nil => exact ⟨[], rfl⟩
  | cons e es ih =>
    by_cases hbig : 0 < cfg.maxPayloadBytes ∧ cfg.maxPayloadBytes < e.payload.length
    · simp only [sendPage, if_pos hbig]
      rfl
    · simp only [sendPage, if_neg hbig]
      refine Prog.Watched.thenEnds (Prog.Watched.bind ((watched_send hvalid e es fuel).weaken ?_))
      intro r g hr
      cases r with
      | ok u =>
        obtain rfl : g = ⟨.idle, some e.globalPosition, es⟩ := hr
        exact ih e.globalPosition
      | error err => exact hr

/-- A page is read. -/
theorem watched_readPage (req : Request) (batch pos : Nat) :
    Prog.Watched (dutyMonitor k i c 0) (Logic.Ends Done fun p g => g = ⟨.idle, some pos, p.1⟩)
      (readPage cfg req batch pos).run ⟨.idle, some pos, page⟩ := by
  refine ⟨.read, fun r => ?_⟩
  rcases (r : Except Feed.ReadError (List Event × Bool)) with (_ | _) | _ <;> rfl

/-- The read and send loop. -/
theorem watched_readLoop (hvalid : validateKey k = none) (req : Request) (loops batch fuel pos : Nat) :
    Prog.Watched (dutyMonitor k i c 0) (Logic.Ends Done Done)
      (readLoop cfg req (send k d c i loops) batch fuel pos).run ⟨.idle, some pos, page⟩ := by
  induction fuel generalizing pos page with
  | zero => rfl
  | succ n ih =>
    refine watched_aside_then (port_issues (.op rfl)) (fun _ => ?_)
    refine Prog.Watched.thenEnds ((watched_readPage req batch pos).weaken fun r g hr => ?_)
    rcases r with err | ⟨page', truncated⟩
    · exact hr
    obtain rfl : g = ⟨.idle, some pos, page'⟩ := hr
    refine Prog.Watched.thenEnds ((watched_sendPage hvalid loops pos page').weaken fun r g hr => ?_)
    rcases r with err | pos'
    · exact hr
    obtain ⟨es, rfl⟩ := hr
    by_cases hfull : page' ≠ [] ∧ (truncated = true ∨ batch ≤ page'.length)
    · simp only [if_pos hfull]
      exact ih pos'
    · simp only [if_neg hfull]
      exact watched_aside_then (port_issues (.op rfl)) (fun _ => ih pos')

/-- The stream. -/
theorem watched_stream (hvalid : validateKey k = none) (session fuel : Nat) :
    Prog.Watched (dutyMonitor k i c 0) (Logic.Ends Done Done)
      (stream cfg (request k d c) (send k d c i fuel) session fuel).run .start := by
  refine watched_aside_then (port_issues (.op rfl)) (fun _ => ?_)
  refine watched_aside_then (port_issues (.op rfl)) (fun cp => ?_)
  dsimp only
  split
  · rfl
  refine watched_aside_then (port_issues (.op rfl)) (fun head => ?_)
  refine watched_aside_then (clamp_issues (by rfl) (by rfl) (by rfl) fuel head) (fun pos => ?_)
  exact ⟨.begin, fun _ => watched_readLoop hvalid _ fuel _ fuel pos⟩

/-- A subscription: the lease calls around the stream are calls on the side. -/
theorem watched_subscribe (session fuel : Nat) :
    Prog.Watched (dutyMonitor k i c 0) Done
      (subscribe cfg (request k d c) (send k d c i fuel) session fuel).run .start := by
  have hends : Prog.Watched (dutyMonitor k i c 0) (Logic.Ends Done Done)
      (subscribe cfg (request k d c) (send k d c i fuel) session fuel).run .start := by
    -- an invalid key is refused before anything else
    cases hvalid : validateKey k with
    | some why =>
      simp only [subscribe, request, hvalid]
      rfl
    | none =>
    refine watched_aside_then require_issues (fun _ => watched_aside_then require_issues (fun _ => ?_))
    refine watched_aside_then (leaseOwner_issues (by rfl) _) (fun owner => ?_)
    refine watched_aside_then (perform_issues (by rfl)) (fun reply => ?_)
    rcases reply with ⟨_ | _, _ | _⟩
    · exact watched_aside_then (port_issues (.op rfl)) (fun _ => rfl)
    · rfl
    · refine Prog.Watched.thenEnds (Prog.Watched.bind ((watched_stream hvalid session fuel).weaken ?_))
      intro r g hr
      -- whatever the stream ended in, it holds no window
      obtain ⟨phase, cursor, page⟩ := g
      obtain rfl : phase = .idle := by cases r <;> exact hr
      exact watched_method (releaseAfter_issues (by rfl) r)
    · exact watched_method (releaseAfter_issues (by rfl) _)
  refine hends.weaken (fun r g hr => ?_)
  cases r <;> exact hr

end Watched

/-! ## The other programs -/

section Foreign

variable {k : Key} {i j : Nat} {c : Consumer} {d : Definition} {cfg : Config}

theorem foreign_ack (hj : j ≠ i) : Prog.Issues (Foreign i) (ack k d c j).run := by
  refine .bindExcept (perform_issues hj) (fun reply => ?_)
  rcases (reply : Option Nat) with _ | pos
  · trivial
  · exact checkpoint_issues trivial trivial

theorem foreign_handleRetrying (hj : j ≠ i) (e : Event) (fuel : Nat) :
    Prog.Issues (Foreign i) (handleRetrying k d j e fuel).run := by
  induction fuel with
  | zero => trivial
  | succ n ih =>
    refine .bindExcept (perform_issues hj) (fun reply => ?_)
    rcases (reply : Except Failure Unit) with _ | _
    · exact .bindExcept (port_issues (.op trivial)) (fun _ => ih)
    · trivial

theorem foreign_send (hj : j ≠ i) (fuel : Nat) (e : Event) :
    Prog.Issues (Foreign i) (send k d c j fuel e).run := by
  refine .bindExcept (foreign_handleRetrying hj e fuel) (fun _ => ?_)
  refine .bindExcept (perform_issues hj) (fun full => ?_)
  rcases (full : Bool) with _ | _
  · trivial
  · exact foreign_ack hj

theorem foreign_loop (hj : j ≠ i) (fuel : Nat) : Prog.Issues (Foreign i) (loop k d c j fuel).run := by
  induction fuel with
  | zero => trivial
  | succ n ih =>
    refine .bindExcept (perform_issues trivial) (fun wake => ?_)
    rcases (wake : Wake) with _ | _ | _
    · refine .bind (foreign_ack hj) (fun r => ?_)
      cases r <;> trivial
    · exact .bindExcept (foreign_ack hj) (fun _ => ih)
    · trivial

theorem foreign_stream {req : Request} {sink : Sink} (hsink : ∀ e, Prog.Issues (Foreign i) (sink e).run)
    (session fuel : Nat) : Prog.Issues (Foreign i) (stream cfg req sink session fuel).run := by
  refine .bindExcept (port_issues (.op trivial)) (fun _ => ?_)
  refine .bindExcept (port_issues (.op trivial)) (fun cp => ?_)
  dsimp only
  split
  · trivial
  refine .bindExcept (port_issues (.op trivial)) (fun head => ?_)
  refine .bindExcept (clamp_issues trivial trivial trivial fuel head) (fun pos => ?_)
  refine .bindExcept (perform_issues trivial) (fun _ => ?_)
  exact readLoop_issues trivial (fun _ => trivial) hsink fuel pos

theorem foreign_subscribe {req : Request} {sink : Sink} (hsink : ∀ e, Prog.Issues (Foreign i) (sink e).run)
    (session fuel : Nat) : Prog.Issues (Foreign i) (subscribe cfg req sink session fuel).run := by
  refine .bindExcept require_issues (fun _ => .bindExcept require_issues (fun _ => ?_))
  refine .bindExcept (leaseOwner_issues trivial req) (fun owner => ?_)
  refine .bindExcept (perform_issues trivial) (fun reply => ?_)
  rcases reply with ⟨_ | _, _ | _⟩
  · exact .bindExcept (port_issues (.op trivial)) (fun _ => trivial)
  · trivial
  · refine .bindExcept (Prog.Issues.bind (foreign_stream hsink session fuel) fun _ => trivial) ?_
    exact fun r => releaseAfter_issues trivial r
  · exact releaseAfter_issues trivial _

/-- **The other attempts** leave the attempt alone. -/
theorem foreign_method {call : AttemptCall} (hcall : call.session ≠ some i) :
    Prog.Issues (Foreign i) (call.method cfg k d).run := by
  cases call with
  | subscribe j c fuel =>
    have hj : j ≠ i := fun h => hcall (congrArg some h)
    exact foreign_subscribe (foreign_send hj fuel) j fuel
  | loop j c fuel => exact foreign_loop (fun h => hcall (congrArg some h)) fuel
  | renew c fuel => exact renewLoop_issues trivial trivial fuel

/-- **Every call is watched** by its monitor. -/
theorem watched_method_of_oneAttempt {call : AttemptCall} (hcall : OneAttempt i c j call) :
    Prog.Watched (attemptMonitor k i c j) Done (call.method cfg k d).run .start := by
  rcases j with _ | _ | j
  · cases call with
    | subscribe i' c' fuel =>
      obtain ⟨rfl, rfl⟩ := hcall
      exact watched_subscribe i' fuel
    | loop i' c' fuel => exact hcall.elim
    | renew c' fuel => exact hcall.elim
  · cases call with
    | subscribe i' c' fuel => exact hcall.elim
    | loop i' c' fuel =>
      obtain ⟨rfl, rfl⟩ := hcall
      exact watched_loop fuel
    | renew c' fuel => exact hcall.elim
  · have hmonitor : attemptMonitor k i c (j + 2) = ⟨fun _ => Foreign i, fun g _ _ => g⟩ := if_neg (by omega)
    rw [hmonitor]
    exact Prog.Watched.of_issues (I := fun g : Duty => g.phase = .idle)
      (fun o ho g hg => ⟨ho, fun _ => hg⟩) (foreign_method hcall) rfl

end Foreign

/-! ## The books of an attempt -/

/-- The position that a program has claimed and not saved yet. -/
def Phase.position : Phase → Nat
  | .claimed pos => pos
  | .checked pos => pos
  | _ => 0

/-- Whether a program has claimed a window and not saved it yet. -/
def Phase.inFlight : Phase → Bool
  | .claimed _ => true
  | .checked _ => true
  | _ => false

/-- The events that are handled and not accounted. -/
def Phase.unaccounted : Phase → Nat
  | .handled _ => 1
  | _ => 0

/-- How many events the window may hold in a phase of the stream. -/
def Phase.Room (batch count : Nat) : Phase → Prop
  | .idle => count < batch
  | .handled _ => count < batch
  | .full => count ≤ batch
  | .claimed _ => count = 0
  | .checked _ => count = 0

/-- The size of the window that a program holds. -/
def Phase.Holds (batch size : Nat) (phase : Phase) : Prop :=
  if phase.inFlight then 0 < size ∧ size ≤ batch else size = 0

/-- What is handled and not saved, as far as it is counted: in the window, before it, and in the windows that
the stream and the ack clock have claimed. -/
def outstanding (i : Nat) (s : State) (phase : Fin 2 → Phase) (size : Fin 2 → Nat) : Nat :=
  (s.window i).count + (phase 0).unaccounted + ∑ j, size j

/-- **The books of an attempt**: what it has handled, its window, and the windows that the stream (`0`) and the
ack clock (`1`) have claimed and not saved yet. At most `n` events are outstanding. -/
structure Books (k : Key) (i : Nat) (c : Consumer) (n : Nat) (s : State) (phase : Fin 2 → Phase)
    (size : Fin 2 → Nat) : Prop where
  /-- Whatever is saved next, the rest is accounted for. -/
  accounts : Accounts (positions i s) (stored k s) ((s.window i).count + (phase 0).unaccounted)
    (fun j => (phase j).position) size
  /-- Nothing that is accounted lies above the pending position. -/
  pending : (positions i s).countP (fun p => (s.window i).pending < p) ≤ (phase 0).unaccounted
  room : (phase 0).Room c.batch (s.window i).count
  holds : ∀ j, (phase j).Holds c.batch (size j)
  /-- Nothing is counted that was not handled. -/
  counted : outstanding i s phase size ≤ (positions i s).length
  total : outstanding i s phase size ≤ n
  /-- Nothing is handled for an invalid key. -/
  valid : positions i s ≠ [] → validateKey k = none

/-- **Where the stream stands** in the log. -/
structure Reading (i : Nat) (s : State) (g : Duty) : Prop where
  /-- Nothing is handled above the position of the stream. -/
  cursor : ∀ p ∈ positions i s, ∃ q, g.cursor = some q ∧ p ≤ q
  /-- What is not accounted is at the position of the stream. -/
  unaccounted : ∀ pos, g.phase = .handled pos → g.cursor = some pos
  /-- The page goes on above the position of the stream, in order. -/
  sorted : g.page.Pairwise (fun a b => a.globalPosition < b.globalPosition)
  above : ∀ e ∈ g.page, ∃ q, g.cursor = some q ∧ q < e.globalPosition

section Books

variable {k : Key} {i : Nat} {c : Consumer} {n : Nat} {s s' : State} {phase : Fin 2 → Phase}
variable {size : Fin 2 → Nat}

/-- What is read of the phases stays as it was when a program goes on to a phase in which it reads the same. -/
theorem view_update {γ : Type} (f : Phase → γ) (hf : f q = f (phase j)) (x : Fin 2) :
    f (Function.update phase j q x) = f (phase x) := by
  by_cases hx : x = j
  · rw [hx, Function.update_self, hf]
  · rw [Function.update_of_ne hx]

variable (h : Books k i c n s phase size)

include h

/-- What others do: the attempt has handled what it had, its window is as it was, and the checkpoint may have
moved up. -/
theorem Books.frame (hpositions : positions i s' = positions i s) (hwindow : s'.window i = s.window i)
    (hstored : stored k s ≤ stored k s') : Books k i c n s' phase size := by
  have houtstanding : outstanding i s' phase size = outstanding i s phase size := by
    rw [outstanding, outstanding, hwindow]
  refine ⟨?_, ?_, ?_, h.holds, ?_, ?_, ?_⟩
  · rw [hpositions, hwindow]
    exact h.accounts.advance hstored
  · rw [hpositions, hwindow]
    exact h.pending
  · rw [hwindow]
    exact h.room
  · rw [hpositions, houtstanding]
    exact h.counted
  · rw [houtstanding]
    exact h.total
  · rw [hpositions]
    exact h.valid

/-- A program goes on to a phase in which it holds the same window. -/
theorem Books.rephase (hposition : q.position = (phase j).position)
    (hflight : q.inFlight = (phase j).inFlight) (hunaccounted : q.unaccounted = (phase j).unaccounted)
    (hroom : j = 0 → q.Room c.batch (s.window i).count) :
    Books k i c n s (Function.update phase j q) size := by
  have hun := view_update Phase.unaccounted hunaccounted 0
  have houtstanding : outstanding i s (Function.update phase j q) size = outstanding i s phase size := by
    rw [outstanding, outstanding, hun]
  refine ⟨?_, ?_, ?_, fun x => ?_, ?_, ?_, h.valid⟩
  · rw [hun, funext (view_update Phase.position hposition)]
    exact h.accounts
  · rw [hun]
    exact h.pending
  · by_cases hj : j = 0
    · rw [hj, Function.update_self]
      exact hroom hj
    · rw [Function.update_of_ne (Ne.symm hj)]
      exact h.room
  · rw [Phase.Holds, view_update Phase.inFlight hflight x]
    exact h.holds x
  · rw [houtstanding]
    exact h.counted
  · rw [houtstanding]
    exact h.total

/-- A program that has claimed nothing holds nothing. -/
theorem Books.size_eq_zero (hfree : (phase j).inFlight = false) : size j = 0 := by
  have hholds := h.holds j
  rw [Phase.Holds, hfree] at hholds
  exact hholds

/-- **An event is handled.** -/
theorem Books.handle (hidle : phase 0 = .idle) (hvalid : validateKey k = none)
    (hroom : outstanding i s phase size < n) (hpositions : positions i s' = pos :: positions i s)
    (hwindow : s'.window i = s.window i) (hstored : stored k s' = stored k s) :
    Books k i c n s' (Function.update phase 0 (.handled pos)) size := by
  have houtstanding : outstanding i s' (Function.update phase 0 (.handled pos)) size =
      outstanding i s phase size + 1 := by
    rw [outstanding, outstanding, hwindow, Function.update_self, hidle]
    simp only [Phase.unaccounted]
    omega
  have hposition : (fun j => (Function.update phase 0 (.handled pos) j).position) =
      fun j => (phase j).position :=
    funext (view_update Phase.position (by rw [hidle]; rfl))
  refine ⟨?_, ?_, ?_, fun x => ?_, ?_, ?_, fun _ => hvalid⟩
  · rw [hpositions, hstored, hwindow, hposition, Function.update_self]
    have haccounts := h.accounts.deliver pos
    rw [hidle] at haccounts
    exact haccounts
  · have hpending := h.pending
    rw [hidle] at hpending
    rw [hpositions, hwindow, Function.update_self, List.countP_cons]
    simp only [Phase.unaccounted] at hpending ⊢
    split <;> omega
  · have hcount := h.room
    rw [hidle] at hcount
    rw [hwindow, Function.update_self]
    exact hcount
  · by_cases hx : x = 0
    · subst hx
      rw [Function.update_self]
      exact h.size_eq_zero (by rw [hidle]; rfl)
    · rw [Function.update_of_ne hx]
      exact h.holds x
  · rw [hpositions, houtstanding, List.length_cons]
    exact Nat.succ_le_succ h.counted
  · rw [houtstanding]
    exact hroom

/-- **An event is accounted**, and the window is full then or is not. -/
theorem Books.account (hphase : phase 0 = .handled pos)
    (hbelow : ∀ p ∈ positions i s, p ≤ pos) (hpositions : positions i s' = positions i s)
    (hwindow : s'.window i = ⟨pos, (s.window i).count + 1⟩) (hstored : stored k s' = stored k s)
    (hq : q = .full ∨ q = .idle ∧ (s.window i).count + 1 < c.batch) :
    Books k i c n s' (Function.update phase 0 q) size := by
  have hcount : (s.window i).count < c.batch := by
    have hroom := h.room
    rw [hphase] at hroom
    exact hroom
  obtain ⟨hun, hfree, hzero, hroom⟩ : q.unaccounted = 0 ∧ q.inFlight = false ∧ q.position = 0 ∧
      q.Room c.batch ((s.window i).count + 1) := by
    rcases hq with rfl | ⟨rfl, hlt⟩
    · exact ⟨rfl, rfl, rfl, hcount⟩
    · exact ⟨rfl, rfl, rfl, hlt⟩
  have houtstanding : outstanding i s' (Function.update phase 0 q) size = outstanding i s phase size := by
    rw [outstanding, outstanding, hwindow, Function.update_self, hphase, hun]
    rfl
  have hposition : (fun j => (Function.update phase 0 q j).position) = fun j => (phase j).position :=
    funext (view_update Phase.position (by rw [hphase, hzero]; rfl))
  refine ⟨?_, ?_, ?_, fun x => ?_, ?_, ?_, ?_⟩
  · rw [hpositions, hstored, hwindow, hposition, Function.update_self, hun]
    have haccounts := h.accounts
    rw [hphase] at haccounts
    exact haccounts
  · -- nothing is handled above the event itself
    rw [hpositions, hwindow, Function.update_self, hun, Nat.le_zero, List.countP_eq_zero]
    intro p hp
    rw [decide_eq_true_eq]
    exact Nat.not_lt.mpr (hbelow p hp)
  · rw [hwindow, Function.update_self]
    exact hroom
  · by_cases hx : x = 0
    · subst hx
      rw [Function.update_self, Phase.Holds, hfree]
      exact h.size_eq_zero (by rw [hphase]; rfl)
    · rw [Function.update_of_ne hx]
      exact h.holds x
  · rw [hpositions, houtstanding]
    exact h.counted
  · rw [houtstanding]
    exact h.total
  · rw [hpositions]
    exact h.valid

/-- The window never holds more than a batch. -/
theorem Books.count_le : (s.window i).count ≤ c.batch := by
  have hroom := h.room
  cases hphase : phase 0 with
  | idle =>
    rw [hphase] at hroom
    exact Nat.le_of_lt hroom
  | handled pos =>
    rw [hphase] at hroom
    exact Nat.le_of_lt hroom
  | full =>
    rw [hphase] at hroom
    exact hroom
  | claimed pos =>
    rw [hphase] at hroom
    exact hroom.trans_le (Nat.zero_le _)
  | checked pos =>
    rw [hphase] at hroom
    exact hroom.trans_le (Nat.zero_le _)

/-- **A window is claimed** by a program that holds none. -/
theorem Books.claim (hbatch : 0 < c.batch)
    (hfree : (phase j).inFlight = false) (hun : (phase j).unaccounted = 0)
    (hcount : (s.window i).count ≠ 0) (hpositions : positions i s' = positions i s)
    (hwindow : s'.window i = ⟨(s.window i).pending, 0⟩) (hstored : stored k s' = stored k s) :
    Books k i c n s' (Function.update phase j (.claimed (s.window i).pending))
      (Function.update size j (s.window i).count) := by
  have hzero := h.size_eq_zero hfree
  have hunaccounted : (Function.update phase j (.claimed (s.window i).pending) 0).unaccounted =
      (phase 0).unaccounted :=
    view_update Phase.unaccounted (by rw [hun]; rfl) 0
  have houtstanding : outstanding i s' (Function.update phase j (.claimed (s.window i).pending))
      (Function.update size j (s.window i).count) = outstanding i s phase size := by
    rw [outstanding, outstanding, hwindow, hunaccounted, sum_update_of_zero hzero]
    dsimp only
    omega
  refine ⟨?_, ?_, ?_, fun x => ?_, ?_, ?_, ?_⟩
  · rw [hpositions, hstored, hwindow, hunaccounted]
    have hbefore : Accounts (positions i s) (stored k s)
        (Function.update size j (s.window i).count j + (phase 0).unaccounted) (fun x => (phase x).position)
        size := by
      rw [Function.update_self]
      exact h.accounts
    rw [Nat.zero_add]
    refine hbefore.claim hzero ?_ (fun x hx => ?_) (fun x hx => Function.update_of_ne hx ..)
    · rw [Function.update_self]
      exact h.pending
    · rw [Function.update_of_ne hx]
  · rw [hpositions, hwindow, hunaccounted]
    exact h.pending
  · -- an empty window leaves room in every phase
    rw [hwindow]
    cases Function.update phase j (.claimed (s.window i).pending) 0 with
    | idle => exact hbatch
    | handled pos => exact hbatch
    | full => exact Nat.zero_le _
    | claimed pos => rfl
    | checked pos => rfl
  · by_cases hx : x = j
    · subst hx
      rw [Function.update_self, Function.update_self]
      exact ⟨Nat.pos_of_ne_zero hcount, h.count_le⟩
    · rw [Function.update_of_ne hx, Function.update_of_ne hx]
      exact h.holds x
  · rw [hpositions, houtstanding]
    exact h.counted
  · rw [houtstanding]
    exact h.total
  · rw [hpositions]
    exact h.valid

/-- **A window is saved.** -/
theorem Books.save (hbatch : 0 < c.batch)
    (hphase : phase j = .checked pos) (hpositions : positions i s' = positions i s)
    (hwindow : s'.window i = s.window i) (hstored : stored k s' = max (stored k s) pos) :
    Books k i c n s' (Function.update phase j .idle) (Function.update size j 0) := by
  have hunaccounted : (Function.update phase j .idle 0).unaccounted = (phase 0).unaccounted :=
    view_update Phase.unaccounted (by rw [hphase]; rfl) 0
  have houtstanding : outstanding i s' (Function.update phase j .idle) (Function.update size j 0) ≤
      outstanding i s phase size := by
    rw [outstanding, outstanding, hwindow, hunaccounted]
    exact Nat.add_le_add_left (sum_update_zero_le size j) _
  refine ⟨?_, ?_, ?_, fun x => ?_, ?_, houtstanding.trans h.total, ?_⟩
  · have hpos : max (stored k s) pos = stored k s ⊔ (phase j).position := by
      rw [hphase]
      rfl
    rw [hpositions, hstored, hwindow, hunaccounted, hpos]
    exact h.accounts.settle (fun x hx => by rw [Function.update_of_ne hx])
      (fun x hx => Function.update_of_ne hx ..) (Function.update_self ..)
  · rw [hpositions, hwindow, hunaccounted]
    exact h.pending
  · rw [hwindow]
    have hroom := h.room
    by_cases hj : j = 0
    · subst hj
      rw [hphase] at hroom
      rw [Function.update_self]
      exact hroom.trans_lt hbatch
    · rw [Function.update_of_ne (Ne.symm hj)]
      exact hroom
  · by_cases hx : x = j
    · subst hx
      rw [Function.update_self, Function.update_self]
      rfl
    · rw [Function.update_of_ne hx, Function.update_of_ne hx]
      exact h.holds x
  · rw [hpositions]
    exact houtstanding.trans h.counted
  · rw [hpositions]
    exact h.valid

end Books

/-! ## One step -/

/-- **The invariant** of the shared state and of what is noted of the two programs. -/
def Kept (k : Key) (i : Nat) (c : Consumer) (n : Nat) (s : State) (gs : Nat → Duty) : Prop :=
  Reading i s (gs 0) ∧ ∃ size, Books k i c n s (fun j : Fin 2 => (gs j).phase) size

section Step

variable {A : Adapter} {ever : Log} {k : Key} {i : Nat} {c : Consumer} {n : Nat} {s s' : State}
variable {gs : Nat → Duty} {ch : Choice}

/-- What is noted of one of the two programs changes its phase only. -/
theorem phase_update (j : Fin 2) (g : Duty) :
    (fun x : Fin 2 => (Function.update gs (j : Nat) g x).phase) =
      Function.update (fun x : Fin 2 => (gs x).phase) j g.phase := by
  funext x
  by_cases hx : x = j
  · rw [hx, Function.update_self, Function.update_self]
  · rw [Function.update_of_ne hx, Function.update_of_ne (fun h => hx (Fin.ext h))]

theorem Reading.frame (h : Reading i s g) (hpositions : positions i s' = positions i s) :
    Reading i s' g :=
  ⟨fun p hp => h.cursor p (hpositions ▸ hp), h.unaccounted, h.sorted, h.above⟩

/-- The stream goes on to a phase in which everything is accounted. -/
theorem Reading.rephase (h : Reading i s g) (hq : q.unaccounted = 0) :
    Reading i s { g with phase := q } := by
  refine ⟨h.cursor, fun pos hpos => ?_, h.sorted, h.above⟩
  obtain rfl : q = .handled pos := hpos
  cases hq

/-- One of the programs goes on to another phase. -/
theorem Kept.turn (h : Reading i s (gs 0)) (j : Fin 2) (hq : q.unaccounted = 0)
    (hpositions : positions i s' = positions i s)
    (hbooks : Books k i c n s' (Function.update (fun x : Fin 2 => (gs x).phase) j q) size) :
    Kept k i c n s' (Function.update gs (j : Nat) { gs j with phase := q }) := by
  refine ⟨?_, size, ?_⟩
  · by_cases hj : j = 0
    · subst hj
      rw [show ((0 : Fin 2) : Nat) = 0 from rfl, Function.update_self]
      exact (h.rephase hq).frame hpositions
    · have hne : (0 : Nat) ≠ j := fun h0 => hj (Fin.ext h0.symm)
      rw [Function.update_of_ne hne]
      exact h.frame hpositions
  · rw [phase_update]
    exact hbooks

/-- Nothing changes but what others may change. -/
theorem Kept.frame (h : Kept k i c n s gs) (hpositions : positions i s' = positions i s)
    (hwindow : s'.window i = s.window i) (hstored : stored k s ≤ stored k s') : Kept k i c n s' gs := by
  obtain ⟨hreading, size, hbooks⟩ := h
  exact ⟨hreading.frame hpositions, size, hbooks.frame hpositions hwindow hstored⟩

/-- A save leaves the higher of the two positions. -/
theorem stored_save (hash : Bytes) (pos : Nat) :
    stored k (s.withTables (s.tables.save s.now k hash pos)) = max (stored k s) pos := by
  unfold stored
  rw [State.withTables, Tables.save_checkpoints_self]
  cases s.tables.checkpoints k with
  | none => exact (Nat.zero_max pos).symm
  | some cp => rfl

/-- A save never moves a checkpoint back. -/
theorem stored_le_save (k' : Key) (hash : Bytes) (pos : Nat) :
    stored k s ≤ stored k (s.withTables (s.tables.save s.now k' hash pos)) := by
  by_cases hk : k = k'
  · subst hk
    rw [stored_save]
    exact Nat.le_max_left ..
  · unfold stored
    rw [State.withTables, Tables.save_checkpoints_of_ne hk]

/-- A call that leaves the ledger alone. -/
theorem Kept.quiet (h : Kept k i c n s gs) (ho : o.quiet = true) {r : Res o}
    (hex : exec A ever o ch s = some (s', r)) : Kept k i c n s' gs := by
  have hledger := (exec_framed hex).ledger ho
  have hhandled : s'.handled = s.handled := congrArg Ledger.handled hledger
  have hcheckpoints : s'.tables.checkpoints = s.tables.checkpoints := congrArg Ledger.checkpoints hledger
  refine h.frame ?_ (congrFun (congrArg Ledger.window hledger) i) ?_
  · rw [positions, positions, hhandled]
  · rw [stored, stored, hcheckpoints]

/-- **The calls of the others** keep the invariant. -/
theorem Kept.foreign (h : Kept k i c n s gs) (ho : Foreign i o) {r : Res o}
    (hex : exec A ever o ch s = some (s', r)) : Kept k i c n s' gs := by
  cases o with
  | save k' hash pos =>
    have hsaved : Kept k i c n (s.withTables (s.tables.save s.now k' hash pos)) gs :=
      h.frame rfl rfl (stored_le_save k' hash pos)
    exact answer_preserves (I := fun u => Kept k i c n u gs) hex h hsaved
  | begin st =>
    cases hex
    exact h.frame rfl rfl (Nat.le_refl _)
  | handle j k' hash e =>
    simp only [exec] at hex
    cases hf : ch.fault <;> rw [hf] at hex <;> cases hex
    · refine h.frame ?_ rfl (Nat.le_refl _)
      have hj : j ≠ i := ho
      rw [positions, positions, List.filter_cons_of_neg (by simpa using hj)]
    · exact h
    · exact h
  | account j pos batch =>
    cases hex
    exact h.frame rfl (Function.update_of_ne (Ne.symm ho) ..) (Nat.le_refl _)
  | claim j =>
    have hclaim : s.claim j = (s', r) := Option.some.inj hex
    rcases s.claim_cases j with hc | hc <;> rw [hc] at hclaim <;> cases hclaim
    · exact h
    · exact h.frame rfl (Function.update_of_ne (Ne.symm ho) ..) (Nat.le_refl _)
  | reset k' hash pos => exact ho.elim
  | delete k' => exact ho.elim
  | _ => exact h.quiet (by rfl) hex

theorem quiet_of_aside (ho : Aside o) : o.quiet = true := by
  cases o <;> first | rfl | cases ho

/-- A program that holds a window has handled something. -/
theorem Books.exists_handled {phase : Fin 2 → Phase} (h : Books k i c n s phase size)
    (hflight : (phase j).inFlight = true) : ∃ x ∈ s.handled, x.session = i := by
  have hholds := h.holds j
  rw [Phase.Holds, hflight] at hholds
  have hsum : size j ≤ ∑ x, size x := Finset.single_le_sum (fun _ _ => Nat.zero_le _) (Finset.mem_univ j)
  have hlength : 0 < (positions i s).length := by
    have hcounted := h.counted
    unfold outstanding at hcounted
    have hpos : 0 < size j := hholds.1
    omega
  obtain ⟨p, hp⟩ := List.exists_mem_of_length_pos hlength
  obtain ⟨x, hx, -⟩ := List.mem_map.mp hp
  rw [List.mem_filter, decide_eq_true_eq] at hx
  exact ⟨x, hx.1, hx.2⟩

/-- **The lease is checked** and is the attempt's own. -/
theorem Kept.check (h : Kept k i c n s gs) (j : Fin 2) (hphase : (gs j).phase = .claimed pos)
    (hpass : AckPasses A i c s ch (.holder k)) {r : Except Failure (Option Lease)}
    (hex : exec A ever (.holder k) ch s = some (s', r)) :
    Kept k i c n s' (Function.update gs (j : Nat) { gs j with phase := (gs j).phase.check c.token r }) := by
  obtain ⟨hreading, size, hbooks⟩ := h
  have hflight : (gs j).phase.inFlight = true := by
    rw [hphase]
    rfl
  obtain ⟨hfault, howner⟩ := hpass (hbooks.exists_handled (j := j) hflight)
  obtain ⟨lease, hlease, howner⟩ := Option.map_eq_some_iff.mp howner
  have hanswer : answer ch s s (s.tables.holder A s.now k) = (s', r) := Option.some.inj hex
  rw [answer, hfault, hlease] at hanswer
  cases hanswer
  have hchecked : (gs j).phase.check c.token (.ok (some lease)) = .checked pos := by
    rw [hphase]
    exact if_pos howner
  rw [hchecked]
  refine Kept.turn hreading j rfl rfl (hbooks.rephase ?_ ?_ ?_ (fun hj => ?_))
  · rw [hphase]
    rfl
  · rw [hphase]
    rfl
  · rw [hphase]
    rfl
  · subst hj
    have hroom := hbooks.room
    rw [show (gs ((0 : Fin 2) : Nat)).phase = .claimed pos from hphase] at hroom
    exact hroom

/-- **What was claimed is saved.** -/
theorem Kept.save (h : Kept k i c n s gs) (hbatch : 0 < c.batch) (j : Fin 2) {hash : Bytes}
    (hphase : (gs j).phase = .checked pos) (hpass : ch.fault = .none) {r : Except Failure Unit}
    (hex : exec A ever (.save k hash pos) ch s = some (s', r)) :
    Kept k i c n s' (Function.update gs (j : Nat) { gs j with phase := .idle }) := by
  obtain ⟨hreading, size, hbooks⟩ := h
  have hanswer : answer ch s (s.withTables (s.tables.save s.now k hash pos)) () = (s', r) :=
    Option.some.inj hex
  rw [answer, hpass] at hanswer
  cases hanswer
  exact Kept.turn hreading j rfl rfl (hbooks.save hbatch hphase rfl rfl (stored_save hash pos))

/-- **The window is claimed**, unless there is nothing in it. -/
theorem Kept.claim (h : Kept k i c n s gs) (hbatch : 0 < c.batch) (j : Fin 2)
    (hphase : (gs j).phase = .full ∨ (gs j).phase = .idle) {r : Option Nat}
    (hex : exec A ever (.claim i) ch s = some (s', r)) :
    Kept k i c n s' (Function.update gs (j : Nat) ((gs j).note k c.token (.claim i) r)) := by
  obtain ⟨hreading, size, hbooks⟩ := h
  obtain ⟨hposition, hflight, hun⟩ : (gs j).phase.position = 0 ∧ (gs j).phase.inFlight = false ∧
      (gs j).phase.unaccounted = 0 := by
    rcases hphase with hp | hp <;> rw [hp] <;> exact ⟨rfl, rfl, rfl⟩
  have hclaim : s.claim i = (s', r) := Option.some.inj hex
  unfold State.claim at hclaim
  by_cases hcount : (s.window i).count = 0
  · rw [if_pos hcount] at hclaim
    cases hclaim
    refine Kept.turn hreading j rfl rfl (hbooks.rephase hposition.symm hflight.symm hun.symm fun _ => ?_)
    rw [hcount]
    exact hbatch
  · rw [if_neg hcount] at hclaim
    cases hclaim
    -- something is in the window, so the key is valid
    have hvalid : validateKey k = none := by
      apply hbooks.valid
      intro hnil
      have hcounted := hbooks.counted
      rw [hnil, List.length_nil] at hcounted
      unfold outstanding at hcounted
      omega
    have hnote : (gs j).note k c.token (.claim i) (some (s.window i).pending) =
        { gs j with phase := .claimed (s.window i).pending } := by
      simp only [Duty.note, if_pos hvalid]
    rw [hnote]
    exact Kept.turn hreading j rfl rfl
      (hbooks.claim hbatch hflight hun hcount rfl (Function.update_self ..) rfl)

/-- What is noted of the stream changes, and not its phase. -/
theorem Kept.moveStream (h : Kept k i c n s gs) (hphase : g.phase = (gs 0).phase)
    (hreading : Reading i s g) : Kept k i c n s (Function.update gs 0 g) := by
  obtain ⟨-, size, hbooks⟩ := h
  refine ⟨by rwa [Function.update_self], size, ?_⟩
  rw [show (0 : Nat) = ((0 : Fin 2) : Nat) from rfl, phase_update, hphase,
    show (gs 0).phase = (fun x : Fin 2 => (gs x).phase) 0 from rfl, Function.update_eq_self]
  exact hbooks

/-- **The stream starts.** -/
theorem Kept.begin (h : Kept k i c n s gs) (hg : gs 0 = ⟨.idle, none, page⟩) (pos : Nat) :
    Kept k i c n s (Function.update gs 0 ⟨.idle, some pos, page⟩) := by
  have hreading := h.1
  rw [hg] at hreading
  refine h.moveStream (by rw [hg]) ⟨fun p hp => ?_, fun q hq => (by cases hq), hreading.sorted, fun e he => ?_⟩
  · obtain ⟨q, hq, -⟩ := hreading.cursor p hp
    cases hq
  · obtain ⟨q, hq, -⟩ := hreading.above e he
    cases hq

/-- **A page is read** from the position of the stream. -/
theorem Kept.read (h : Kept k i c n s gs) (hg : gs 0 = ⟨.idle, some pos, page⟩) {page' : List Event}
    (hsorted : page'.Pairwise (fun a b => a.globalPosition < b.globalPosition))
    (habove : ∀ e ∈ page', pos < e.globalPosition) :
    Kept k i c n s (Function.update gs 0 ⟨.idle, some pos, page'⟩) := by
  have hreading := h.1
  rw [hg] at hreading
  exact h.moveStream (by rw [hg]) ⟨hreading.cursor, fun q hq => (by cases hq), hsorted,
    fun e he => ⟨pos, rfl, habove e he⟩⟩

/-- **The next event of the page is handled.** -/
theorem Kept.handle (h : Kept k i c n s gs) (hvalid : validateKey k = none) {cursor : Option Nat} {e : Event}
    {es : List Event} (hg : gs 0 = ⟨.idle, cursor, e :: es⟩)
    (hroom : ∀ size, Books k i c n s (fun j : Fin 2 => (gs j).phase) size →
      outstanding i s (fun j : Fin 2 => (gs j).phase) size < n) (k' : Key) (hash : Bytes) :
    Kept k i c n { s with handled := ⟨i, k', hash, e.globalPosition⟩ :: s.handled }
      (Function.update gs 0 ⟨.handled e.globalPosition, some e.globalPosition, es⟩) := by
  obtain ⟨hreading, size, hbooks⟩ := h
  have hphase : (gs 0).phase = .idle := by rw [hg]
  have hpositions : positions i { s with handled := ⟨i, k', hash, e.globalPosition⟩ :: s.handled } =
      e.globalPosition :: positions i s := by
    simp [positions]
  rw [hg] at hreading
  obtain ⟨q, hq, hlt⟩ := hreading.above e List.mem_cons_self
  obtain ⟨hhead, htail⟩ := List.pairwise_cons.mp hreading.sorted
  refine ⟨?_, size, ?_⟩
  · rw [Function.update_self]
    refine ⟨fun p hp => ⟨e.globalPosition, rfl, ?_⟩, fun pos hpos => ?_, htail,
      fun e' he' => ⟨e.globalPosition, rfl, hhead e' he'⟩⟩
    · rw [hpositions] at hp
      rcases List.mem_cons.mp hp with rfl | hp
      · exact Nat.le_refl _
      · -- what was handled before is at most at the old position of the stream
        obtain ⟨q', hq', hle⟩ := hreading.cursor p hp
        cases hq.symm.trans hq'
        omega
    · rw [Phase.handled.inj hpos]
  · rw [show (0 : Nat) = ((0 : Fin 2) : Nat) from rfl, phase_update]
    exact hbooks.handle hphase hvalid (hroom size hbooks) hpositions rfl rfl

/-- **The handled event is accounted.** -/
theorem Kept.account (h : Kept k i c n s gs) {cursor : Option Nat}
    (hg : gs 0 = ⟨.handled pos, cursor, page⟩) {full : Bool}
    (hex : exec A ever (.account i pos c.batch) ch s = some (s', full)) :
    Kept k i c n s' (Function.update gs 0 ((gs 0).note k c.token (.account i pos c.batch) full)) := by
  obtain ⟨hreading, size, hbooks⟩ := h
  have hphase : (gs 0).phase = .handled pos := by rw [hg]
  have hbelow : ∀ p ∈ positions i s, p ≤ pos := by
    intro p hp
    obtain ⟨q, hq, hle⟩ := hreading.cursor p hp
    rw [hreading.unaccounted pos hphase] at hq
    exact hle.trans_eq (Option.some.inj hq).symm
  have haccount : s.account i pos c.batch = (s', full) := Option.some.inj hex
  unfold State.account at haccount
  obtain ⟨rfl, hfull⟩ := Prod.mk.inj haccount
  have hbooks' : ∀ q, q = .full ∨ q = .idle ∧ (s.window i).count + 1 < c.batch →
      Books k i c n { s with window := Function.update s.window i ⟨pos, (s.window i).count + 1⟩ }
        (Function.update (fun x : Fin 2 => (gs x).phase) 0 q) size := by
    intro q hq
    refine hbooks.account hphase hbelow ?_ ?_ ?_ hq
    · rfl
    · exact Function.update_self ..
    · rfl
  cases full with
  | true => exact Kept.turn hreading 0 rfl rfl (hbooks' .full (.inl rfl))
  | false =>
    have hlt : (s.window i).count + 1 < c.batch := by simpa using hfull
    exact Kept.turn hreading 0 rfl rfl (hbooks' .idle (.inr ⟨rfl, hlt⟩))

/-- **The calls of the attempt** keep the invariant, if its acknowledgements pass and there is room for what is
handled. -/
theorem Kept.own (h : Kept k i c n s gs) (hbatch : 0 < c.batch) {j : Nat} (hj : j < 2) {r : Res o}
    (haccepts : Accepts k i c j (gs j) o) (hpass : AckPasses A i c s ch o)
    (hroom : handles o = true → ∀ size, Books k i c n s (fun j : Fin 2 => (gs j).phase) size →
      outstanding i s (fun j : Fin 2 => (gs j).phase) size < n)
    (hex : exec A ever o ch s = some (s', r)) :
    Kept k i c n s' (Function.update gs j ((gs j).note k c.token o r)) := by
  cases hg : gs j with
  | mk phase cursor page =>
  rw [hg] at haccepts
  cases haccepts with
  | aside ho =>
    rw [note_aside ho, ← hg, Function.update_eq_self]
    exact h.quiet (quiet_of_aside ho) hex
  | begin =>
    cases hex
    exact (h.begin hg _).frame rfl rfl (Nat.le_refl _)
  | read =>
    obtain ⟨rfl, hpage⟩ := exec_readAllBounded hex
    rcases (r : Except Feed.ReadError (List Event × Bool)) with err | ⟨page', truncated⟩
    · -- a failed read changes nothing
      exact h.moveStream (congrArg Duty.phase hg).symm (hg ▸ h.1)
    · have hvalid := hpage _ rfl
      exact h.read hg hvalid.sorted hvalid.above
  | handle hvalid =>
    simp only [exec] at hex
    cases hf : ch.fault <;> rw [hf] at hex <;> cases hex
    · exact h.handle hvalid hg (hroom rfl) _ _
    · exact h.moveStream (congrArg Duty.phase hg).symm (hg ▸ h.1)
    · exact h.moveStream (congrArg Duty.phase hg).symm (hg ▸ h.1)
  | account =>
    rw [← hg]
    exact h.account hg hex
  | claimFull =>
    rw [← hg]
    exact h.claim hbatch 0 (.inl (congrArg Duty.phase hg)) hex
  | claimTick =>
    rw [← hg]
    exact h.claim hbatch 1 (.inr (congrArg Duty.phase hg)) hex
  | holder =>
    rw [← hg]
    exact h.check ⟨j, hj⟩ (congrArg Duty.phase hg) hpass hex
  | save =>
    rw [← hg]
    exact h.save hbatch ⟨j, hj⟩ (congrArg Duty.phase hg) hpass hex

end Step

/-! ## Runs -/

section Runs

variable {A : Adapter} {ever : Log} {cfg : Config} {k : Key} {d : Definition} {i : Nat} {c : Consumer}

/-- Only the stream calls the handler, and it holds no window then. -/
theorem Accepts.of_handles {j : Nat} (h : Accepts k i c j g o) (ho : handles o = true) :
    j = 0 ∧ g.phase = .idle := by
  cases h with
  | handle hvalid => exact ⟨rfl, rfl⟩
  | @aside _ _ _ o haside =>
    cases o with
    | handle => cases haside
    | _ => cases ho
  | _ => cases ho

/-- A program that holds a window acknowledges it next. -/
theorem Accepts.inFlight {j : Nat} (h : Accepts k i c j g o) (ho : acknowledges o = false) :
    g.phase.inFlight = false := by
  cases h with
  | holder => cases ho
  | save => cases ho
  | _ => rfl

/-- While the ack clock is idle, it holds no window. -/
theorem inFlight_of_clockIdle {P : AttemptPool} {gs : Nat → Duty}
    (htracked : Tracked (attemptMonitor k i c) Duty.start (fun g => g.phase = .idle) P gs)
    (hidle : ClockIdle P) : (gs 1).phase.inFlight = false := by
  cases hth : P.thread 1 with
  | none =>
    rw [htracked.returned 1 hth]
    rfl
  | some x =>
    obtain ⟨call, p⟩ := x
    have hwatched := htracked.running 1 call p hth
    cases p with
    | ret a =>
      rw [show (gs 1).phase = .idle from hwatched]
      rfl
    | call o k' => exact Accepts.inFlight hwatched.1 (hidle _ hth)

/-- **There is room for one more event** when the stream calls its handler: a window of the clock may be
outstanding besides its own, or none if the handler waits for it. -/
theorem Books.room_of_idle {n : Nat} {s : State} {phase : Fin 2 → Phase} (h : Books k i c n s phase size)
    (hidle : phase 0 = .idle) (hn : c.batch ≤ n)
    (hclock : n < 2 * c.batch → (phase 1).inFlight = false) : outstanding i s phase size < n := by
  have hroom := h.room
  rw [hidle] at hroom
  have hcount : (s.window i).count < c.batch := hroom
  have hstream : size 0 = 0 := h.size_eq_zero (by rw [hidle]; rfl)
  rw [outstanding, Fin.sum_univ_two, hstream, hidle]
  simp only [Phase.unaccounted]
  by_cases hflight : (phase 1).inFlight = true
  · have hholds := h.holds 1
    rw [Phase.Holds, if_pos hflight] at hholds
    have hwide : ¬ n < 2 * c.batch := fun hlt => by rw [hclock hlt] at hflight; cases hflight
    omega
  · have hzero := h.size_eq_zero (Bool.eq_false_iff.mpr hflight)
    omega

/-- **The books are kept** in every run of an attempt in which no acknowledgement fails. -/
theorem kept_of_run (hbatch : 0 < c.batch) {n : Nat} (hn : c.batch ≤ n) {s₀ : State}
    (hwindow : (s₀.window i).count = 0) (hhandled : ∀ h ∈ s₀.handled, h.session ≠ i)
    {as : List AttemptAction} {P : AttemptPool} (hrun : GuardedRun (attemptSystem A ever cfg k d).step
      (fun P a => AcksPass A i c P a ∧ (n < 2 * c.batch → Waits P a)) (Pool.start s₀) as P) :
    ∃ gs, Kept k i c n P.shared gs := by
  have hpositions : positions i s₀ = [] := by
    rw [positions, List.filter_eq_nil_iff.mpr (fun h hh => by simpa using hhandled h hh), List.map_nil]
  have hzero : outstanding i s₀ (fun _ => .idle) (fun _ => 0) = 0 := by
    simp [outstanding, hwindow, Phase.unaccounted]
  have hstart : Kept k i c n s₀ (fun _ => Duty.start) := by
    refine ⟨⟨fun p hp => ?_, fun pos hpos => (by cases hpos), List.Pairwise.nil, fun e he => (by cases he)⟩,
      fun _ => 0, ?_, ?_, ?_, fun j => rfl, ?_, ?_, fun hne => (hne hpositions).elim⟩
    · rw [hpositions] at hp
      cases hp
    · rw [hpositions]
      exact .nil
    · rw [hpositions]
      exact Nat.zero_le _
    · rw [hwindow]
      exact hbatch
    · exact hzero.trans_le (Nat.zero_le _)
    · exact hzero.trans_le (Nat.zero_le _)
  have htracked : Tracked (attemptMonitor k i c) Duty.start (fun g => g.phase = .idle)
      (Pool.start s₀ : AttemptPool) (fun _ => Duty.start) :=
    Tracked.start (by rfl) s₀
  refine (Tracked.run (I := Kept k i c n) (fun P j call hok => watched_method_of_oneAttempt hok.1) ?_ ?_ hrun
    htracked hstart).imp (fun gs h => h.2)
  · intro P gs j ch call o cont s r htracked hkept hok hth haccepts hex
    by_cases hj : j < 2
    · -- a call of the attempt itself
      have hmonitor : attemptMonitor k i c j = dutyMonitor k i c j := if_pos hj
      rw [hmonitor] at haccepts ⊢
      refine hkept.own hbatch hj haccepts (hok.1 hj _ hth) (fun ho size hbooks => ?_) hex
      obtain ⟨rfl, hidle⟩ := Accepts.of_handles haccepts ho
      refine hbooks.room_of_idle hidle hn (fun hlt => inFlight_of_clockIdle htracked ?_)
      exact hok.2 hlt _ hth ho
    · have hmonitor : attemptMonitor k i c j = ⟨fun _ => Foreign i, fun g _ _ => g⟩ := if_neg hj
      rw [hmonitor] at haccepts ⊢
      rw [Function.update_eq_self]
      exact hkept.foreign haccepts hex
  · intro e s s' gs hkept henv
    cases e with
    | advance dt =>
      cases henv
      exact hkept.frame rfl rfl (Nat.le_refl _)
    | commit scope e =>
      simp only [attemptSystem, feedSystem, envStep] at henv
      split at henv
      · cases henv
        exact hkept.frame rfl rfl (Nat.le_refl _)
      · cases henv

/-- What is on the books bounds what is not saved. -/
theorem Kept.unsaved_le {n : Nat} {s : State} {gs : Nat → Duty} (h : Kept k i c n s gs) :
    unsaved k i s ≤ n := by
  obtain ⟨-, size, hbooks⟩ := h
  exact hbooks.accounts.unsaved_le.trans hbooks.total

/-- **One page.** In every run of an attempt among others in which no acknowledgement of it fails and the
handler waits for the ack clock, at most one batch of events that it has handled is above the stored
checkpoint. -/
theorem unsaved_le_batch (A : Adapter) (ever : Log) (cfg : Config) (k : Key) (d : Definition) (i : Nat)
    (c : Consumer) (hbatch : 0 < c.batch) (s₀ : State) (hwindow : (s₀.window i).count = 0)
    (hhandled : ∀ h ∈ s₀.handled, h.session ≠ i) (as : List AttemptAction) (P : AttemptPool)
    (hrun : GuardedRun (attemptSystem A ever cfg k d).step (fun P a => AcksPass A i c P a ∧ Waits P a)
      (Pool.start s₀) as P) :
    unsaved k i P.shared ≤ c.batch := by
  have hguard : GuardedRun (attemptSystem A ever cfg k d).step
      (fun P a => AcksPass A i c P a ∧ (c.batch < 2 * c.batch → Waits P a)) (Pool.start s₀) as P :=
    hrun.mono (fun Q a h => ⟨h.1, fun _ => h.2⟩)
  obtain ⟨gs, hkept⟩ := kept_of_run hbatch (Nat.le_refl _) hwindow hhandled hguard
  exact hkept.unsaved_le

end Runs

/-! ## A slow tick -/

instance (A : Adapter) (i : Nat) (c : Consumer) (P : AttemptPool) :
    (a : AttemptAction) → Decidable (AcksPass A i c P a)
  | .spawn j call => inferInstanceAs (Decidable (OneAttempt i c j call))
  | .step j ch =>
    inferInstanceAs (Decidable (j < 2 → ∀ x ∈ P.thread j, x.2.Next (AckPasses A i c P.shared ch)))
  | .env _ => .isTrue trivial

instance (P : AttemptPool) : Decidable (ClockIdle P) :=
  inferInstanceAs (Decidable (∀ x ∈ P.thread 1, x.2.Next (fun o => acknowledges o = false)))

instance (P : AttemptPool) : (a : AttemptAction) → Decidable (Waits P a)
  | .step 0 _ => inferInstanceAs
      (Decidable (∀ x ∈ P.thread 0, x.2.Next (fun o => handles o = true → ClockIdle P)))
  | .step (_ + 1) _ => .isTrue trivial
  | .spawn _ _ => .isTrue trivial
  | .env _ => .isTrue trivial

/-- A consumer that acknowledges two events at a time. -/
def pairConsumer : Consumer := ⟨str "a", str "worker", 2⟩

/-- A log with three events of type `t`. -/
def threeEventLog : Log :=
  ((Log.empty.add ordersKey.scope ⟨1, str "t", []⟩).add ordersKey.scope ⟨2, str "t", []⟩).add ordersKey.scope
    ⟨3, str "t", []⟩

/-- The stream takes some steps. -/
def streamSteps (chs : List Choice) : List AttemptAction := chs.map (.step 0)

/-- The stream starts, reads a page of two events and handles and accounts the first one. A tick claims the
window then. -/
def tickAfterFirst : List AttemptAction :=
  [.spawn 0 (.subscribe 0 pairConsumer 2), .spawn 1 (.loop 0 pairConsumer 1)] ++
    streamSteps
      [{}, {}, {}, { number := 3 }, {}, {}, { page := [⟨1, str "t", []⟩, ⟨2, str "t", []⟩] }, {}, {}] ++
    [.step 1 {}, .step 1 {}]

/-- **A slow tick.** The ack clock has claimed the first event and not saved it yet. The stream accounts the
second one without filling the window, reads the next page and handles the third one: three events are above
the stored checkpoint, with a batch of two. -/
theorem tick_in_flight_unsaved :
    ∃ P, GuardedRun (attemptSystem Sqlite.feedAdapter threeEventLog defaultConfig ordersKey ordersOfT).step
        (AcksPass Sqlite.feedAdapter 0 pairConsumer) (Pool.start (State.start 0 threeEventLog))
        (tickAfterFirst ++ streamSteps [{}, {}, {}, { page := [⟨3, str "t", []⟩] }, {}]) P ∧
      unsaved ordersKey 0 P.shared = 3 ∧ pairConsumer.batch = 2 :=
  exists_guardedRun (by decide +kernel)

/-- A tick that is saved before the handler is called again leaves one event above the checkpoint. -/
theorem unsaved_le_batch_tick :
    ∃ P, GuardedRun (attemptSystem Sqlite.feedAdapter threeEventLog defaultConfig ordersKey ordersOfT).step
        (fun P a => AcksPass Sqlite.feedAdapter 0 pairConsumer P a ∧ Waits P a)
        (Pool.start (State.start 0 threeEventLog)) (tickAfterFirst ++ [.step 1 {}, .step 1 {}, .step 0 {}]) P ∧
      (stored ordersKey P.shared = 1 ∧ unsaved ordersKey 0 P.shared = 1) ∧
      unsaved ordersKey 0 P.shared ≤ pairConsumer.batch := by
  refine exists_guardedRun_of _ (by decide +kernel) fun P hrun hstored => ⟨hstored, ?_⟩
  exact unsaved_le_batch _ _ _ _ _ _ _ (by decide) _ rfl (fun h hh => absurd hh List.not_mem_nil) _ P hrun

end EsLite.Eventfeed
