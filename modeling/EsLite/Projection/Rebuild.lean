import EsLite.Foundation.Windows
import EsLite.Projection.Buffered

/-!
# Rebuild and live delivery

`Runner.Rebuild` replays the log from its beginning, page by page, and stops at a page that is not full;
`Runner.Run` over a `LogFeed` pages on and polls. Both hand every envelope to the same `apply`, and the
marker skips what was applied before.

* `Runner.rebuild` — `Replay` with `Runner.Apply`.
* `CaughtUp` — what was dispatched is the filtered log up to a position, and the marker stands there.
* `rebuild_same_as_live`: from a marker at zero both dispatch the filtered log, once and in order, and
  both complete it from wherever runs that failed or were interrupted have left it.
-/

namespace EsLite.Projection

open Prog (perform ofResult)
open Logic

/-! ## Replay -/

/-- `Runner.Apply`: one ordered batch. -/
def Runner.applyBatch (r : Runner) : List Envelope → RunAct RunError Unit
  | [] => pure ()
  | e :: rest => do
    r.apply e
    r.applyBatch rest

/-- The batch size of `Replay`, with its default. -/
def replaySize (batch : Int) : Nat := if batch ≤ 0 then 500 else batch.toNat

/-- The loop of `Replay`, for a number of rounds: the last position that was applied, and the error. -/
def replay (batch : Int) (apply : List Envelope → RunAct RunError Unit) :
    (rounds : Nat) → UInt64 → Prog RunOp RunRes (UInt64 × Option RunError)
  | 0, pos => pure (pos, some .unfinished)
  | rounds + 1, pos => do
    match ← (readAll pos (replaySize batch)).run with
    | .error err => pure (pos, some err)
    | .ok evs =>
      match evs.getLast? with
      | none => pure (pos, none)
      | some last =>
        match ← (apply evs).run with
        | .error err => pure (pos, some err)
        | .ok _ =>
          if evs.length < replaySize batch then pure (last.globalPosition, none) -- the log is exhausted
          else replay batch apply rounds last.globalPosition

/-- `Runner.Rebuild` -/
def Runner.rebuild (r : Runner) (batch : Int) (rounds : Nat) : Prog RunOp RunRes (UInt64 × Option RunError) :=
  replay batch r.applyBatch rounds 0

/-! ## A log and a position in it -/

/-- What the log has up to a position. -/
def EventLog.upTo (log : EventLog) (pos : UInt64) : List Envelope :=
  EsLite.upTo (fun e : Envelope => e.globalPosition.toNat) pos.toNat log.events

/-- The last position of the log, or zero. -/
def EventLog.last (log : EventLog) : UInt64 := (log.events.getLast?.map (·.globalPosition)).getD 0

namespace EventLog

variable {log : EventLog} {pos q : UInt64} {e : Envelope} {page rest : List Envelope}

theorem upTo_append_after (log : EventLog) (pos : UInt64) : log.upTo pos ++ log.after pos = log.events :=
  EsLite.upTo_append_above log.sorted pos.toNat

/-- What comes next is the last that is there up to its own position. -/
theorem upTo_next (hnext : log.after pos = e :: rest) :
    log.upTo e.globalPosition = log.upTo pos ++ [e] := by
  have hsplit := log.upTo_append_after e.globalPosition
  rw [EventLog.after, after_next log.sorted hnext] at hsplit
  refine (List.append_left_inj rest).mp ?_
  rw [hsplit, List.append_assoc, List.singleton_append, ← hnext, upTo_append_after]

theorem after_zero (log : EventLog) : log.after 0 = log.events :=
  List.filter_eq_self.mpr fun e he => decide_eq_true (log.positive e he)

theorem upTo_zero (log : EventLog) : log.upTo 0 = [] := by
  have hsplit := log.upTo_append_after 0
  rw [after_zero] at hsplit
  exact List.append_left_eq_self.mp hsplit

/-- No event lies above the last position, and if there are events it is the position of one. -/
theorem last_cases (log : EventLog) :
    (log.events = [] ∧ log.last = 0) ∨
      ∃ init e, log.events = init ++ [e] ∧ log.last = e.globalPosition ∧
        ∀ e' ∈ log.events, e'.globalPosition ≤ log.last := by
  cases hlast : log.events.getLast? with
  | none => exact .inl ⟨List.getLast?_eq_none_iff.mp hlast, by rw [EventLog.last, hlast]; rfl⟩
  | some e =>
    obtain ⟨init, hinit⟩ := List.getLast?_eq_some_iff.mp hlast
    have heq : log.last = e.globalPosition := by rw [EventLog.last, hlast]; rfl
    refine .inr ⟨init, e, hinit, heq, fun e' he' => ?_⟩
    rw [heq]
    have hsorted := log.sorted
    rw [hinit] at hsorted he'
    obtain hmem | hmem := List.mem_append.mp he'
    · exact UInt64.le_of_lt ((List.pairwise_append.mp hsorted).2.2 e' hmem e List.mem_cons_self)
    · rw [List.mem_singleton.mp hmem]
      exact UInt64.le_refl _

/-- What comes next lies at or below the last position. -/
theorem next_le_last (hnext : log.after pos = e :: rest) : e.globalPosition ≤ log.last := by
  have he : e ∈ log.events := (mem_after.mp (show e ∈ log.after pos from hnext ▸ List.mem_cons_self)).1
  obtain ⟨hnil, -⟩ | ⟨_, _, -, -, hall⟩ := log.last_cases
  · rw [hnil] at he
    cases he
  · exact hall e he

theorem after_last (log : EventLog) : log.after log.last = [] := by
  refine List.filter_eq_nil_iff.mpr fun e he => ?_
  obtain ⟨hnil, -⟩ | ⟨_, _, -, -, hall⟩ := log.last_cases
  · rw [hnil] at he
    cases he
  · rw [decide_eq_true_eq]
    exact Nat.not_lt.mpr (hall e he)

theorem upTo_last (log : EventLog) : log.upTo log.last = log.events := by
  have hsplit := log.upTo_append_after log.last
  rw [after_last, List.append_nil] at hsplit
  exact hsplit

/-- Where nothing comes after, the log has ended. -/
theorem eq_last (hle : pos ≤ log.last) (hnil : log.after pos = []) : pos = log.last := by
  refine UInt64.le_antisymm hle ?_
  obtain ⟨-, hzero⟩ | ⟨init, e, hevents, heq, -⟩ := log.last_cases
  · rw [hzero]
    exact UInt64.zero_le
  · rw [heq]
    refine UInt64.not_lt.mp fun hlt => ?_
    have hmem : e ∈ log.after pos :=
      mem_after.mpr ⟨hevents ▸ List.mem_append_right _ List.mem_cons_self, hlt⟩
    rw [hnil] at hmem
    cases hmem

end EventLog

/-! ## Caught up -/

/-- The position that the marker of a runner has. -/
def Runner.saved (r : Runner) (s : RunState) : UInt64 :=
  match r.marker with
  | .durable => s.durable r.name
  | .buffered _ => s.held r.name

theorem Runner.saved_durable {r : Runner} (hm : r.marker = .durable) (s : RunState) :
    r.saved s = s.durable r.name := by
  rw [Runner.saved, hm]

theorem Runner.saved_buffered {r : Runner} {m : BufferedMarker} (hm : r.marker = .buffered m)
    (s : RunState) : r.saved s = s.held r.name := by
  rw [Runner.saved, hm]

/-- **Caught up with a position**: what was dispatched without an error is the filtered log up to it, once
and in order, and the marker stands there. -/
structure CaughtUp (r : Runner) (log : EventLog) (s : RunState) (pos : UInt64) : Prop where
  successes : s.successes = (log.upTo pos).filter r.consumes
  saved : r.saved s = pos
  durable : s.durable r.name ≤ pos
  marker : s.loaded = true → s.marker = pos
  bound : pos ≤ log.last

/-- The marker stands before a position up to which everything was dispatched. -/
structure Ahead (r : Runner) (log : EventLog) (s : RunState) (pos q : UInt64) : Prop where
  successes : s.successes = (log.upTo q).filter r.consumes
  saved : r.saved s = pos
  durable : s.durable r.name ≤ pos
  lt : pos < q
  bound : q ≤ log.last

/-- In all states: what was dispatched is the filtered log up to a position that the durable marker does
not exceed. -/
def Within (r : Runner) (log : EventLog) (s : RunState) : Prop :=
  ∃ top, s.successes = (log.upTo top).filter r.consumes ∧ s.durable r.name ≤ top ∧ top ≤ log.last

/-- What the programs keep. -/
def rerunLogic (r : Runner) (log : EventLog) : Logic RunState RunOp where
  inv := Within r log
  le _ _ := True
  allowed _ _ := True
  refl _ := trivial
  trans _ _ _ _ _ := trivial

/-- Steps over a log that is there from the beginning, in which saves succeed, and other steps than
sleeping fail only if `F`. -/
structure Steps (log : EventLog) (exec : (o : RunOp) → RunAnswer → RunState → Option (RunState × RunRes o))
    (F : Prop) : Prop where
  saving : Saving log exec (fun _ => False)
  visible : ∀ pos limit x s y, exec (.readAll pos limit) x s = some y → log.events.length ≤ x.visible
  fails : ∀ o x s y, exec o x s = some y → o ≠ .sleep → x.fault = none ∨ F

variable {p : UInt64} {x : RunAnswer}

section Reruns

variable {r : Runner} {log : EventLog} {s t : RunState} {pos q : UInt64} {F : Prop}
  {exec : (o : RunOp) → RunAnswer → RunState → Option (RunState × RunRes o)} {m : BufferedMarker}

theorem CaughtUp.within (h : CaughtUp r log s pos) : Within r log s :=
  ⟨pos, h.successes, h.durable, h.bound⟩

theorem Ahead.within (h : Ahead r log s pos q) : Within r log s :=
  ⟨q, h.successes, UInt64.le_trans h.durable (UInt64.le_of_lt h.lt), h.bound⟩

/-- A buffered marker that moves positions around. -/
theorem CaughtUp.of_held (hs : CaughtUp r log s pos) (hm : r.marker = .buffered m) (h : HeldLe s t) :
    CaughtUp r log t pos := by
  have hheld : s.held r.name = pos := (Runner.saved_buffered hm s).symm.trans hs.saved
  refine ⟨h.frame.successes.trans hs.successes, ?_, ?_, fun hl => ?_, hs.bound⟩
  · rw [Runner.saved_buffered hm]
    exact (congrFun h.held r.name).trans hheld
  · obtain hq | hq := h.durable r.name
    · rw [hq]
      exact hs.durable
    · rw [hq, hheld]
      exact UInt64.le_refl pos
  · rw [h.frame.marker]
    exact hs.marker (h.frame.loaded ▸ hl)

variable {e : Envelope} {rest : List Envelope}

/-- The next envelope, with whether it was dispatched. -/
theorem CaughtUp.next (hs : CaughtUp r log s pos) (hnext : log.after pos = e :: rest)
    (hsaved : r.saved t = r.saved s) (hdurable : t.durable = s.durable)
    (hsuccesses : t.successes = s.successes ++ [e].filter r.consumes) : Ahead r log t pos e.globalPosition where
  successes := by rw [hsuccesses, hs.successes, EventLog.upTo_next hnext, List.filter_append]
  saved := hsaved.trans hs.saved
  durable := hdurable ▸ hs.durable
  lt := (mem_after.mp (show e ∈ log.after pos from hnext ▸ List.mem_cons_self)).2
  bound := EventLog.next_le_last hnext

theorem replaySize_pos (batch : Int) : 0 < replaySize batch := by
  unfold replaySize
  split <;> omega

/-- What is left after a page. -/
theorem after_take {limit : Nat} {last : Envelope}
    (hlast : ((log.after p).take limit).getLast? = some last) :
    log.after last.globalPosition = (log.after p).drop limit :=
  after_page log.sorted (List.take_append_drop limit (log.after p)).symm hlast

theorem batchSize_pos (f : LogFeed) : 0 < f.batchSize := by
  unfold LogFeed.batchSize
  split <;> omega

variable (hexec : Steps log exec F)

include hexec

theorem Steps.saving_of : Saving log exec (fun _ => F) :=
  ⟨hexec.saving.step, fun key pos x s t err h => (hexec.saving.fails key pos x s t err h).elim⟩

/-- A reply is a result, unless steps fail. -/
theorem Steps.reply {o : RunOp} {y : RunState × RunRes o} (h : exec o x s = some y) (ho : o ≠ .sleep)
    {α : Type} (a : α) : x.reply a = .ok a ∨ F ∧ ∃ err, x.reply a = .error err := by
  unfold RunAnswer.reply
  cases hfault : x.fault with
  | none => exact .inl rfl
  | some err =>
    obtain hnone | hF := hexec.fails o x s y h ho
    · rw [hfault] at hnone
      cases hnone
    · exact .inr ⟨hF, err, rfl⟩

/-- **The marker is loaded** from where it stands. -/
theorem rerun_load (hs : CaughtUp r log s pos) :
    (rerunLogic r log).Alone exec
      (Ends (fun _ t => F ∧ CaughtUp r log t pos) (fun p t => p = pos ∧ CaughtUp r log t pos))
      (r.marker.load r.name).run s := by
  cases hm : r.marker with
  | durable =>
    have hsaved : s.durable r.name = pos := (Runner.saved_durable hm s).symm.trans hs.saved
    refine Alone.performThen fun x t res hex => ?_
    cases hexec.saving.step _ _ _ _ hex
    refine ⟨hs.within, trivial, ?_⟩
    obtain hok | ⟨hF, err, herr⟩ := hexec.reply hex (fun h => by cases h) (s.durable r.name)
    · rw [hok]
      exact ⟨hsaved, hs⟩
    · rw [herr]
      exact ⟨hF, hs⟩
  | buffered m =>
    have hload : ∀ x s t err, exec (.loadInner r.name) x s = some (t, Except.error err) → F := by
      intro x s t err hex
      obtain hok | ⟨hF, -⟩ := hexec.reply hex (fun h => by cases h) (s.durable r.name)
      · have hres := (Prod.mk.inj (Option.some.inj (hexec.saving.step _ _ _ _ hex))).2
        rw [hok] at hres
        cases hres
      · exact hF
    refine ((held_load hexec.saving_of hload m).liftFrom (rerunLogic r log)
      (fun t _ h => (hs.of_held hm h).within) fun _ _ _ => trivial).weaken fun res t ht => ?_
    obtain ⟨hres, hle⟩ := ht
    have ht := hs.of_held hm hle
    cases res with
    | ok p => exact ⟨hres.trans ((Runner.saved_buffered hm s).symm.trans hs.saved), ht⟩
    | error err => exact ⟨hres, ht⟩

/-- `loadMarker` leaves the marker loaded. -/
theorem rerun_loadMarker (hs : CaughtUp r log s pos) :
    (rerunLogic r log).Alone exec
      (Ends (fun _ t => F ∧ CaughtUp r log t pos) (fun _ t => CaughtUp r log t pos ∧ t.loaded = true))
      r.loadMarker.run s := by
  refine Alone.performThen fun x t st hex => ?_
  cases hexec.saving.step _ _ _ _ hex
  refine ⟨hs.within, trivial, Alone.ite (fun hl => ⟨hs, hl⟩) (fun _ => ?_)⟩
  refine Alone.thenEnds (Alone.adaptEnds (rerun_load hexec hs) hs.within) hs.within fun p t _ _ ht => ?_
  obtain ⟨rfl, ht⟩ := ht
  intro x u _ hex
  cases hexec.saving.step _ _ _ _ hex
  have hu : CaughtUp r log { t with marker := p, loaded := true, startedAt := p } p :=
    ⟨ht.successes, ht.saved, ht.durable, fun _ => rfl, ht.bound⟩
  exact ⟨hu.within, trivial, hu, rfl⟩

/-- **A save** moves the marker to the position up to which everything was dispatched. -/
theorem rerun_save (hs : Ahead r log s pos q) :
    (rerunLogic r log).Alone exec
      (Ends (fun _ _ => False) (fun _ t => t.successes = s.successes ∧ r.saved t = q ∧ t.durable r.name ≤ q))
      (r.marker.save r.name q).run s := by
  cases hm : r.marker with
  | durable =>
    refine Alone.performThen fun x t res hex => ?_
    have hfault : x.fault = none := by
      cases hfault : x.fault with
      | none => rfl
      | some err =>
        obtain ⟨-, rfl⟩ := Prod.mk.inj (Option.some.inj (hexec.saving.step _ _ _ _ hex))
        simp only [RunAnswer.reply, hfault] at hex
        exact (hexec.saving.fails r.name q x s t err hex).elim
    cases hexec.saving.step _ _ _ _ hex
    simp only [RunAnswer.reply, hfault, Option.isNone_none, Bool.true_or, if_true]
    have hdurable : Function.update s.durable r.name q r.name = q := Function.update_self r.name q s.durable
    refine ⟨⟨q, hs.successes, ?_, hs.bound⟩, trivial, rfl, ?_, ?_⟩
    · exact UInt64.le_of_eq hdurable
    · rw [Runner.saved_durable hm]
      exact hdurable
    · exact UInt64.le_of_eq hdurable
  | buffered m =>
    have hheld : s.held r.name = pos := (Runner.saved_buffered hm s).symm.trans hs.saved
    have hdurable : ∀ t, SaveLe r.name q s t → t.durable r.name ≤ q := by
      intro t ht
      obtain h | h | ⟨-, h⟩ := ht.durable r.name
      · rw [h]
        exact UInt64.le_trans hs.durable (UInt64.le_of_lt hs.lt)
      · rw [h, hheld]
        exact UInt64.le_of_lt hs.lt
      · exact UInt64.le_of_eq h
    refine (held_save hexec.saving m (rerunLogic r log) (fun t ht =>
      ⟨q, ht.frame.successes.trans hs.successes, hdurable t ht, hs.bound⟩) fun _ _ _ => trivial).weaken
      fun res t ht => ?_
    obtain ⟨hheld', hle, hres⟩ := ht
    cases res with
    | error err => exact hres
    | ok _ =>
      refine ⟨hle.frame.successes, ?_, hdurable t hle⟩
      rw [Runner.saved_buffered hm]
      refine (congrFun hheld' r.name).trans ?_
      rw [Function.update_self, RunState.heldAfter, if_pos]
      refine UInt64.lt_of_le_of_lt ?_ hs.lt
      -- what is pending is what is held
      cases hpending : s.buffer.pending.lookup r.name with
      | none => exact UInt64.zero_le
      | some prev => exact UInt64.le_of_eq ((held_of_pending hpending).symm.trans hheld)

/-- **Moving on** to the position up to which everything was dispatched. -/
theorem rerun_advance (hs : Ahead r log s pos q) :
    (rerunLogic r log).Alone exec (Ends (fun _ _ => False) (fun _ t => CaughtUp r log t q))
      (r.advance q).run s := by
  have hwithin := hs.within
  refine Alone.thenEnds (Alone.adaptEnds (rerun_save hexec hs) hwithin) hwithin fun _ t _ _ ht => ?_
  obtain ⟨hsuccesses, hsaved, hdurable⟩ := ht
  intro x u _ hex
  cases hexec.saving.step _ _ _ _ hex
  have hu : CaughtUp r log { t with marker := q } q :=
    ⟨hsuccesses.trans hs.successes, hsaved, hdurable, fun _ => rfl, hs.bound⟩
  exact ⟨hu.within, trivial, hu⟩

/-- **A call of `Dispatch`** on the next envelope has no effect, or takes it. -/
theorem rerun_dispatch (hs : CaughtUp r log s pos)
    (hnext : log.after pos = e :: rest) (hcons : r.consumes e = true) :
    (rerunLogic r log).Alone exec
      (Ends (fun _ t => F ∧ CaughtUp r log t pos) (fun _ t => Ahead r log t pos e.globalPosition))
      (Runner.dispatch e).run s := by
  refine Alone.performThen fun x t res hex => ?_
  cases hexec.saving.step _ _ _ _ hex
  cases hfault : x.fault with
  | none =>
    have hahead : Ahead r log { s with calls := s.calls ++ [⟨s.startedAt, e, true⟩] } pos e.globalPosition := by
      refine hs.next hnext rfl rfl ?_
      rw [successes_dispatch, List.filter_cons_of_pos hcons]
      rfl
    simp only [RunAnswer.reply, hfault]
    exact ⟨hahead.within, trivial, hahead⟩
  | some err =>
    have hF : F := by
      obtain hnone | hF := hexec.fails _ x s _ hex fun h => by cases h
      · rw [hfault] at hnone
        cases hnone
      · exact hF
    have hcaught : CaughtUp r log { s with calls := s.calls ++ [⟨s.startedAt, e, false⟩] } pos := by
      refine ⟨?_, hs.saved, hs.durable, hs.marker, hs.bound⟩
      rw [successes_dispatch]
      exact (List.append_nil _).trans hs.successes
    simp only [RunAnswer.reply, hfault]
    exact ⟨hcaught.within, trivial, hF, hcaught⟩

/-- **Handling an envelope**, the first one after a position that the marker has reached: it is skipped,
or it is the next one for the marker as well. -/
theorem rerun_apply (hs : CaughtUp r log s pos) (hp : p ≤ pos) (hnext : log.after p = e :: rest) :
    (rerunLogic r log).Alone exec
      (Ends (fun _ t => F ∧ CaughtUp r log t pos)
        (fun _ t => ∃ pos', CaughtUp r log t pos' ∧ pos ≤ pos' ∧ e.globalPosition ≤ pos'))
      (r.apply e).run s := by
  refine Alone.thenEnds (rerun_loadMarker hexec hs) hs.within fun _ t _ _ ht => ?_
  obtain ⟨ht, hloaded⟩ := ht
  refine Alone.performThen fun x u st hex => ?_
  cases hexec.saving.step _ _ _ _ hex
  refine ⟨ht.within, trivial, Alone.ite (fun hskip => ?_) (fun hskip => ?_)⟩
  · exact ⟨pos, ht, UInt64.le_refl pos, ht.marker hloaded ▸ hskip⟩
  · have hlt : pos < e.globalPosition := by
      rw [← ht.marker hloaded]
      exact UInt64.not_le.mp hskip
    have hnext' : log.after pos = e :: rest := after_of_lt hnext log.sorted hp hlt
    have hdone : ∀ {v : RunState}, Ahead r log v pos e.globalPosition → (rerunLogic r log).Alone exec
        (Ends (fun _ t => F ∧ CaughtUp r log t pos)
          (fun _ t => ∃ pos', CaughtUp r log t pos' ∧ pos ≤ pos' ∧ e.globalPosition ≤ pos'))
        (r.advance e.globalPosition).run v := by
      intro v hv
      refine (rerun_advance hexec hv).weaken fun res w hw => ?_
      cases res with
      | error err => exact hw.elim
      | ok _ => exact ⟨e.globalPosition, hw, UInt64.le_of_lt hlt, UInt64.le_refl _⟩
    refine Alone.ite (fun hcons => hdone ?_) (fun hcons => ?_)
    · refine ht.next hnext' rfl rfl ?_
      rw [List.filter_cons_of_neg (by simpa using hcons), List.filter_nil, List.append_nil]
    · refine Alone.thenEnds (rerun_dispatch hexec ht hnext' (by simpa using hcons)) ht.within
        fun _ v _ _ hv => hdone hv

/-- **A batch**, the first envelopes after a position that the marker has reached. -/
theorem rerun_applyBatch (page : List Envelope) (hs : CaughtUp r log s pos)
    (hp : p ≤ pos) (hpage : log.after p = page ++ rest) :
    (rerunLogic r log).Alone exec
      (Ends (fun _ t => F ∧ ∃ pos', CaughtUp r log t pos')
        (fun _ t => ∃ pos', CaughtUp r log t pos' ∧ pos ≤ pos' ∧ ∀ e ∈ page, e.globalPosition ≤ pos'))
      (r.applyBatch page).run s := by
  induction page generalizing s pos p with
  | nil => exact ⟨pos, hs, UInt64.le_refl pos, fun _ he => absurd he List.not_mem_nil⟩
  | cons e page ih =>
    have happly : (rerunLogic r log).Alone exec (Ends (fun _ t => F ∧ ∃ pos', CaughtUp r log t pos')
        (fun _ t => ∃ pos', CaughtUp r log t pos' ∧ pos ≤ pos' ∧ e.globalPosition ≤ pos'))
        (r.apply e).run s := by
      refine (rerun_apply hexec hs hp hpage).weaken fun res t hres => ?_
      cases res with
      | error err => exact ⟨hres.1, pos, hres.2⟩
      | ok _ => exact hres
    refine Alone.thenEnds happly hs.within fun _ t _ _ ht => ?_
    obtain ⟨pos₁, ht, hup, he⟩ := ht
    have hrest : log.after e.globalPosition = page ++ rest := after_next log.sorted hpage
    refine (ih ht he hrest).weaken fun res u hres => ?_
    cases res with
    | error err => exact hres
    | ok _ =>
      obtain ⟨pos₂, hu, hup', hall⟩ := hres
      exact ⟨pos₂, hu, UInt64.le_trans hup hup',
        List.forall_mem_cons.mpr ⟨UInt64.le_trans he hup', hall⟩⟩

/-- A page of a log that is there from the beginning. -/
theorem rerun_readAll (hs : Within r log s) (p : UInt64) (limit : Nat) :
    (rerunLogic r log).Alone exec
      (Ends (fun _ t => F ∧ t = s) (fun evs t => t = s ∧ evs = (log.after p).take limit))
      (readAll p limit).run s := by
  refine Alone.performThen fun x t res hex => ?_
  have hvisible := hexec.visible p limit x s _ hex
  cases hexec.saving.step _ _ _ _ hex
  have hall : (log.after p).take x.visible = log.after p :=
    List.take_of_length_le ((List.length_filter_le _ _).trans hvisible)
  refine ⟨hs, trivial, ?_⟩
  obtain hok | ⟨hF, err, herr⟩ := hexec.reply hex (fun h => by cases h)
    (((log.after p).take x.visible).take limit)
  · rw [hok, hall]
    exact ⟨rfl, rfl⟩
  · rw [herr]
    exact ⟨hF, rfl⟩

/-- **A replay** from a position that the marker has reached: without an error it ends at the last position
of the log, and the marker with it. -/
theorem rerun_replay (batch : Int) (rounds : Nat) (hs : CaughtUp r log s pos)
    (hp : p ≤ pos) (hrounds : F ∨ (log.after p).length < rounds) :
    (rerunLogic r log).Alone exec
      (fun res t => ∃ pos', CaughtUp r log t pos' ∧
        (res.2 = none → res.1 = log.last ∧ pos' = log.last) ∧ (F ∨ res.2 = none))
      (replay batch r.applyBatch rounds p) s := by
  induction rounds generalizing s pos p with
  | zero => exact ⟨pos, hs, fun h => (by cases h), hrounds.imp_right fun h => absurd h (Nat.not_lt_zero _)⟩
  | succ rounds ih =>
    refine Alone.bind (rerun_readAll hexec hs.within p (replaySize batch)) hs.within fun res t _ _ ht => ?_
    cases res with
    | error err =>
      obtain ⟨hF, rfl⟩ := ht
      exact ⟨pos, hs, fun h => (by cases h), .inl hF⟩
    | ok evs =>
      obtain ⟨rfl, rfl⟩ := ht
      dsimp only
      split
      · -- an empty page: nothing comes after the position
        rename_i hnone
        have hnil : log.after p = [] := by
          have htake := List.getLast?_eq_none_iff.mp hnone
          exact (List.take_eq_nil_iff.mp htake).resolve_left (replaySize_pos batch).ne'
        have hlast : p = log.last := EventLog.eq_last (UInt64.le_trans hp hs.bound) hnil
        exact ⟨pos, hs, fun _ => ⟨hlast, UInt64.le_antisymm hs.bound (hlast ▸ hp)⟩, .inr rfl⟩
      · rename_i last hlast
        have hpage := (List.take_append_drop (replaySize batch) (log.after p)).symm
        refine Alone.bind (rerun_applyBatch hexec _ hs hp hpage) hs.within fun res u _ _ hu => ?_
        cases res with
        | error err =>
          obtain ⟨hF, pos', hu⟩ := hu
          exact ⟨pos', hu, fun h => (by cases h), .inl hF⟩
        | ok _ =>
          obtain ⟨pos', hu, -, hall⟩ := hu
          have hreached : last.globalPosition ≤ pos' := hall last (List.mem_of_getLast? hlast)
          have hrest := after_take hlast
          dsimp only
          split
          · -- a short page: the log is exhausted
            rename_i hshort
            have hnil : log.after last.globalPosition = [] := by
              rw [hrest, List.drop_eq_nil_iff]
              rw [List.length_take] at hshort
              omega
            have heq := EventLog.eq_last (UInt64.le_trans hreached hu.bound) hnil
            exact ⟨pos', hu, fun _ => ⟨heq, UInt64.le_antisymm hu.bound (heq ▸ hreached)⟩, .inr rfl⟩
          · rename_i hfull
            refine ih hu hreached (hrounds.imp_right fun hlt => ?_)
            rw [hrest, List.length_drop]
            rw [List.length_take] at hfull
            have := replaySize_pos batch
            omega

/-! ## Live delivery -/

theorem rerun_sleep (hs : Within r log s) :
    (rerunLogic r log).Alone exec (Ends (fun _ t => t = s) (fun _ t => t = s)) sleep.run s := by
  refine Alone.performThen fun x t res hex => ?_
  cases hexec.saving.step _ _ _ _ hex
  refine ⟨hs, trivial, ?_⟩
  cases x.reply () with
  | error err => exact rfl
  | ok _ => exact rfl

/-- An envelope is handed over again until it is acknowledged. -/
theorem rerun_retry (tries : Nat) (hs : CaughtUp r log s pos) (hp : p ≤ pos)
    (hnext : log.after p = e :: rest) :
    (rerunLogic r log).Alone exec
      (Ends (fun _ t => (F ∨ tries = 0) ∧ CaughtUp r log t pos)
        (fun _ t => ∃ pos', CaughtUp r log t pos' ∧ pos ≤ pos' ∧ e.globalPosition ≤ pos'))
      (retry r.apply e tries).run s := by
  induction tries generalizing s with
  | zero => exact ⟨.inr rfl, hs⟩
  | succ tries ih =>
    refine Alone.tryCatch (rerun_apply hexec hs hp hnext) hs.within (fun _ _ h => h) fun _ t _ _ ht => ?_
    obtain ⟨hF, ht⟩ := ht
    have hsleep : (rerunLogic r log).Alone exec
        (Ends (fun _ u => (F ∨ tries + 1 = 0) ∧ CaughtUp r log u pos) (fun _ u => u = t)) sleep.run t := by
      refine (rerun_sleep hexec ht.within).weaken fun res u hu => ?_
      cases res with
      | error err => exact ⟨.inl hF, hu ▸ ht⟩
      | ok _ => exact hu
    refine Alone.thenEnds hsleep ht.within fun _ u _ _ hu => ?_
    subst hu
    refine (ih ht).weaken fun res v hv => ?_
    cases res with
    | error err => exact ⟨.inl hF, hv.2⟩
    | ok _ => exact hv

/-- **A page of the feed**, the first envelopes after a position that the marker has reached. -/
theorem rerun_deliverPage (tries : Nat) (page : List Envelope)
    (hs : CaughtUp r log s pos) (hp : p ≤ pos) (hpage : log.after p = page ++ rest) :
    (rerunLogic r log).Alone exec
      (Ends (fun _ t => (F ∨ tries = 0) ∧ ∃ pos', CaughtUp r log t pos')
        (fun q t => log.after q = rest ∧ ∃ pos', CaughtUp r log t pos' ∧ q ≤ pos'))
      (deliverPage r.apply tries p page).run s := by
  induction page generalizing s pos p with
  | nil => exact ⟨hpage, pos, hs, hp⟩
  | cons e page ih =>
    have hretry : (rerunLogic r log).Alone exec
        (Ends (fun _ t => (F ∨ tries = 0) ∧ ∃ pos', CaughtUp r log t pos')
          (fun _ t => ∃ pos', CaughtUp r log t pos' ∧ e.globalPosition ≤ pos'))
        (retry r.apply e tries).run s := by
      refine (rerun_retry hexec tries hs hp hpage).weaken fun res t hres => ?_
      cases res with
      | error err => exact ⟨hres.1, pos, hres.2⟩
      | ok _ =>
        obtain ⟨pos', ht, -, he⟩ := hres
        exact ⟨pos', ht, he⟩
    refine Alone.thenEnds hretry hs.within fun _ t _ _ ht => ?_
    obtain ⟨pos', ht, he⟩ := ht
    refine Alone.performThen fun x u _ hex => ?_
    cases hexec.saving.step _ _ _ _ hex
    have hu : CaughtUp r log { t with cursor := e.globalPosition } pos' :=
      ⟨ht.successes, ht.saved, ht.durable, ht.marker, ht.bound⟩
    exact ⟨hu.within, trivial, ih hu he (after_next log.sorted hpage)⟩

/-- **The loop of the feed** ends when the context ends, or with its rounds. It has delivered everything
then, unless steps fail. -/
theorem rerun_loop (f : LogFeed) (tries rounds : Nat) (hs : CaughtUp r log s pos) (hp : p ≤ pos)
    (hrounds : F ∨ (log.after p).length ≤ rounds) (htries : F ∨ 0 < tries) :
    (rerunLogic r log).Alone exec (fun _ t => ∃ pos', CaughtUp r log t pos' ∧ (F ∨ pos' = log.last))
      (f.loop r.apply tries rounds p).run s := by
  -- where nothing comes after the position of the feed, the marker stands at the end
  have hend : ∀ {t : RunState} {pos' q : UInt64}, CaughtUp r log t pos' → q ≤ pos' → log.after q = [] →
      pos' = log.last := by
    intro t pos' q ht hq hnil
    have heq := EventLog.eq_last (UInt64.le_trans hq ht.bound) hnil
    exact UInt64.le_antisymm ht.bound (heq ▸ hq)
  induction rounds generalizing s pos p with
  | zero =>
    exact ⟨pos, hs, hrounds.imp_right fun h => hend hs hp (List.length_eq_zero_iff.mp (Nat.le_zero.mp h))⟩
  | succ rounds ih =>
    refine Alone.bind (rerun_readAll hexec hs.within p f.batchSize) hs.within fun res t _ _ ht => ?_
    cases res with
    | error err =>
      obtain ⟨hF, rfl⟩ := ht
      exact ⟨pos, hs, .inl hF⟩
    | ok evs =>
      obtain ⟨rfl, rfl⟩ := ht
      have hpage := (List.take_append_drop f.batchSize (log.after p)).symm
      refine Alone.bind (rerun_deliverPage hexec tries _ hs hp hpage) hs.within fun res u _ _ hu => ?_
      cases res with
      | error err =>
        obtain ⟨hF, pos', hu⟩ := hu
        refine ⟨pos', hu, .inl (hF.elim id fun hzero => htries.elim id fun h => ?_)⟩
        exact absurd hzero h.ne'
      | ok q =>
        obtain ⟨hrest, pos', hu, hq⟩ := hu
        refine Alone.ite (fun hfull => ?_) (fun hshort => ?_)
        · refine ih hu hq (hrounds.imp_right fun hle => ?_)
          rw [hrest, List.length_drop]
          have := batchSize_pos f
          omega
        · have hnil : log.after q = [] := by
            rw [hrest, List.drop_eq_nil_iff]
            rw [List.length_take] at hshort
            omega
          refine Alone.bind (rerun_sleep hexec hu.within) hu.within fun res v _ _ hv => ?_
          cases res with
          | error err => exact ⟨pos', hv ▸ hu, .inr (hend hu hq hnil)⟩
          | ok _ =>
            obtain rfl : v = u := hv
            exact ih hu hq (.inr (by rw [hnil]; exact Nat.zero_le _))

/-- **A run over the log** from a position that the marker has reached. -/
theorem rerun_run (f : LogFeed) (rounds tries : Nat)
    (hs : CaughtUp r log s pos) (hp : f.fromPosition ≤ pos)
    (hrounds : F ∨ (log.after f.fromPosition).length ≤ rounds) (htries : F ∨ 0 < tries) :
    (rerunLogic r log).Alone exec (fun _ t => ∃ pos', CaughtUp r log t pos' ∧ (F ∨ pos' = log.last))
      (r.run f rounds tries).run s := by
  refine Alone.bind (rerun_loadMarker hexec hs) hs.within fun res t _ _ ht => ?_
  cases res with
  | error err => exact ⟨pos, ht.2, .inl ht.1⟩
  | ok _ =>
    refine Alone.performThen fun x u _ hex => ?_
    cases hexec.saving.step _ _ _ _ hex
    have hu : CaughtUp r log { t with cursor := f.fromPosition } pos :=
      ⟨ht.1.successes, ht.1.saved, ht.1.durable, ht.1.marker, ht.1.bound⟩
    exact ⟨hu.within, trivial, rerun_loop hexec f tries rounds hu hp hrounds htries⟩

end Reruns

/-! ## Attempts -/

/-- Steps over a log that is there from the beginning; those fail that may. -/
def execOver (log : EventLog) (fails : RunOp → Bool) (o : RunOp) (x : RunAnswer) (s : RunState) :
    Option (RunState × RunRes o) :=
  if (x.fault.isNone || fails o) && log.events.length ≤ x.visible then execRun log o x s else none

/-- Everything may fail except saves of the marker. -/
def mayFail : RunOp → Bool
  | .saveInner _ _ => false
  | _ => true

/-- Nothing fails, but the context may end while a feed waits for more. -/
def mayEnd : RunOp → Bool
  | .sleep => true
  | _ => false

/-- The two ways to bring a projection up to date. -/
inductive Rerun : Type where
  | rebuild (batch : Int) (rounds : Nat)
  | run (f : LogFeed) (rounds tries : Nat)

/-- The program, without its result. -/
def Runner.rerun (r : Runner) : Rerun → Prog RunOp RunRes Unit
  | .rebuild batch rounds => r.rebuild batch rounds >>= fun _ => pure ()
  | .run f rounds tries => (r.run f rounds tries).run >>= fun _ => pure ()

/-- A feed starts from a position that the marker has reached, such as zero. -/
def Rerun.starts (r : Runner) (s : RunState) : Rerun → Bool
  | .rebuild _ _ => true
  | .run f _ _ => f.fromPosition ≤ r.saved s

/-- One attempt: what is run, the answers to its steps, and whether a new runner takes over when it has
returned. -/
structure Attempt where
  call : Rerun
  answers : List RunAnswer
  newRunner : Bool

/-- **An attempt** returns, with an error or not; or it is interrupted between two events, when what was
dispatched is saved, and all but the durable marker is lost. -/
def attempt (r : Runner) (log : EventLog) (s : RunState) (a : Attempt) : Option RunState :=
  if a.call.starts r s then
    match (r.rerun a.call).follow (execOver log mayFail) a.answers s with
    | some (t, .ret _) => some (if a.newRunner then { t with marker := 0, loaded := false } else t)
    | some (t, .call _ _) =>
      if ∀ e ∈ t.successes, e.globalPosition ≤ t.durable r.name then some (t.restarted 0) else none
    | none => none
  else none

/-- **Completed**: the calls of `Dispatch` between two states all succeed, together with those that
succeeded before they are the filtered log, in order and each event once, and the marker stands at the
last position. -/
def Completed (r : Runner) (log : EventLog) (s t : RunState) : Prop :=
  ∃ calls, t.calls = s.calls ++ calls ∧ (∀ c ∈ calls, c.ok = true) ∧
    s.successes ++ calls.map (·.env) = log.events.filter r.consumes ∧ r.saved t = log.last

section Attempts

variable {r : Runner} {log : EventLog} {s t : RunState} {pos : UInt64} {fails : RunOp → Bool}

theorem execOver_cases {o : RunOp} {y : RunState × RunRes o} (h : execOver log fails o x s = some y) :
    (x.fault = none ∨ fails o = true) ∧ log.events.length ≤ x.visible ∧ execRun log o x s = some y := by
  unfold execOver at h
  split at h
  · rename_i hok
    rw [Bool.and_eq_true, Bool.or_eq_true, Option.isNone_iff_eq_none, decide_eq_true_eq] at hok
    exact ⟨hok.1, hok.2, h⟩
  · cases h

/-- Steps in which saves do not fail. -/
theorem steps_execOver {F : Prop} (hsave : ∀ key pos, fails (.saveInner key pos) = false)
    (hfails : ∀ o, o ≠ .sleep → fails o = true → F) : Steps log (execOver log fails) F where
  saving :=
    { step := fun _ _ _ _ h => (execOver_cases h).2.2
      fails := fun key pos x s t err h => by
        obtain ⟨hfault, -, hex⟩ := execOver_cases h
        rw [hsave, Bool.false_eq_true, or_false] at hfault
        exact reply_ne_error hfault (Prod.mk.inj (Option.some.inj hex)).2 }
  visible _ _ _ _ _ h := (execOver_cases h).2.1
  fails o _ _ _ h ho := (execOver_cases h).1.imp_right (hfails o ho)

theorem steps_mayFail (log : EventLog) : Steps log (execOver log mayFail) True :=
  steps_execOver (fun _ _ => rfl) fun _ _ _ => trivial

theorem steps_mayEnd (log : EventLog) : Steps log (execOver log mayEnd) False := by
  refine steps_execOver (fun _ _ => rfl) fun o ho h => ho ?_
  cases o with
  | sleep => rfl
  | _ => cases h

theorem exists_execOver (log : EventLog) (fails : RunOp → Bool) (o : RunOp) (s : RunState) :
    ∃ x y, execOver log fails o x s = some y := by
  obtain ⟨x, y, hfault, hvisible, hex⟩ := exists_execRun log log.events.length o s
  refine ⟨x, y, (if_pos ?_).trans hex⟩
  rw [hfault, hvisible, Bool.and_eq_true, decide_eq_true_eq]
  exact ⟨rfl, Nat.le_refl _⟩

/-- Nothing is done yet. -/
theorem caughtUp_fresh (r : Runner) (log : EventLog) : CaughtUp r log .fresh 0 where
  successes := by rw [EventLog.upTo_zero]; rfl
  saved := by
    unfold Runner.saved
    split <;> rfl
  durable := UInt64.le_refl 0
  marker h := by cases h
  bound := UInt64.zero_le

/-- **A new process** where what was dispatched is saved. -/
theorem CaughtUp.restarted (h : Within r log s)
    (hsaved : ∀ e ∈ s.successes, e.globalPosition ≤ s.durable r.name) :
    CaughtUp r log (s.restarted 0) (s.durable r.name) := by
  obtain ⟨top, hsuccesses, hle, hlast⟩ := h
  refine ⟨hsuccesses.trans ?_, ?_, UInt64.le_refl _, fun h => (by cases h), UInt64.le_trans hle hlast⟩
  · -- between the marker and the last that was dispatched nothing passes the filter
    rw [EventLog.upTo, EventLog.upTo, EsLite.upTo, EsLite.upTo, List.filter_filter, List.filter_filter]
    refine List.filter_congr fun e he => ?_
    cases hcons : r.consumes e with
    | false => rfl
    | true =>
      rw [Bool.true_and, Bool.true_and, decide_eq_decide]
      refine ⟨fun htop => hsaved e ?_, fun hd => hd.trans hle⟩
      rw [hsuccesses]
      exact List.mem_filter.mpr ⟨EsLite.mem_upTo.mpr ⟨he, htop⟩, hcons⟩
  · unfold Runner.saved
    split <;> rfl

/-- What either way keeps, whatever fails. -/
theorem rerun_keeps {c : Rerun} (hs : CaughtUp r log s pos) (hstarts : c.starts r s = true) :
    (rerunLogic r log).Alone (execOver log mayFail) (fun _ t => ∃ pos', CaughtUp r log t pos') (r.rerun c) s := by
  cases c with
  | rebuild batch rounds =>
    refine Alone.bind (rerun_replay (steps_mayFail log) batch rounds hs UInt64.zero_le (.inl trivial)) hs.within
      fun _ t _ _ ht => ?_
    obtain ⟨pos', ht, -⟩ := ht
    exact ⟨pos', ht⟩
  | run f rounds tries =>
    have hp : f.fromPosition ≤ pos := hs.saved ▸ of_decide_eq_true hstarts
    refine Alone.bind (rerun_run (steps_mayFail log) f rounds tries hs hp (.inl trivial) (.inl trivial))
      hs.within fun _ t _ _ ht => ?_
    obtain ⟨pos', ht, -⟩ := ht
    exact ⟨pos', ht⟩

/-- **One attempt**, however it ends, leaves the marker where the dispatches are. -/
theorem caughtUp_attempt {a : Attempt} (hs : ∃ pos, CaughtUp r log s pos)
    (h : attempt r log s a = some t) : ∃ pos, CaughtUp r log t pos := by
  obtain ⟨pos, hs⟩ := hs
  unfold attempt at h
  split at h
  swap
  · cases h
  rename_i hstarts
  have halone := rerun_keeps hs hstarts
  split at h
  · rename_i u _ hfollow
    obtain ⟨-, -, pos', hu⟩ := halone.follow hs.within hfollow
    cases h
    refine ⟨pos', ?_⟩
    split
    · exact ⟨hu.successes, hu.saved, hu.durable, fun h => (by cases h), hu.bound⟩
    · exact hu
  · rename_i u _ _ hfollow
    split at h
    · rename_i hsaved
      cases h
      exact ⟨_, CaughtUp.restarted (halone.follow hs.within hfollow).1 hsaved⟩
    · cases h
  · cases h

/-- What the calls of `Dispatch` add, if none of them fails. -/
theorem successes_of_calls {calls : List Dispatched} (h : t.calls = s.calls ++ calls)
    (hok : ∀ c ∈ calls, c.ok = true) : t.successes = s.successes ++ calls.map (·.env) := by
  have hmap : calls.filterMap (fun c => if c.ok then some c.env else none) = calls.map (·.env) := by
    rw [List.filterMap_congr (g := fun c => some c.env) fun c hc => if_pos (hok c hc)]
    exact congrFun (List.filterMap_eq_map (f := fun c : Dispatched => c.env)) calls
  rw [RunState.successes, h, List.filterMap_append, hmap]
  rfl

/-- A step that does not fail adds at most a call of `Dispatch` that succeeds. -/
theorem calls_execRun {o : RunOp} {y : RunState × RunRes o} (h : execRun log o x s = some y)
    (hfault : x.fault = none ∨ o = .sleep) :
    ∃ calls, y.1.calls = s.calls ++ calls ∧ ∀ c ∈ calls, c.ok = true := by
  cases o with
  | dispatch e =>
    obtain hnone | ho := hfault
    · cases h
      refine ⟨[⟨s.startedAt, e, x.fault.isNone⟩], rfl, fun c hc => ?_⟩
      rw [List.mem_singleton.mp hc, hnone]
      rfl
    · cases ho
  | rangePending =>
    simp only [execRun] at h
    split at h
    · cases h
      exact ⟨[], (List.append_nil _).symm, fun _ hc => absurd hc List.not_mem_nil⟩
    · cases h
  | saveInner projection position =>
    cases h
    refine ⟨[], ?_, fun _ hc => absurd hc List.not_mem_nil⟩
    rw [List.append_nil]
    exact apply_ite RunState.calls _ _ _ |>.trans (ite_self _)
  | _ =>
    cases h
    exact ⟨[], (List.append_nil _).symm, fun _ hc => absurd hc List.not_mem_nil⟩

/-- Where nothing fails, every call of `Dispatch` succeeds. -/
theorem calls_follow {α : Type} {p : Prog RunOp RunRes α} {answers : List RunAnswer}
    {y : RunState × Prog RunOp RunRes α} (h : p.follow (execOver log mayEnd) answers s = some y) :
    ∃ calls, y.1.calls = s.calls ++ calls ∧ ∀ c ∈ calls, c.ok = true := by
  refine Prog.follow_invariant (fun t => ∃ calls, t.calls = s.calls ++ calls ∧ ∀ c ∈ calls, c.ok = true)
    (fun o x t y ht hex => ?_) ⟨[], (List.append_nil _).symm, fun _ hc => absurd hc List.not_mem_nil⟩ h
  obtain ⟨calls, hcalls, hok⟩ := ht
  obtain ⟨hfault, -, hex⟩ := execOver_cases hex
  have hsleep : x.fault = none ∨ o = .sleep := by
    refine hfault.imp_right fun ho => ?_
    cases o with
    | sleep => rfl
    | _ => cases ho
  obtain ⟨more, hmore, hmoreOk⟩ := calls_execRun hex hsleep
  refine ⟨calls ++ more, ?_, fun c hc => (List.mem_append.mp hc).elim (hok c) (hmoreOk c)⟩
  rw [hmore, hcalls, List.append_assoc]

/-- A run that ends with the marker at the last position has completed the log. -/
theorem completed_of_follow {α : Type} {p : Prog RunOp RunRes α} {answers : List RunAnswer} {a : α}
    (h : p.follow (execOver log mayEnd) answers s = some (t, .ret a)) (ht : CaughtUp r log t log.last) :
    Completed r log s t := by
  obtain ⟨calls, hcalls, hok⟩ := calls_follow h
  refine ⟨calls, hcalls, hok, ?_, ht.saved⟩
  rw [← successes_of_calls hcalls hok, ht.successes, EventLog.upTo_last]

/-- **Rebuild and live delivery dispatch the same events.** Take any log with increasing positive
positions, any filter, and attempts to rebuild or to run over the log, with any batch sizes, from a marker
at zero: calls of `Dispatch` fail without effect, reads of the log and of the marker fail, contexts end, and
attempts are interrupted between events. In every state that they lead to,

* what was dispatched is a first part of the filtered log,
* `Rebuild` with any batch size returns the last position of the log, and has completed the sequence,
* `Run` with any batch size, from any position that the marker has reached, has completed it when it ends,
  once it had the rounds for it.

Without attempts before, the calls that complete the sequence are all of the filtered log. -/
theorem rebuild_same_as_live (r : Runner) (log : EventLog) {attempts : List Attempt} {s : RunState}
    (hrun : runActions (attempt r log) .fresh attempts = some s) :
    s.successes <+: log.events.filter r.consumes ∧
    (∀ batch rounds, log.events.length < rounds →
      (∃ answers t res, (r.rebuild batch rounds).follow (execOver log mayEnd) answers s = some (t, .ret res)) ∧
      ∀ answers t res, (r.rebuild batch rounds).follow (execOver log mayEnd) answers s = some (t, .ret res) →
        res = (log.last, none) ∧ Completed r log s t) ∧
    ∀ f rounds tries, f.fromPosition ≤ r.saved s → log.events.length ≤ rounds → 0 < tries →
      (∃ answers t res, (r.run f rounds tries).run.follow (execOver log mayEnd) answers s =
        some (t, .ret res)) ∧
      ∀ answers t res, (r.run f rounds tries).run.follow (execOver log mayEnd) answers s = some (t, .ret res) →
        Completed r log s t := by
  obtain ⟨pos, hs⟩ : ∃ pos, CaughtUp r log s pos :=
    invariant_of_run (fun _ _ _ => caughtUp_attempt) hrun ⟨0, caughtUp_fresh r log⟩
  refine ⟨?_, fun batch rounds hrounds => ⟨?_, fun answers t res hfollow => ?_⟩,
    fun f rounds tries hfrom hrounds htries => ⟨?_, fun answers t res hfollow => ?_⟩⟩
  · rw [hs.successes, ← log.upTo_append_after pos, List.filter_append]
    exact List.prefix_append _ _
  · exact Prog.exists_follow (exists_execOver log mayEnd) _ _
  · have hreplay := rerun_replay (steps_mayEnd log) batch rounds hs UInt64.zero_le
      (.inr (by rw [EventLog.after_zero]; exact hrounds))
    obtain ⟨-, -, pos', ht, hend, hok⟩ := hreplay.follow hs.within hfollow
    have hnone : res.2 = none := hok.resolve_left id
    obtain ⟨hlast, rfl⟩ := hend hnone
    exact ⟨Prod.ext hlast hnone, completed_of_follow hfollow ht⟩
  · exact Prog.exists_follow (exists_execOver log mayEnd) _ _
  · have hlive := rerun_run (steps_mayEnd log) f rounds tries hs (hs.saved ▸ hfrom)
      (.inr ((List.length_filter_le _ _).trans hrounds)) (.inr htries)
    obtain ⟨-, -, pos', ht, hend⟩ := hlive.follow hs.within hfollow
    obtain rfl := hend.resolve_left id
    exact completed_of_follow hfollow ht

end Attempts

/-- A view with a durable marker. -/
def plainView : Runner := ⟨str "view", .durable, none⟩

/-- A run in which `Dispatch` fails on the second event, and that gives up then. -/
def failsOnSecond : Attempt :=
  ⟨.run ⟨0, 0⟩ 1 1, List.flatten [List.replicate 13 fine,
    [{ fine with fault := some (str "timeout") }, fine]], true⟩

/-- A rebuild that is interrupted after it has skipped the first event. -/
def cutOff : Attempt := ⟨.rebuild 1 3, List.replicate 5 fine, false⟩

/-- One event was dispatched, and a rebuild with pages of one event dispatches the other one. -/
theorem rebuild_same_as_live_resumed :
    ∃ s, runActions (attempt plainView twoEvents) .fresh [failsOnSecond, cutOff] = some s ∧
      s.successes.map (·.globalPosition) = [1] ∧
      ∃ answers t, (plainView.rebuild 1 3).follow (execOver twoEvents mayEnd) answers s =
        some (t, .ret (2, none)) ∧ Completed plainView twoEvents s t := by
  refine exists_run_of _ (by decide +kernel) fun s hrun hone => ⟨hone, ?_⟩
  obtain ⟨-, hrebuild, -⟩ := rebuild_same_as_live plainView twoEvents hrun
  obtain ⟨⟨answers, t, res, hfollow⟩, hcomplete⟩ := hrebuild 1 3 (by decide)
  obtain ⟨rfl, hcompleted⟩ := hcomplete answers t res hfollow
  exact ⟨answers, t, hfollow, hcompleted⟩

end EsLite.Projection
