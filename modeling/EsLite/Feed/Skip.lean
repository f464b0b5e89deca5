import EsLite.Feed.Fencing
import EsLite.Foundation.Process

/-!
# Skipping a position

An operator's skip is four store calls: the holder check, the read of the checkpoint row, the audit row and
the write. This file says what they amount to together.

* `skip_follow` is what a skip has done wherever it is cut off, when a store call that fails has no effect:
  nothing, the audit row, or the audit row and the write. From it follow the order of audit row and write,
  that a refused skip moves nothing, and that attempts converge (`skip_audited`).
* Between its read and its write nothing holds the row. The write puts back the fingerprint that was read
  and the requested position, whatever is stored by then. `skip_write_advances_iff` says exactly when that is
  a position advance.
-/

namespace EsLite.Feed

/-- The fingerprint stored for a key; an absent row carries the empty one. -/
def Tables.fingerprint (t : Tables) (k : Key) : Bytes :=
  ((t.checkpoints k).map (·.definitionHash)).getD []

/-- The position stored for a key, `0` without a row. -/
def Tables.position (t : Tables) (k : Key) : Nat := ((t.checkpoints k).map (·.position)).getD 0

/-! ## A skip that is cut off -/

/-- A call that fails has no effect. Before it time may pass, and appends may commit. -/
def cleanExec (A : Adapter) (ever : Log) (o : Op) (c : Choice × List EnvStep) (s : State) :
    Option (State × Res o) :=
  if c.1.fault = .after then none
  else (runActions (fun s e => envStep ever e s) s c.2).bind (exec A ever o c.1)

/-- Nothing is removed from a log. -/
def Log.Le (l l' : Log) : Prop := ∀ scope p e, l.event scope p = some e → l'.event scope p = some e

theorem Log.Le.refl (l : Log) : l.Le l := fun _ _ _ h => h

theorem Log.Le.trans {l l' l'' : Log} (h : l.Le l') (h' : l'.Le l'') : l.Le l'' :=
  fun scope p e he => h' scope p e (h scope p e he)

/-- A log that came back to where it was has not changed in between. -/
theorem Log.Le.antisymm {l l' : Log} (h : l.Le l') (h' : l'.Le l) : l' = l := by
  have hevent : l'.event = l.event := by
    funext scope p
    cases he : l'.event scope p with
    | some e => exact (h' scope p e he).symm
    | none =>
      cases he' : l.event scope p with
      | none => rfl
      | some e =>
        rw [h scope p e he'] at he
        cases he
  cases l
  cases l'
  congr

/-- The stores are as they were; the log may have grown, and the clock moved. -/
structure Idle (s t : State) : Prop where
  tables : t.tables = s.tables
  resets : t.resets = s.resets
  log : s.log.Le t.log

theorem Idle.refl (s : State) : Idle s s := ⟨rfl, rfl, .refl _⟩

theorem Idle.trans {s t u : State} (h : Idle s t) (h' : Idle t u) : Idle s u :=
  ⟨h'.tables.trans h.tables, h'.resets.trans h.resets, h.log.trans h'.log⟩

/-- The audit row is written, under the name that the log gave the position at that moment. -/
structure AuditedSkip (sr : SkipRequest) (s t : State) : Prop where
  tables : ∃ (m : State) (now : Int), s.log.Le m.log ∧ m.log.Le t.log ∧
    t.tables = s.tables.record (m.nameDeadLetter (sr.deadLetter now))
  resets : t.resets = s.resets

/-- The audit row is written, and then the checkpoint row. -/
structure CompletedSkip (sr : SkipRequest) (s t : State) : Prop where
  tables : ∃ (u : State) (now : Int), AuditedSkip sr s u ∧ u.log.Le t.log ∧
    t.tables = u.tables.reset now sr.key (s.tables.fingerprint sr.key) sr.position
  resets : t.resets = ⟨sr.key, s.tables.fingerprint sr.key, sr.position⟩ :: s.resets

/-- **What a skip has done so far.** -/
def Skipping (sr : SkipRequest) (s t : State) : Prop :=
  Idle s t ∨ AuditedSkip sr s t ∨ CompletedSkip sr s t

/-- The states that a skip of `sr` from `s` goes through. -/
def skipLogic (sr : SkipRequest) (s : State) : Logic State Op where
  inv := Skipping sr s
  le _ _ := True
  allowed _ _ := True
  refl _ := trivial
  trans _ _ _ _ _ := trivial

section Cut

variable {A : Adapter} {ever : Log} {cfg : Config} {sr : SkipRequest} {s t : State}

theorem Log.le_add {l : Log} {scope : Bytes} {e : Event} (h : l.event scope e.globalPosition = none) :
    l.Le (l.add scope e) := by
  intro scope' p e' he
  simp only [Log.add]
  by_cases hs : scope' = scope
  · subst hs
    have hp : p ≠ e.globalPosition := by
      rintro rfl
      rw [h] at he
      cases he
    rw [Function.update_self, Function.update_of_ne hp]
    exact he
  · rw [Function.update_of_ne hs]
    exact he

theorem idle_envStep {e : EnvStep} (h : envStep ever e s = some t) : Idle s t := by
  cases e with
  | advance d =>
    cases h
    exact ⟨rfl, rfl, .refl _⟩
  | commit scope e =>
    simp only [envStep] at h
    split at h
    · rename_i hnew
      cases h
      exact ⟨rfl, rfl, Log.le_add hnew.2⟩
    · cases h

/-- What happens before a call leaves the stores idle, and the call fails without effect or succeeds. -/
theorem cleanExec_cases {o : Op} {c : Choice × List EnvStep} {r : Res o}
    (h : cleanExec A ever o c s = some (t, r)) :
    ∃ m, Idle s m ∧ c.1.fault ≠ .after ∧ exec A ever o c.1 m = some (t, r) := by
  simp only [cleanExec] at h
  split at h
  · cases h
  · rename_i hc
    obtain ⟨m, hm, hex⟩ := Option.bind_eq_some_iff.mp h
    refine ⟨m, ?_, hc, hex⟩
    exact invariant_of_run (fun _ _ _ hI hs => hI.trans (idle_envStep hs)) hm (Idle.refl s)

theorem clean_answer {α : Type} {c : Choice} (hc : c.fault ≠ .after) {m eff : State} {a : α}
    {r : Except Failure α} (h : some (answer c m eff a) = some (t, r)) :
    (t = m ∧ r = .error .failed) ∨ (t = eff ∧ r = .ok a) := by
  unfold answer at h
  cases hf : c.fault with
  | none =>
    rw [hf] at h
    cases h
    exact .inr ⟨rfl, rfl⟩
  | before =>
    rw [hf] at h
    cases h
    exact .inl ⟨rfl, rfl⟩
  | after => exact absurd hf hc

/-- What a skip may end in an error with. -/
abbrev Refused (sr : SkipRequest) (s : State) (_ : FeedError) (t : State) : Prop :=
  Idle s t ∨ AuditedSkip sr s t

open Logic in
theorem alone_require {problem : Option Invalid} (h : Idle s t) :
    (skipLogic sr s).Alone (cleanExec A ever) (Ends (Refused sr s) fun _ u => Idle s u)
      (require problem).run t := by
  cases problem with
  | none => exact h
  | some why => exact .inl h

open Logic in
/-- The holder check changes nothing. -/
theorem alone_refuseUnlessForced {force : Bool} {k : Key} (h : Idle s t) :
    (skipLogic sr s).Alone (cleanExec A ever) (Ends (Refused sr s) fun _ u => Idle s u)
      (refuseUnlessForced force k).run t := by
  cases force with
  | true => exact h
  | false =>
    intro ch u r hex
    obtain ⟨m, hm, hc, hex⟩ := cleanExec_cases hex
    have hidle := h.trans hm
    rcases clean_answer hc hex with ⟨rfl, rfl⟩ | ⟨rfl, rfl⟩
    · exact ⟨.inl hidle, trivial, .inl hidle⟩
    · refine ⟨.inl hidle, trivial, ?_⟩
      cases u.tables.holder A u.now k with
      | none => exact hidle
      | some lease => exact .inl hidle

open Logic in
/-- The read of the row. -/
theorem alone_loadCheckpoint {k : Key} (h : Idle s t) :
    (skipLogic sr s).Alone (cleanExec A ever)
      (Ends (Refused sr s) fun cp u => Idle s u ∧ cp = s.tables.checkpoints k)
      (port .loadCheckpoint (Prog.op (Op.checkpoint k))).run t := by
  intro ch u r hex
  obtain ⟨m, hm, hc, hex⟩ := cleanExec_cases hex
  have hidle := h.trans hm
  rcases clean_answer hc hex with ⟨rfl, rfl⟩ | ⟨rfl, rfl⟩
  · exact ⟨.inl hidle, trivial, .inl hidle⟩
  · refine ⟨.inl hidle, trivial, hidle, ?_⟩
    rw [hidle.tables]

open Logic in
/-- The audit row, when a dead-letter store is configured. -/
theorem alone_recordSkip (hdl : cfg.deadLetters = true) (h : Idle s t) :
    (skipLogic sr s).Alone (cleanExec A ever) (Ends (Refused sr s) fun _ u => AuditedSkip sr s u)
      (recordSkip cfg sr).run t := by
  rw [recordSkip, if_pos hdl]
  intro ch u now hex
  obtain ⟨m, hm, -, hex⟩ := cleanExec_cases hex
  obtain ⟨rfl, rfl⟩ := Prod.mk.inj (Option.some.inj hex)
  have hidle := h.trans hm
  refine ⟨.inl hidle, trivial, ?_⟩
  intro ch' v r hex'
  obtain ⟨m', hm', hc, hex'⟩ := cleanExec_cases hex'
  have hidle' := hidle.trans hm'
  rcases clean_answer hc hex' with ⟨rfl, rfl⟩ | ⟨rfl, rfl⟩
  · exact ⟨.inl hidle', trivial, .inl hidle'⟩
  · have haudited : AuditedSkip sr s
        (m'.withTables (m'.tables.record (m'.nameDeadLetter (sr.deadLetter m.now)))) := by
      refine ⟨⟨m', m.now, hidle'.log, .refl _, ?_⟩, hidle'.resets⟩
      rw [← hidle'.tables]
      rfl
    exact ⟨.inr (.inl haudited), trivial, haudited⟩

open Logic in
/-- The write, under the fingerprint that was read. -/
theorem alone_skipWrite (h : AuditedSkip sr s t) :
    (skipLogic sr s).Alone (cleanExec A ever) (Ends (Refused sr s) fun _ u => CompletedSkip sr s u)
      (port .skipCheckpoint
        (Prog.op (Op.reset sr.key (s.tables.fingerprint sr.key) sr.position))).run t := by
  intro ch u r hex
  obtain ⟨m, hm, hc, hex⟩ := cleanExec_cases hex
  have haudited : AuditedSkip sr s m := by
    obtain ⟨n, now, hn, hnt, htables⟩ := h.tables
    exact ⟨⟨n, now, hn, hnt.trans hm.log, hm.tables.trans htables⟩, hm.resets.trans h.resets⟩
  rcases clean_answer hc hex with ⟨rfl, rfl⟩ | ⟨rfl, rfl⟩
  · exact ⟨.inr (.inl haudited), trivial, .inr haudited⟩
  · have hdone : CompletedSkip sr s
        { m.withTables (m.tables.reset m.now sr.key (s.tables.fingerprint sr.key) sr.position) with
          resets := ⟨sr.key, s.tables.fingerprint sr.key, sr.position⟩ :: m.resets } := by
      refine ⟨⟨m, m.now, haudited, .refl _, rfl⟩, ?_⟩
      rw [← haudited.resets]
    exact ⟨.inr (.inr hdone), trivial, hdone⟩

open Logic in
theorem alone_skip (hdl : cfg.deadLetters = true) :
    (skipLogic sr s).Alone (cleanExec A ever) (Ends (Refused sr s) fun _ t => CompletedSkip sr s t)
      (skip cfg sr).run s := by
  have hs : (skipLogic sr s).inv s := .inl (.refl s)
  refine Alone.thenEnds (alone_require (.refl s)) hs fun _ t _ ht hidle => ?_
  refine Alone.thenEnds (alone_refuseUnlessForced hidle) ht fun _ t _ ht hidle => ?_
  refine Alone.thenEnds (alone_loadCheckpoint hidle) ht fun cp t _ ht hread => ?_
  obtain ⟨hidle, rfl⟩ := hread
  refine Alone.thenEnds (alone_recordSkip hdl hidle) ht fun _ t _ ht haudited => ?_
  exact alone_skipWrite haudited

/-- **A skip, wherever it is cut off**: it has done nothing, written the audit row, or written both rows;
it has done all of it when it succeeds, and has not written the checkpoint when it is refused. -/
theorem skip_follow (hdl : cfg.deadLetters = true) {chs : List (Choice × List EnvStep)}
    {q : Prog Op Res (Except FeedError Unit)}
    (h : (skip cfg sr).run.follow (cleanExec A ever) chs s = some (t, q)) :
    Skipping sr s t ∧ (q = .ret (.ok ()) → CompletedSkip sr s t) ∧
      (∀ err, q = .ret (.error err) → Idle s t ∨ AuditedSkip sr s t) := by
  obtain ⟨hinv, -, hq⟩ := (alone_skip hdl).follow (.inl (.refl s)) h
  refine ⟨hinv, ?_, ?_⟩
  · rintro rfl
    exact hq
  · rintro err rfl
    exact hq

end Cut

/-! ## The rows of a key -/

/-- The checkpoint row and the audit rows of a key, timestamps aside. -/
@[ext] structure KeyRows where
  checkpoint : Option (Nat × Bytes)
  deadLetters : Nat → Option DeadLetter

/-- An audit row without its timestamp. -/
def DeadLetter.timeless (dl : DeadLetter) : DeadLetter := { dl with createdAt := 0 }

/-- The rows of a key. -/
def Tables.rows (t : Tables) (k : Key) : KeyRows where
  checkpoint := (t.checkpoints k).map (fun cp => (cp.position, cp.definitionHash))
  deadLetters p := (t.deadLetters k p).map DeadLetter.timeless

/-- Insert or replace an audit row. -/
def KeyRows.audited (r : KeyRows) (dl : DeadLetter) : KeyRows :=
  { r with deadLetters := Function.update r.deadLetters dl.position (some dl) }

/-- Move the checkpoint and keep its fingerprint. -/
def KeyRows.moved (r : KeyRows) (p : Nat) : KeyRows :=
  { r with checkpoint := some (p, (r.checkpoint.map (·.2)).getD []) }

/-- **What a skip is for**: the audit row `dl`, and the checkpoint at the requested position. -/
def SkipRequest.applied (sr : SkipRequest) (dl : DeadLetter) (r : KeyRows) : KeyRows :=
  (r.audited dl).moved sr.position

/-- Applying a skip a second time changes nothing. -/
theorem SkipRequest.applied_applied (sr : SkipRequest) (dl : DeadLetter) (r : KeyRows) :
    sr.applied dl (sr.applied dl r) = sr.applied dl r := by
  simp [applied, KeyRows.audited, KeyRows.moved]

/-- Nor does it matter whether the audit row was there before. -/
theorem SkipRequest.applied_audited (sr : SkipRequest) (dl : DeadLetter) (r : KeyRows) :
    sr.applied dl (r.audited dl) = sr.applied dl r := by
  simp [applied, KeyRows.audited, KeyRows.moved]

namespace Tables

variable {t : Tables} {k : Key} {dl : DeadLetter} {now : Int} {d : Bytes} {p : Nat}

theorem record_deadLetters_self (t : Tables) (dl : DeadLetter) :
    (t.record dl).deadLetters dl.key dl.position = some dl := by
  simp only [record, Function.update_self]

/-- An audit row is replaced, never removed. -/
theorem record_deadLetters_some {dl' : DeadLetter} (h : t.deadLetters k p = some dl') :
    ∃ dl'', (t.record dl).deadLetters k p = some dl'' := by
  by_cases hk : k = dl.key
  · subst hk
    by_cases hp : p = dl.position
    · subst hp
      exact ⟨dl, t.record_deadLetters_self dl⟩
    · refine ⟨dl', ?_⟩
      simp only [record, Function.update_self, Function.update_of_ne hp]
      exact h
  · refine ⟨dl', ?_⟩
    simp only [record, Function.update_of_ne hk]
    exact h

theorem rows_record_self (t : Tables) (dl : DeadLetter) :
    (t.record dl).rows dl.key = (t.rows dl.key).audited dl.timeless := by
  refine KeyRows.ext rfl (funext fun p => ?_)
  simp only [rows, record, KeyRows.audited, Function.update_self, DeadLetter.timeless]
  by_cases hp : p = dl.position
  · subst hp
    simp only [Function.update_self, Option.map_some, DeadLetter.timeless]
  · simp only [Function.update_of_ne hp]

theorem rows_record_of_ne (h : k ≠ dl.key) : (t.record dl).rows k = t.rows k := by
  refine KeyRows.ext rfl (funext fun p => ?_)
  simp only [rows, record, Function.update_of_ne h]

/-- A reset under the stored fingerprint moves the checkpoint and keeps it. -/
theorem rows_reset_self (t : Tables) (now : Int) (k : Key) (p : Nat) :
    (t.reset now k (t.fingerprint k) p).rows k = (t.rows k).moved p := by
  refine KeyRows.ext ?_ rfl
  simp only [rows, reset_checkpoints_self, KeyRows.moved, fingerprint]
  cases t.checkpoints k with
  | none => rfl
  | some cp => simp [keepDefinition]

theorem rows_reset_of_ne {k' : Key} (h : k' ≠ k) : (t.reset now k d p).rows k' = t.rows k' := by
  refine KeyRows.ext ?_ rfl
  simp only [rows, reset_checkpoints_of_ne h]

end Tables

/-! ## Attempts -/

/-- One attempt at a skip: the request, and what happens at each of the calls it gets to. -/
structure SkipAttempt where
  request : SkipRequest
  choices : List (Choice × List EnvStep)

/-- An attempt returns, or is cut off after any of its calls. -/
def attemptSkip (A : Adapter) (ever : Log) (cfg : Config) (s : State) (a : SkipAttempt) : Option State :=
  ((skip cfg a.request).run.follow (cleanExec A ever) a.choices s).map (·.1)

/-- Every position that was written has an audit row. -/
def Audited (s : State) : Prop :=
  ∀ m ∈ s.resets, ∃ dl, s.tables.deadLetters m.key m.position = some dl

section Attempts

variable {A : Adapter} {ever : Log} {cfg : Config} {sr sr' : SkipRequest} {s t : State}

theorem nameDeadLetter_key (m : State) (dl : DeadLetter) : (m.nameDeadLetter dl).key = dl.key := by
  unfold State.nameDeadLetter
  split
  · split <;> rfl
  · rfl

theorem nameDeadLetter_position (m : State) (dl : DeadLetter) :
    (m.nameDeadLetter dl).position = dl.position := by
  unfold State.nameDeadLetter
  split
  · split <;> rfl
  · rfl

/-- The name of a position comes from the log alone, and does not depend on the time. -/
theorem nameDeadLetter_timeless {m : State} {now : Int} (h : m.log = s.log) :
    (m.nameDeadLetter (sr.deadLetter now)).timeless = s.nameDeadLetter (sr.deadLetter 0) := by
  simp only [State.nameDeadLetter, SkipRequest.deadLetter, h, if_true]
  split <;> rfl

theorem AuditedSkip.log (h : AuditedSkip sr s t) : s.log.Le t.log := by
  obtain ⟨m, now, hm, hmt, -⟩ := h.tables
  exact hm.trans hmt

theorem AuditedSkip.checkpoints (h : AuditedSkip sr s t) :
    t.tables.checkpoints = s.tables.checkpoints := by
  obtain ⟨m, now, -, -, htables⟩ := h.tables
  rw [htables, Tables.record_checkpoints]

theorem CompletedSkip.log (h : CompletedSkip sr s t) : s.log.Le t.log := by
  obtain ⟨u, now, haudited, hut, -⟩ := h.tables
  exact haudited.log.trans hut

theorem Skipping.log (h : Skipping sr s t) : s.log.Le t.log := by
  rcases h with hidle | haudited | hdone
  · exact hidle.log
  · exact haudited.log
  · exact hdone.log

/-! ### The audit row comes first -/

theorem AuditedSkip.deadLetter (h : AuditedSkip sr s t) :
    ∃ dl, t.tables.deadLetters sr.key sr.position = some dl := by
  obtain ⟨m, now, -, -, htables⟩ := h.tables
  refine ⟨m.nameDeadLetter (sr.deadLetter now), ?_⟩
  have hself := s.tables.record_deadLetters_self (m.nameDeadLetter (sr.deadLetter now))
  rw [nameDeadLetter_key, nameDeadLetter_position] at hself
  rw [htables]
  exact hself

theorem AuditedSkip.deadLetters_some (h : AuditedSkip sr s t) {k : Key} {p : Nat} {dl : DeadLetter}
    (hdl : s.tables.deadLetters k p = some dl) : ∃ dl', t.tables.deadLetters k p = some dl' := by
  obtain ⟨m, now, -, -, htables⟩ := h.tables
  rw [htables]
  exact Tables.record_deadLetters_some hdl

theorem Audited.skipping (hs : Audited s) (h : Skipping sr s t) : Audited t := by
  intro m hm
  rcases h with hidle | haudited | hdone
  · rw [hidle.resets] at hm
    rw [hidle.tables]
    exact hs m hm
  · rw [haudited.resets] at hm
    obtain ⟨dl, hdl⟩ := hs m hm
    exact haudited.deadLetters_some hdl
  · obtain ⟨u, now, haudited, -, htables⟩ := hdone.tables
    have hletters : t.tables.deadLetters = u.tables.deadLetters := by
      rw [htables]
      rfl
    rw [hdone.resets] at hm
    rw [hletters]
    rcases List.mem_cons.mp hm with rfl | hm
    · exact haudited.deadLetter
    · obtain ⟨dl, hdl⟩ := hs m hm
      exact haudited.deadLetters_some hdl

/-! ### Attempts converge -/

/-- The audit row of a skip by the log of a state. -/
def SkipRequest.auditRow (sr : SkipRequest) (s : State) : DeadLetter := s.nameDeadLetter (sr.deadLetter 0)

theorem AuditedSkip.rows (h : AuditedSkip sr s t) (hlog : t.log = s.log) :
    t.tables.rows sr.key = (s.tables.rows sr.key).audited (sr.auditRow s) := by
  obtain ⟨m, now, hm, hmt, htables⟩ := h.tables
  rw [hlog] at hmt
  have hname : (m.nameDeadLetter (sr.deadLetter now)).timeless = sr.auditRow s :=
    nameDeadLetter_timeless (hm.antisymm hmt)
  have hself := s.tables.rows_record_self (m.nameDeadLetter (sr.deadLetter now))
  rw [hname, nameDeadLetter_key] at hself
  rw [htables]
  exact hself

theorem CompletedSkip.rows (h : CompletedSkip sr s t) (hlog : t.log = s.log) :
    t.tables.rows sr.key = sr.applied (sr.auditRow s) (s.tables.rows sr.key) := by
  obtain ⟨u, now, haudited, hut, htables⟩ := h.tables
  rw [hlog] at hut
  have hfingerprint : s.tables.fingerprint sr.key = u.tables.fingerprint sr.key := by
    rw [Tables.fingerprint, Tables.fingerprint, haudited.checkpoints]
  rw [htables, hfingerprint, Tables.rows_reset_self, haudited.rows (haudited.log.antisymm hut)]
  rfl

/-- An attempt, however it ended, has not changed what the skip will lead to. -/
theorem Skipping.applied (h : Skipping sr s t) (hlog : t.log = s.log) :
    sr.applied (sr.auditRow s) (t.tables.rows sr.key) =
      sr.applied (sr.auditRow s) (s.tables.rows sr.key) := by
  rcases h with hidle | haudited | hdone
  · rw [hidle.tables]
  · rw [haudited.rows hlog, SkipRequest.applied_audited]
  · rw [hdone.rows hlog, SkipRequest.applied_applied]

theorem AuditedSkip.rows_of_ne {k : Key} (h : AuditedSkip sr s t) (hk : k ≠ sr.key) :
    t.tables.rows k = s.tables.rows k := by
  obtain ⟨m, now, -, -, htables⟩ := h.tables
  rw [htables]
  refine Tables.rows_record_of_ne ?_
  rw [nameDeadLetter_key]
  exact hk

/-- A skip leaves the rows of the other keys alone. -/
theorem Skipping.rows_of_ne {k : Key} (h : Skipping sr s t) (hk : k ≠ sr.key) :
    t.tables.rows k = s.tables.rows k := by
  rcases h with hidle | haudited | hdone
  · rw [hidle.tables]
  · exact haudited.rows_of_ne hk
  · obtain ⟨u, now, haudited, -, htables⟩ := hdone.tables
    rw [htables, Tables.rows_reset_of_ne hk]
    exact haudited.rows_of_ne hk

theorem attemptSkip_skipping (hdl : cfg.deadLetters = true) {a : SkipAttempt}
    (h : attemptSkip A ever cfg s a = some t) : Skipping a.request s t := by
  obtain ⟨⟨t', q⟩, hfollow, rfl⟩ := Option.map_eq_some_iff.mp h
  exact (skip_follow hdl hfollow).1

/-- The audit rows of a run of attempts. -/
theorem audited_of_run (hdl : cfg.deadLetters = true) {as : List SkipAttempt}
    (hrun : runActions (attemptSkip A ever cfg) s as = some t) (hs : Audited s) : Audited t :=
  invariant_of_run (fun _ _ _ hI h => hI.skipping (attemptSkip_skipping hdl h)) hrun hs

/-- **Attempts at one skip**, with other keys skipped in between, do not change what it will lead to. -/
theorem applied_of_run (hdl : cfg.deadLetters = true) {as : List SkipAttempt}
    (has : ∀ a ∈ as, a.request = sr ∨ a.request.key ≠ sr.key)
    (hrun : runActions (attemptSkip A ever cfg) s as = some t) :
    s.log.Le t.log ∧ (t.log = s.log → sr.applied (sr.auditRow s) (t.tables.rows sr.key) =
      sr.applied (sr.auditRow s) (s.tables.rows sr.key)) := by
  induction as generalizing s with
  | nil =>
    cases hrun
    exact ⟨.refl _, fun _ => rfl⟩
  | cons a as ih =>
    obtain ⟨u, hu, hrest⟩ := runActions_cons_eq_some.mp hrun
    have hskip := attemptSkip_skipping hdl hu
    obtain ⟨hut, happlied⟩ := ih (fun b hb => has b (List.mem_cons_of_mem a hb)) hrest
    refine ⟨hskip.log.trans hut, fun hlog => ?_⟩
    -- the log has not changed in between either
    have hus : u.log = s.log := hskip.log.antisymm (hlog ▸ hut)
    have hrow : sr.auditRow u = sr.auditRow s := by
      simp only [SkipRequest.auditRow, State.nameDeadLetter, hus]
    rw [← hrow, happlied (hlog.trans hus.symm), hrow]
    rcases has a List.mem_cons_self with rfl | hk
    · exact hskip.applied hus
    · rw [hskip.rows_of_ne (Ne.symm hk)]

/-- A skip of a valid key that is forced, or finds no live holder, succeeds when no call fails. -/
theorem skip_succeeds (hdl : cfg.deadLetters = true) (hv : validateKey sr.key = none)
    (hfree : sr.force = true ∨ s.tables.holder A s.now sr.key = none) :
    ∃ chs u, (skip cfg sr).run.follow (cleanExec A ever) chs s = some (u, .ret (.ok ())) ∧
      u.log = s.log := by
  obtain ⟨key, position, actor, reason, force⟩ := sr
  have hrecord (sr : SkipRequest) : recordSkip cfg sr = (do
      let now ← perform .clock
      port .recordDeadLetter (Prog.op (Op.record (sr.deadLetter now)))) := if_pos hdl
  cases force with
  | true =>
    refine ⟨List.replicate 4 ({}, []), ?_⟩
    simp only [skip, hv, hrecord]
    exact ⟨_, rfl, rfl⟩
  | false =>
    have hfree : s.tables.holder A s.now key = none := by simpa using hfree
    have hask : cleanExec A ever (.holder key) ({}, []) s = some (s, .ok none) := by
      rw [← hfree]
      rfl
    refine ⟨List.replicate 5 ({}, []), ?_⟩
    simp only [skip, hv, hrecord]
    exact ⟨_, Option.bind_eq_some_iff.mpr ⟨(s, .ok none), hask, rfl⟩, rfl⟩
end Attempts

/-- **No unaudited skip.** With a dead-letter store, whatever store calls fail without effect, and
wherever an attempt is cut off:

* after any sequence of attempts at any keys, every position that was written has its audit row;
* a skip that returns an error leaves the checkpoints as they were;
* a skip that succeeds after any attempts at it has applied itself to the rows once: the audit row and
  the requested position, as one that succeeds at once does;
* and a skip without failing calls does succeed, unless its key is invalid or held. -/
theorem skip_audited (A : Adapter) (ever : Log) (cfg : Config) (hdl : cfg.deadLetters = true) :
    (∀ s as t, s.resets = [] → runActions (attemptSkip A ever cfg) s as = some t →
      ∀ m ∈ t.resets, ∃ dl, t.tables.deadLetters m.key m.position = some dl) ∧
    (∀ sr s chs t err, (skip cfg sr).run.follow (cleanExec A ever) chs s = some (t, .ret (.error err)) →
      t.tables.checkpoints = s.tables.checkpoints) ∧
    (∀ sr s as m chs t, (∀ a ∈ as, a.request = sr ∨ a.request.key ≠ sr.key) →
      runActions (attemptSkip A ever cfg) s as = some m →
      (skip cfg sr).run.follow (cleanExec A ever) chs m = some (t, .ret (.ok ())) → t.log = s.log →
      t.tables.rows sr.key = sr.applied (sr.auditRow s) (s.tables.rows sr.key) ∧
      ∀ chs' u, (skip cfg sr).run.follow (cleanExec A ever) chs' s = some (u, .ret (.ok ())) →
        u.log = s.log → t.tables.rows sr.key = u.tables.rows sr.key) ∧
    (∀ sr s, validateKey sr.key = none →
      (sr.force = true ∨ s.tables.holder A s.now sr.key = none) →
      ∃ chs u, (skip cfg sr).run.follow (cleanExec A ever) chs s = some (u, .ret (.ok ())) ∧
        u.log = s.log) := by
  refine ⟨fun s as t hs hrun => ?_, fun sr s chs t err h => ?_, ?_, fun sr s => skip_succeeds hdl⟩
  · refine audited_of_run hdl hrun fun m hm => ?_
    rw [hs] at hm
    cases hm
  · rcases (skip_follow hdl h).2.2 err rfl with hidle | haudited
    · rw [hidle.tables]
    · exact haudited.checkpoints
  · intro sr s as m chs t has hrun ht hlog
    obtain ⟨hsm, happlied⟩ := applied_of_run hdl has hrun
    have hlast := (skip_follow hdl ht).2.1 rfl
    have hm : m.log = s.log := hsm.antisymm (hlog ▸ hlast.log)
    have hrow : sr.auditRow m = sr.auditRow s := by
      simp only [SkipRequest.auditRow, State.nameDeadLetter, hm]
    have hrows : t.tables.rows sr.key = sr.applied (sr.auditRow s) (s.tables.rows sr.key) := by
      rw [hlast.rows (hlog.trans hm.symm), hrow, happlied hm]
    exact ⟨hrows, fun chs' u hu hlog' => hrows.trans (((skip_follow hdl hu).2.1 rfl).rows hlog').symm⟩

/-- A skip past position 7. -/
def skipSeven : SkipRequest := ⟨ordersKey, 7, str "operator", str "poison", false⟩

/-- A skip that crashes between its audit row and its write, and is repeated. -/
theorem skip_audited_retried :
    ∃ m t, runActions (attemptSkip Sqlite.feedAdapter Log.empty defaultConfig)
        (State.start 0 Log.empty) [⟨skipSeven, List.replicate 4 ({}, [])⟩] = some m ∧
      (skip defaultConfig skipSeven).run.follow (cleanExec Sqlite.feedAdapter Log.empty)
        (List.replicate 5 ({}, [.advance 1])) m = some (t, .ret (.ok ())) ∧
      m.tables.checkpoints ordersKey = none ∧
      t.tables.rows ordersKey = skipSeven.applied (skipSeven.auditRow (State.start 0 Log.empty))
        ((State.start 0 Log.empty).tables.rows ordersKey) := by
  refine ⟨_, _, rfl, rfl, rfl, ?_⟩
  refine ((skip_audited Sqlite.feedAdapter Log.empty defaultConfig rfl).2.2.1 skipSeven
    (State.start 0 Log.empty) [⟨skipSeven, List.replicate 4 ({}, [])⟩] _
    (List.replicate 5 ({}, [.advance 1])) _ ?_ rfl rfl rfl).1
  intro a ha
  rw [List.mem_singleton.mp ha]
  exact .inl rfl

/-! ## Between the read and the write -/

/-- A skip that has passed its checks: the read, the audit row, the write. -/
def skipRead (cfg : Config) (sr : SkipRequest) : Server Unit := do
  let cp ← port .loadCheckpoint (Prog.op (Op.checkpoint sr.key))
  recordSkip cfg sr
  port .skipCheckpoint
    (Prog.op (Op.reset sr.key ((cp.map (·.definitionHash)).getD []) sr.position))

/-- A call that, if it writes the checkpoint, writes back the fingerprint of `cp`. -/
def WritesBack (sr : SkipRequest) (cp : Option Checkpoint) (o : Op) : Prop :=
  ∀ k d p, o = .reset k d p →
    k = sr.key ∧ d = (cp.map (·.definitionHash)).getD [] ∧ p = sr.position

/-- The checks of a skip lead to its read, or to an error. -/
def BeforeRead (cfg : Config) (sr : SkipRequest) (p : Prog Op Res (Except FeedError Unit)) : Prop :=
  p = (skipRead cfg sr).run ∨
    ∃ κ, p = .call (.holder sr.key) κ ∧
      ∀ r, (∃ err, κ r = .ret (.error err)) ∨ κ r = (skipRead cfg sr).run

/-- In the run `as`, the skip `i` reads the row in the state `Q`. -/
def ReadsIn (A : Adapter) (ever : Log) (cfg : Config) (s : State)
    (as : List (PoolAction ServerCall Choice EnvStep)) (i : Nat) (sr : SkipRequest)
    (Q : ServerPool) : Prop :=
  ∃ pre ch post κ, as = pre ++ .step i ch :: post ∧
    runActions (serverSystem A ever cfg).step (Pool.start s) pre = some Q ∧
    Q.thread i = some (.skip sr, .call (.checkpoint sr.key) κ)

section Interleaved

variable {A : Adapter} {ever : Log} {cfg : Config} {sr : SkipRequest} {s : State}
  {as : List (PoolAction ServerCall Choice EnvStep)} {i : Nat} {P Q : ServerPool}

theorem skip_run_cases (cfg : Config) (sr : SkipRequest) :
    (∃ err, (skip cfg sr).run = .ret (.error err)) ∨ BeforeRead cfg sr (skip cfg sr).run := by
  cases hv : validateKey sr.key with
  | some why =>
    refine .inl ⟨.invalid why, ?_⟩
    simp only [skip, hv]
    rfl
  | none =>
    cases hforce : sr.force with
    | true =>
      refine .inr (.inl ?_)
      simp only [skip, hv, hforce]
      rfl
    | false =>
      have hrun : (skip cfg sr).run = (refuseIfHeld sr.key >>= fun _ => skipRead cfg sr).run := by
        simp only [skip, hv, hforce]
        rfl
      refine .inr (.inr ⟨_, hrun, fun r => ?_⟩)
      rcases r with _ | _ | lease
      · exact .inl ⟨_, rfl⟩
      · exact .inr rfl
      · exact .inl ⟨_, rfl⟩

/-- Once the read has replied, the skip is over, or every write it makes is one of what was read. -/
theorem skipRead_reply (cfg : Config) (sr : SkipRequest) :
    ∃ κ, (skipRead cfg sr).run = .call (.checkpoint sr.key) κ ∧
      ∀ r, (∃ err, κ r = .ret (.error err)) ∨
        ∃ cp, r = .ok cp ∧ (κ r).Issues (WritesBack sr cp) := by
  refine ⟨_, rfl, fun r => ?_⟩
  rcases r with _ | cp
  · exact .inl ⟨_, rfl⟩
  · refine .inr ⟨cp, rfl, ?_⟩
    change Prog.Issues _ (recordSkip cfg sr >>= fun _ => port .skipCheckpoint
      (Prog.op (Op.reset sr.key ((cp.map (·.definitionHash)).getD []) sr.position))).run
    refine .bindExcept (recordSkip_issues ?_ ?_) fun _ => ?_
    · intro k d p h
      cases h
    · intro now k d p h
      cases h
    · refine port_issues (.op ?_)
      intro k d p h
      cases h
      exact ⟨rfl, rfl, rfl⟩

/-- A read stays one of the run. -/
theorem ReadsIn.append (h : ReadsIn A ever cfg s as i sr Q)
    (a : PoolAction ServerCall Choice EnvStep) : ReadsIn A ever cfg s (as ++ [a]) i sr Q := by
  obtain ⟨pre, ch, post, κ, rfl, hpre, hthread⟩ := h
  exact ⟨pre, ch, post ++ [a], κ, by rw [List.append_assoc, List.cons_append], hpre, hthread⟩

/-- **Where the skips of a run stand**: before their read, or past it and about to write back what they
read in a state of the run. -/
theorem skip_phases (hrun : runActions (serverSystem A ever cfg).step (Pool.start s) as = some P) :
    ∀ i sr p, P.thread i = some (.skip sr, p) → BeforeRead cfg sr p ∨
      ∃ Q, ReadsIn A ever cfg s as i sr Q ∧
        p.Issues (WritesBack sr (Q.shared.tables.checkpoints sr.key)) := by
  refine run_induction (I := fun as P => ∀ i sr p, P.thread i = some (.skip sr, p) →
    BeforeRead cfg sr p ∨ ∃ Q, ReadsIn A ever cfg s as i sr Q ∧
      p.Issues (WritesBack sr (Q.shared.tables.checkpoints sr.key))) ?_ ?_ hrun
  · intro i sr p hp
    cases hp
  · intro pre a U V hpre ih hstep i sr p hp
    -- a skip that does not move stays where it was
    have hold : U.thread i = some (.skip sr, p) → BeforeRead cfg sr p ∨
        ∃ Q, ReadsIn A ever cfg s (pre ++ [a]) i sr Q ∧
          p.Issues (WritesBack sr (Q.shared.tables.checkpoints sr.key)) := by
      intro hU
      rcases ih i sr p hU with hbefore | ⟨Q, hQ, hp⟩
      · exact .inl hbefore
      · exact .inr ⟨Q, hQ.append a, hp⟩
    rcases System.step_cases hstep with ⟨j, c, rfl, -, rfl⟩ |
      ⟨j, ch, c, o, κ, t, r, rfl, hthread, hex, rfl⟩ | ⟨e, t, rfl, -, rfl⟩
    · rcases Pool.thread_put hp with ⟨rfl, rfl, rfl⟩ | ⟨-, hU⟩
      · rcases skip_run_cases cfg sr with ⟨err, hret⟩ | hbefore
        · have hprog : (serverSystem A ever cfg).prog (.skip sr) = .ret (.error err) := hret
          rw [hprog, Pool.thread_put_ret] at hp
          cases hp
        · exact .inl hbefore
      · exact hold hU
    · rcases Pool.thread_put hp with ⟨rfl, rfl, rfl⟩ | ⟨-, hU⟩
      · rcases ih i sr _ hthread with (hread | ⟨κ', hcall, hκ⟩) | ⟨Q, hQ, hissues⟩
        · -- the read itself: it replies with the row of this state
          obtain ⟨κ', hrun', hκ⟩ := skipRead_reply cfg sr
          cases hread.trans hrun'
          rcases hκ r with ⟨err, hret⟩ | ⟨cp, rfl, hissues⟩
          · rw [hret, Pool.thread_put_ret] at hp
            cases hp
          · obtain ⟨-, rfl⟩ := answer_eq_ok (Option.some.inj hex)
            exact .inr ⟨U, ⟨pre, ch, [], _, rfl, hpre, hthread⟩, hissues⟩
        · -- the holder check
          cases hcall
          rcases hκ r with ⟨err, hret⟩ | hread
          · rw [hret, Pool.thread_put_ret] at hp
            cases hp
          · exact .inl (.inl hread)
        · exact .inr ⟨Q, hQ.append _, hissues.2 r⟩
      · exact hold hU
    · exact hold hp

theorem Tables.fingerprint_reset (t : Tables) (now : Int) (k : Key) (d : Bytes) (p : Nat) :
    (t.reset now k d p).fingerprint k = keepDefinition (t.fingerprint k) d := by
  simp only [fingerprint, reset_checkpoints_self]
  cases t.checkpoints k with
  | none =>
    simp only [Option.map_some, Option.getD_some, Option.map_none, Option.getD_none, keepDefinition]
    split
    · assumption
    · rfl
  | some cp => rfl

theorem Tables.position_reset (t : Tables) (now : Int) (k : Key) (d : Bytes) (p : Nat) :
    (t.reset now k d p).position k = p := by
  simp only [position, reset_checkpoints_self]
  cases t.checkpoints k <;> rfl

theorem Tables.keepDefinition_eq_stored {stored new : Bytes} :
    keepDefinition stored new = stored ↔ new = [] ∨ new = stored := by
  unfold keepDefinition
  split
  · rename_i h
    simp [h]
  · rename_i h
    simp [h]

end Interleaved

/-- **When a skip is a position advance.** In every interleaving of calls of the server, the write of a
skip leaves the fingerprint that is stored at that moment and does not lower the position exactly if the
fingerprint that the skip read was empty or is still the stored one, and the requested position is not
below the stored one. -/
theorem skip_write_advances_iff (A : Adapter) (ever : Log) (cfg : Config) (s : State)
    (as : List (PoolAction ServerCall Choice EnvStep)) (P P' : ServerPool) (i : Nat) (sr : SkipRequest)
    (ch : Choice) (k : Key) (d : Bytes) (p : Nat) (κ : Res (.reset k d p) → Prog Op Res (Except FeedError Unit))
    (hrun : runActions (serverSystem A ever cfg).step (Pool.start s) as = some P)
    (hwrite : P.thread i = some (.skip sr, .call (.reset k d p) κ)) (heffect : ch.fault ≠ .before)
    (hstep : (serverSystem A ever cfg).step P (.step i ch) = some P') :
    ∃ Q, ReadsIn A ever cfg s as i sr Q ∧
      ((P'.shared.tables.fingerprint sr.key = P.shared.tables.fingerprint sr.key ∧
          P.shared.tables.position sr.key ≤ P'.shared.tables.position sr.key) ↔
        (Q.shared.tables.fingerprint sr.key = [] ∨
            Q.shared.tables.fingerprint sr.key = P.shared.tables.fingerprint sr.key) ∧
          P.shared.tables.position sr.key ≤ sr.position) := by
  rcases skip_phases hrun i sr _ hwrite with (hread | ⟨κ', hcall, -⟩) | ⟨Q, hQ, hissues, -⟩
  · obtain ⟨κ', hrun', -⟩ := skipRead_reply cfg sr
    cases hread.trans hrun'
  · cases hcall
  · obtain ⟨rfl, hd, rfl⟩ := hissues k d p rfl
    refine ⟨Q, hQ, ?_⟩
    have htables : P'.shared.tables = P.shared.tables.reset P.shared.now sr.key d sr.position := by
      rcases System.step_cases hstep with ⟨j, c, h, -⟩ | ⟨j, ch', c, o, κ', t, r, h, hthread, hex, rfl⟩ |
        ⟨e, t, h, -⟩
      · cases h
      · cases h
        cases hwrite.symm.trans hthread
        rw [Pool.put_shared]
        have hanswer := congrArg Prod.fst (Option.some.inj hex)
        simp only [answer] at hanswer
        cases hf : ch.fault with
        | before => exact absurd hf heffect
        | none =>
          rw [hf] at hanswer
          rw [← hanswer]
          rfl
        | after =>
          rw [hf] at hanswer
          rw [← hanswer]
          rfl
      · cases h
    have hfingerprint : d = Q.shared.tables.fingerprint sr.key := hd
    rw [htables, Tables.fingerprint_reset, Tables.position_reset, Tables.keepDefinition_eq_stored,
      hfingerprint]

/-- Position 5, acknowledged under the fingerprint `v1`. -/
def fiveStored : State :=
  (State.start 0 Log.empty).withTables (Tables.empty.save 0 ordersKey (str "v1") 5)

/-- A skip past position 7, up to its write. -/
def upToWrite : List (PoolAction ServerCall Choice EnvStep) :=
  [.spawn 0 (.skip skipSeven), .step 0 {}, .step 0 {}, .step 0 {}, .step 0 {}]

/-- The skip past position 7 moves the stored position 5 forward, under its fingerprint. -/
theorem skip_write_advances_alone :
    ∃ P P', runActions (serverSystem Sqlite.feedAdapter Log.empty defaultConfig).step
        (Pool.start fiveStored) upToWrite = some P ∧
      (serverSystem Sqlite.feedAdapter Log.empty defaultConfig).step P (.step 0 {}) = some P' ∧
      ∃ Q, ReadsIn Sqlite.feedAdapter Log.empty defaultConfig fiveStored upToWrite 0 skipSeven Q ∧
        ((P'.shared.tables.fingerprint ordersKey = P.shared.tables.fingerprint ordersKey ∧
            P.shared.tables.position ordersKey ≤ P'.shared.tables.position ordersKey) ↔
          (Q.shared.tables.fingerprint ordersKey = [] ∨
              Q.shared.tables.fingerprint ordersKey = P.shared.tables.fingerprint ordersKey) ∧
            P.shared.tables.position ordersKey ≤ 7) := by
  refine ⟨_, _, rfl, rfl, ?_⟩
  exact skip_write_advances_iff Sqlite.feedAdapter Log.empty defaultConfig fiveStored upToWrite _ _ 0
    skipSeven {} ordersKey (str "v1") 7 _ rfl rfl (by decide) rfl

/-- The stored position and fingerprint after a run. -/
def storedAfter (as : List (PoolAction ServerCall Choice EnvStep)) : Option (Nat × Bytes) :=
  (runActions (serverSystem Sqlite.feedAdapter Log.empty defaultConfig).step (Pool.start fiveStored) as).map
    (fun P => (P.shared.tables.position ordersKey, P.shared.tables.fingerprint ordersKey))

/-- A skip to position 3, up to its write. -/
def backwards : List (PoolAction ServerCall Choice EnvStep) :=
  [.spawn 0 (.skip { skipSeven with position := 3 }), .step 0 {}, .step 0 {}, .step 0 {}, .step 0 {}]

/-- Another operator resets the subscription to position 9 under a new definition between the read and the
write of a skip. -/
def redefined : List (PoolAction ServerCall Choice EnvStep) :=
  [.spawn 0 (.skip skipSeven), .step 0 {}, .step 0 {},
    .spawn 1 (.resetCheckpoint (ackRequest []) 9 false), .step 1 {}, .step 1 {},
    .step 0 {}, .step 0 {}]

/-- **A skip that is not an advance.** A skip to 3 rewinds the position 5. A skip past 7 that runs beside
a reset takes the position 9 back to 7, and the fingerprint of the new definition back to the old one. -/
theorem skip_rewinds_and_redefines :
    (storedAfter backwards = some (5, str "v1") ∧
      storedAfter (backwards ++ [.step 0 {}]) = some (3, str "v1")) ∧
    (storedAfter redefined = some (9, (ackRequest []).definition.hash) ∧
      storedAfter (redefined ++ [.step 0 {}]) = some (7, str "v1") ∧
      (ackRequest []).definition.hash ≠ str "v1") := by
  refine ⟨⟨?_, ?_⟩, ?_, ?_, ?_⟩ <;> decide +kernel

end EsLite.Feed
