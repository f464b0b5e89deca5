import EsLite.Foundation.Consuming
import EsLite.Foundation.Interleaving
import EsLite.Sqlite.Anchor
import EsLite.Sqlite.Pages

/-!
# The poller

`Poller.drain` tails the log for a subscriber: it loads the checkpoint, reads the batch after it, hands
the batch to the handler and saves the position of its last event, until a batch is not full. Nothing
ties these statements together, and a save overwrites what is stored, so that a slow poller can move the
checkpoint back. `handled_up_to_stored_checkpoint`: it never lies beyond an event that was not handled.
-/

namespace EsLite.Delivery

open Prog (perform ofResult)
open Sqlite (Db AppendInputs EventRow)

/-! ## Statements -/

/-- What a poller is configured with. -/
structure Config where
  subscriber : Bytes
  batchSize : Int

/-- A poller drains the log for one subscriber. -/
structure Poller where
  subscriber : Bytes
  batchSize : Int
  subscriber_ne : subscriber ≠ []
  batchSize_pos : 0 < batchSize

/-- `NewPoller`; it panics without a subscriber. -/
def newPoller (cfg : Config) : Option Poller :=
  if h : cfg.subscriber = [] then none
  else some ⟨cfg.subscriber, if cfg.batchSize ≤ 0 then 100 else cfg.batchSize, h, by split <;> omega⟩

/-- The database with its `checkpoints` table, and what handlers have returned from without an error:
subscriber and batch. -/
structure PollState where
  db : Db
  checkpoints : Bytes → Option Int
  handled : List (Bytes × List Envelope)

/-- An empty database. -/
def PollState.fresh : PollState := ⟨.empty, fun _ => none, []⟩

/-- The steps of appends and of pollers: an append is one transaction. -/
inductive PollOp : Type where
  | append (p : AppendParams)
  | loadCheckpoint (subscriber : Bytes)
  | readAll (fromPosition : UInt64) (limit : Int)
  /-- A call of the handler. -/
  | handle (subscriber : Bytes) (batch : List Envelope)
  | saveCheckpoint (subscriber : Bytes) (position : UInt64)

/-- What the steps return. -/
def PollRes : PollOp → Type
  | .append _ => Except AppendError AppendResult
  | .loadCheckpoint _ => Except StoreError UInt64
  | .readAll _ _ => Except StoreError (List Envelope)
  | .handle _ _ => Except Bytes Unit
  | .saveCheckpoint _ _ => Except StoreError Unit

/-- What is left open in a step: the inputs of an append, an error, and whether the step took effect in
spite of it. -/
structure PollAnswer where
  inputs : AppendInputs
  fault : Option Bytes
  applied : Bool

/-- `SELECT position FROM checkpoints WHERE subscriber = ?` -/
def PollState.loadCheckpoint (s : PollState) (subscriber : Bytes) : Except StoreError UInt64 :=
  match s.checkpoints subscriber with
  | none => .ok 0
  | some position =>
    match Sqlite.scanUint64 position with
    | none => .error (.backend (str "converting driver.Value type"))
    | some position => .ok position

/-- `INSERT INTO checkpoints … ON CONFLICT(subscriber) DO UPDATE SET position = excluded.position` -/
def PollState.saveCheckpoint (s : PollState) (subscriber : Bytes) (position : UInt64) :
    PollState × Except StoreError Unit :=
  if 2 ^ 63 ≤ position.toNat then (s, .error (.backend Sqlite.DbError.highBit.text))
  else ({ s with checkpoints := Function.update s.checkpoints subscriber (some position.toNat) }, .ok ())

/-- An append, and the database after it. -/
def PollState.append (T : GoText) (maxPayloadBytes : Int) (inp : AppendInputs) (p : AppendParams)
    (s : PollState) : PollState × Except AppendError AppendResult :=
  match Sqlite.append T maxPayloadBytes inp p s.db with
  | .error err => (s, .error err)
  | .ok (db, res) => ({ s with db := db }, .ok res)

/-- A read that may fail. -/
def PollAnswer.read {α : Type} (x : PollAnswer) (r : Except StoreError α) : Except StoreError α :=
  match x.fault with
  | some text => .error (.backend text)
  | none => r

/-- A write that may fail, and may have taken effect if it does. -/
def PollAnswer.write {α ε : Type} (x : PollAnswer) (wrap : Bytes → ε) (s : PollState)
    (after : PollState × Except ε α) : PollState × Except ε α :=
  match x.fault with
  | some text => (if x.applied then after.1 else s, .error (wrap text))
  | none => after

/-- The effect of a step. -/
def execPoll (T : GoText) (maxPayloadBytes : Int) :
    (o : PollOp) → PollAnswer → PollState → Option (PollState × PollRes o)
  | .append p, x, s => some (x.write .backend s (s.append T maxPayloadBytes x.inputs p))
  | .loadCheckpoint subscriber, x, s => some (s, x.read (s.loadCheckpoint subscriber))
  | .readAll fromPosition limit, x, s =>
    some (s, x.read (Sqlite.readAll T s.db.events fromPosition limit))
  | .handle subscriber batch, x, s =>
    match x.fault with
    | some text => some (s, .error text)
    | none => some ({ s with handled := s.handled ++ [(subscriber, batch)] }, .ok ())
  | .saveCheckpoint subscriber position, x, s =>
    some (x.write .backend s (s.saveCheckpoint subscriber position))

theorem PollAnswer.read_eq_ok {α : Type} {x : PollAnswer} {r : Except StoreError α} {a : α}
    (h : x.read r = .ok a) : r = .ok a := by
  unfold PollAnswer.read at h
  split at h
  · cases h
  · exact h

/-- A write leaves the state, or does what it says. -/
theorem PollAnswer.write_cases {α ε : Type} (x : PollAnswer) (wrap : Bytes → ε) (s : PollState)
    (after : PollState × Except ε α) :
    (x.write wrap s after).1 = s ∨ (x.write wrap s after).1 = after.1 := by
  unfold PollAnswer.write
  split
  · split
    · exact .inr rfl
    · exact .inl rfl
  · exact .inr rfl

/-! ## Programs -/

/-- How a drain fails: in which step, and on what. -/
inductive DrainError : Type where
  | loadCheckpoint (err : StoreError)
  | readLog (err : StoreError)
  | handleBatch (err : Bytes)
  | saveCheckpoint (err : StoreError)
  /-- The drain has used up its rounds, and has not returned yet. -/
  | unfinished

/-- A program of steps that may end in an error. -/
abbrev PollAct (α : Type) := ExceptT DrainError (Prog PollOp PollRes) α

/-- The step that a drain begins with. -/
def loadCheckpoint (subscriber : Bytes) : PollAct UInt64 := do
  let r : Except StoreError UInt64 ← perform (PollOp.loadCheckpoint subscriber)
  ofResult (r.mapError .loadCheckpoint)

/-- The batch after a position. -/
def readLog (pos : UInt64) (batchSize : Int) : PollAct (List Envelope) := do
  let r : Except StoreError (List Envelope) ← perform (PollOp.readAll pos batchSize)
  ofResult (r.mapError .readLog)

/-- The call of the handler. -/
def handleBatch (subscriber : Bytes) (batch : List Envelope) : PollAct Unit := do
  let r : Except Bytes Unit ← perform (PollOp.handle subscriber batch)
  ofResult (r.mapError .handleBatch)

/-- The step that ends a round. -/
def saveCheckpoint (subscriber : Bytes) (position : UInt64) : PollAct Unit := do
  let r : Except StoreError Unit ← perform (PollOp.saveCheckpoint subscriber position)
  ofResult (r.mapError .saveCheckpoint)

/-- `Poller.drain`, for a number of rounds. -/
def Poller.drain (p : Poller) : (rounds : Nat) → PollAct Unit
  | 0 => throw .unfinished
  | rounds + 1 => do
    let pos ← loadCheckpoint p.subscriber
    let batch ← readLog pos p.batchSize
    match batch.getLast? with
    | none => pure () -- caught up
    | some last =>
      handleBatch p.subscriber batch
      saveCheckpoint p.subscriber last.globalPosition
      -- a partial batch: the log is exhausted
      if (batch.length : Int) < p.batchSize then pure () else p.drain rounds

/-- What runs: appends, and drains of any pollers. -/
inductive PollCall : Type where
  | append (p : AppendParams)
  | drain (p : Poller) (rounds : Nat)

/-- What they return. -/
inductive PollReply : Type where
  | appended (r : Except AppendError AppendResult)
  | drained (r : Except DrainError Unit)

/-- Any number of appends and drains over one database, interleaved step by step. A crash is a program
that takes no more steps. -/
def polling (T : GoText) (maxPayloadBytes : Int) :
    System PollState PollCall PollOp PollRes PollReply PollAnswer Empty where
  prog
    | .append p => .call (.append p) (fun r => .ret (.appended r))
    | .drain p rounds => (p.drain rounds).run >>= fun r => .ret (.drained r)
  exec := execPoll T maxPayloadBytes
  env := nofun

/-! ## What is handled -/

/-- The event of the row was in a batch that was handled for the subscriber. -/
def Handled (T : GoText) (s : PollState) (subscriber : Bytes) (r : EventRow) : Prop :=
  ∃ batch, (subscriber, batch) ∈ s.handled ∧ ∃ e ∈ batch, Sqlite.scanEnvelope T r = .ok e

/-- Every event up to the position was handled for the subscriber, and no event will be added there. -/
structure HandledUpTo (T : GoText) (s : PollState) (subscriber : Bytes) (position : Int) : Prop where
  reached : position ≤ s.db.lastPosition
  done : DoneUpTo EventRow.globalPosition s.db.events.rows (Handled T s subscriber) position

/-- The events of a database have positive positions, and the stored checkpoints lie on handled ones. -/
structure PollInv (T : GoText) (s : PollState) : Prop where
  positive : ∀ r ∈ s.db.events.rows, 0 < r.globalPosition
  stored : ∀ subscriber position, s.checkpoints subscriber = some position →
    HandledUpTo T s subscriber position

/-- The log grows at its end, and what was handled stays so. -/
structure PollLe (s t : PollState) : Prop where
  lastPosition : s.db.lastPosition ≤ t.db.lastPosition
  rows : ∀ r ∈ t.db.events.rows, r ∈ s.db.events.rows ∨ (s.db.lastPosition : Int) < r.globalPosition
  handled : s.handled ⊆ t.handled

theorem PollLe.refl (s : PollState) : PollLe s s :=
  ⟨le_rfl, fun _ hr => .inl hr, List.Subset.refl _⟩

theorem PollLe.trans {s t u : PollState} (h : PollLe s t) (h' : PollLe t u) : PollLe s u where
  lastPosition := h.lastPosition.trans h'.lastPosition
  rows r hr := by
    rcases h'.rows r hr with hold | hnew
    · exact h.rows r hold
    · have := h.lastPosition
      exact .inr (by omega)
  handled := List.Subset.trans h.handled h'.handled

section Handled

variable {T : GoText} {s t : PollState} {subscriber : Bytes} {position : Int}

/-- **What was handled up to a position stays so**: later events lie above it. -/
theorem HandledUpTo.mono (h : HandledUpTo T s subscriber position) (hle : PollLe s t) :
    HandledUpTo T t subscriber position where
  reached := h.reached.trans (Int.ofNat_le.mpr hle.lastPosition)
  done := by
    refine (h.done.mono fun r hr => ?_).grow hle.rows h.reached
    obtain ⟨batch, hbatch, he⟩ := hr
    exact ⟨batch, hle.handled hbatch, he⟩

/-- There is nothing to handle at the start of the log. -/
theorem handledUpTo_zero (h : ∀ r ∈ s.db.events.rows, 0 < r.globalPosition) (subscriber : Bytes) :
    HandledUpTo T s subscriber 0 where
  reached := Int.natCast_nonneg _
  done r hr hle := absurd hle (not_le.mpr (h r hr))

/-- A step that leaves the checkpoints keeps the invariant. -/
theorem PollInv.of_le (hi : PollInv T s) (hle : PollLe s t) (hcheckpoints : t.checkpoints = s.checkpoints) :
    PollInv T t where
  positive r hr := by
    rcases hle.rows r hr with hold | hnew
    · exact hi.positive r hold
    · exact lt_of_le_of_lt (Int.natCast_nonneg _) hnew
  stored subscriber position h := (hi.stored subscriber position (hcheckpoints ▸ h)).mono hle

/-- An append adds rows at the end of the log. -/
theorem append_le {cap : Int} {inp : AppendInputs} {p : AppendParams} :
    PollLe s (s.append T cap inp p).1 := by
  unfold PollState.append
  cases happend : Sqlite.append T cap inp p s.db with
  | error err => exact .refl s
  | ok x =>
    obtain ⟨db, res⟩ := x
    have hext := Sqlite.extended_of_append happend
    refine ⟨?_, fun r hr => ?_, List.Subset.refl _⟩
    · rw [Sqlite.lastPosition_append happend]
      exact Nat.le_add_right _ _
    · rw [show r ∈ db.events.rows ↔ _ by rw [hext.rows, List.mem_append]] at hr
      rcases hr with hold | hnew
      · exact .inl hold
      · obtain ⟨e, he, rfl⟩ := List.mem_map.mp hnew
        exact .inr (Int.ofNat_lt.mpr (hext.lastPosition_lt e he))

theorem append_checkpoints {cap : Int} {inp : AppendInputs} {p : AppendParams} :
    (s.append T cap inp p).1.checkpoints = s.checkpoints := by
  unfold PollState.append
  cases Sqlite.append T cap inp p s.db <;> rfl

/-- **A save onto a handled position** keeps the invariant, wherever the checkpoint was before. -/
theorem saveCheckpoint_keeps (hi : PollInv T s) {position : UInt64}
    (h : HandledUpTo T s subscriber position.toNat) :
    PollInv T (s.saveCheckpoint subscriber position).1 ∧
      PollLe s (s.saveCheckpoint subscriber position).1 := by
  unfold PollState.saveCheckpoint
  split
  · exact ⟨hi, .refl s⟩
  · refine ⟨⟨hi.positive, fun sub p hp => ?_⟩, ⟨le_rfl, fun _ hr => .inl hr, List.Subset.refl _⟩⟩
    dsimp only at hp
    by_cases hsub : sub = subscriber
    · subst hsub
      obtain rfl : (position.toNat : Int) = p := by
        rw [Function.update_self] at hp
        exact Option.some.inj hp
      exact ⟨h.reached, h.done⟩
    · rw [Function.update_of_ne hsub] at hp
      have hold := hi.stored sub p hp
      exact ⟨hold.reached, hold.done⟩

/-- **A batch leaves out nothing** between where it was read from and its last event. -/
theorem readAll_covers {rows : Sqlite.EventsTable} {pos : UInt64} {limit : Int} {batch : List Envelope}
    {last : Envelope} (h : Sqlite.readAll T rows pos limit = .ok batch)
    (hlast : batch.getLast? = some last) :
    (∃ r ∈ rows.rows, r.globalPosition = last.globalPosition.toNat) ∧
      ∀ r ∈ rows.rows, (pos.toNat : Int) < r.globalPosition →
        r.globalPosition ≤ last.globalPosition.toNat →
        ∃ e ∈ batch, Sqlite.scanEnvelope T r = .ok e := by
  unfold Sqlite.readAll at h
  split at h
  · cases h
  have hscan := scanAll_eq_ok.mp h
  -- the row of the last event is the last one of the page
  have hrow : ((Sqlite.orderByPosition (rows.rows.filter (fun r =>
      (pos.toNat : Int) < r.globalPosition))).take (pageLimit limit)).getLast?.map
        (Sqlite.scanEnvelope T) = some (.ok last) := by
    rw [← List.getLast?_map, hscan, List.getLast?_map, hlast]
    rfl
  obtain ⟨r₀, hr₀, hscan₀⟩ := Option.map_eq_some_iff.mp hrow
  have hpos₀ := (Sqlite.scanUint64_eq_some (Sqlite.position_of_scanEnvelope hscan₀)).1
  refine ⟨⟨r₀, ?_, hpos₀⟩, fun r hr hgt hle => ?_⟩
  · have hmem := List.mem_of_mem_take (List.mem_of_getLast? hr₀)
    exact List.mem_of_mem_filter (Sqlite.mem_orderByPosition.mp hmem)
  · have hmem : r ∈ Sqlite.orderByPosition (rows.rows.filter (fun r =>
        (pos.toNat : Int) < r.globalPosition)) :=
      Sqlite.mem_orderByPosition.mpr (List.mem_filter.mpr ⟨hr, decide_eq_true hgt⟩)
    exact exists_of_scanAll h (mem_take_of_le_getLast (Sqlite.pairwise_orderByPosition rows _) hmem hr₀
      (by rw [hpos₀]; exact hle))

end Handled

/-! ## Drains -/

/-- What is known along a run: the log grows at its end, and so does what was handled. -/
def pollLogic (T : GoText) : Logic PollState PollOp where
  inv := PollInv T
  le := PollLe
  allowed _ _ := True
  refl := .refl
  trans _ _ _ := .trans

section Drain

open Logic

variable {T : GoText} {cap : Int} {s : PollState} {subscriber : Bytes}

/-- The position that a drain starts from lies on handled events. -/
theorem wp_loadCheckpoint :
    (pollLogic T).WP (polling T cap) (OnOk fun pos t => HandledUpTo T t subscriber pos.toNat)
      (loadCheckpoint subscriber).run s := by
  refine WP.andThen (R := fun r t => ∀ pos, r = .ok pos → HandledUpTo T t subscriber pos.toNat)
    (WP.perform fun t _ hi _ x t' r hex => ?_)
    (fun r t _ _ hr => WP.ofResult fun pos hpos u hu hi => hr u hu hi pos (mapError_eq_ok hpos))
  cases hex
  refine ⟨hi, .refl t, fun u hu _ pos hpos => HandledUpTo.mono ?_ hu⟩
  replace hpos := PollAnswer.read_eq_ok hpos
  unfold PollState.loadCheckpoint at hpos
  split at hpos
  · cases hpos
    exact handledUpTo_zero hi.positive subscriber
  · rename_i position hstored
    split at hpos
    · cases hpos
    · rename_i hscan
      cases hpos
      rw [← (Sqlite.scanUint64_eq_some hscan).1]
      exact hi.stored subscriber position hstored

/-- **A batch and where it was read from**: once it is handled, all is up to its last event. -/
theorem wp_readLog {pos : UInt64} {batchSize : Int} (hpos : HandledUpTo T s subscriber pos.toNat) :
    (pollLogic T).WP (polling T cap) (OnOk fun batch t => ∀ last, batch.getLast? = some last →
        (subscriber, batch) ∈ t.handled → HandledUpTo T t subscriber last.globalPosition.toNat)
      (readLog pos batchSize).run s := by
  refine WP.andThen (R := fun r t => ∀ batch, r = .ok batch → ∀ last, batch.getLast? = some last →
      (subscriber, batch) ∈ t.handled → HandledUpTo T t subscriber last.globalPosition.toNat)
    (WP.perform fun t hle hi _ x t' r hex => ?_)
    (fun r t _ _ hr => WP.ofResult fun b hb u hu hi => hr u hu hi b (mapError_eq_ok hb))
  cases hex
  refine ⟨hi, .refl t, fun u hu _ batch hread last hlast hhandled => ?_⟩
  obtain ⟨⟨r₀, hr₀, hpos₀⟩, hcovers⟩ := readAll_covers (PollAnswer.read_eq_ok hread) hlast
  have hreached : (last.globalPosition.toNat : Int) ≤ t.db.lastPosition := by
    rw [← hpos₀]
    exact Sqlite.Db.position_le hr₀
  have hbefore := (hpos.mono hle).mono hu
  refine ⟨hreached.trans (Int.ofNat_le.mpr hu.lastPosition), hbefore.done.advance ?_⟩
  -- what lies in between was there at the read, and is in the batch
  intro r hr hgt hle
  rcases hu.rows r hr with hold | hnew
  · exact ⟨batch, hhandled, hcovers r hold hgt hle⟩
  · omega

theorem wp_handleBatch {batch : List Envelope} :
    (pollLogic T).WP (polling T cap) (OnOk fun _ t => (subscriber, batch) ∈ t.handled)
      (handleBatch subscriber batch).run s := by
  refine WP.andThen (R := fun r t => r = .ok () → (subscriber, batch) ∈ t.handled)
    (WP.perform fun t _ hi _ x t' r hex => ?_)
    (fun r t _ _ hr => WP.ofResult fun _ h u hu hi => hr u hu hi (mapError_eq_ok h))
  simp only [polling, execPoll] at hex
  split at hex
  · cases hex
    refine ⟨hi, .refl t, fun _ _ _ h => ?_⟩
    cases h
  · cases hex
    have hle : PollLe t { t with handled := t.handled ++ [(subscriber, batch)] } :=
      ⟨le_rfl, fun _ hr => .inl hr, List.subset_append_left _ _⟩
    exact ⟨hi.of_le hle rfl, hle, fun u hu _ _ => hu.handled (by simp)⟩

/-- A write keeps the invariant if its effect does. -/
theorem write_keeps {α ε : Type} {t : PollState} (hi : PollInv T t) {x : PollAnswer} {wrap : Bytes → ε}
    {after : PollState × Except ε α} (h : PollInv T after.1 ∧ PollLe t after.1) :
    PollInv T (x.write wrap t after).1 ∧ PollLe t (x.write wrap t after).1 := by
  rcases x.write_cases wrap t after with hsame | hdone
  · rw [hsame]
    exact ⟨hi, .refl t⟩
  · rw [hdone]
    exact h

/-- A save onto a handled position. -/
theorem wp_saveCheckpoint {position : UInt64} (h : HandledUpTo T s subscriber position.toNat) :
    (pollLogic T).WP (polling T cap) (OnOk fun _ _ => True)
      (saveCheckpoint subscriber position).run s := by
  refine WP.andThen (R := fun _ _ => True) (WP.perform fun t hle hi _ x t' r hex => ?_)
    (fun r t _ _ _ => WP.ofResult fun _ _ _ _ _ => trivial)
  obtain ⟨rfl, rfl⟩ := Prod.mk.inj (Option.some.inj hex)
  obtain ⟨hinv, hgrows⟩ := write_keeps hi (saveCheckpoint_keeps hi (h.mono hle))
  exact ⟨hinv, hgrows, fun _ _ _ => trivial⟩

/-- **A drain keeps the invariant**, whatever else runs. -/
theorem wp_drain (p : Poller) (rounds : Nat) (s : PollState) :
    (pollLogic T).WP (polling T cap) (OnOk fun _ _ => True) (p.drain rounds).run s := by
  induction rounds generalizing s with
  | zero => exact WP.ret fun _ _ _ => trivial
  | succ rounds ih =>
    unfold Poller.drain
    refine WP.andThen wp_loadCheckpoint fun pos t ht hi hpos => ?_
    refine WP.andThen (wp_readLog (hpos t (.refl t) hi)) fun batch u hu _ hbatch => ?_
    cases hlast : batch.getLast? with
    | none => exact WP.ret fun _ _ _ => trivial
    | some last =>
      refine WP.andThen wp_handleBatch fun _ v hv hi hhandled => ?_
      have hdone : HandledUpTo T v p.subscriber last.globalPosition.toNat :=
        hbatch v hv hi last hlast (hhandled v (.refl v) hi)
      refine WP.andThen (wp_saveCheckpoint hdone) fun _ w _ _ _ => ?_
      split
      · exact WP.ret fun _ _ _ => trivial
      · exact ih w

/-- **The poller never checkpoints past an unhandled event.** Take any run of appends and of drains for
any subscribers, whose steps interleave in any order, fail in any way, and stop anywhere. In every state
that is reached, every event up to the stored checkpoint of a subscriber was in a batch for which a call
of its handler returned without an error. -/
theorem handled_up_to_stored_checkpoint {acts : List (PoolAction PollCall PollAnswer Empty)}
    {P : Pool PollState PollCall PollOp PollRes PollReply}
    (hrun : runActions (polling T cap).step (Pool.start .fresh) acts = some P) :
    ∀ subscriber position, P.shared.checkpoints subscriber = some position →
      ∀ r ∈ P.shared.db.events.rows, r.globalPosition ≤ position →
        ∃ batch, (subscriber, batch) ∈ P.shared.handled ∧
          ∃ e ∈ batch, Sqlite.scanEnvelope T r = .ok e := by
  have hprog : ∀ c s, (pollLogic T).inv s → True →
      (pollLogic T).WP (polling T cap) (fun _ _ => True) ((polling T cap).prog c) s := by
    intro c s _ _
    cases c with
    | append p =>
      refine WP.call fun t _ hi _ x t' r hex => ?_
      obtain ⟨rfl, rfl⟩ := Prod.mk.inj (Option.some.inj hex)
      obtain ⟨hinv, hgrows⟩ := write_keeps hi ⟨hi.of_le append_le append_checkpoints, append_le⟩
      exact ⟨hinv, hgrows, fun _ _ _ => trivial⟩
    | drain p rounds => exact WP.map ((wp_drain p rounds s).weaken fun _ _ _ _ _ => trivial)
  have hfresh : PollInv T .fresh := ⟨nofun, nofun⟩
  have hguarded := (guardedRun_of_run hrun).mono fun P a _ =>
    System.allows_of_forall (fun _ _ => trivial) (fun _ _ => trivial) P a
  have hsound := (run_sound (fun e => nomatch e) hprog hguarded (Sound.start hfresh)).1
  intro subscriber position hstored
  exact (hsound.inv.stored subscriber position hstored).done

end Drain

/-- A poller with the default batch size. -/
def mailPoller : Poller := ⟨str "mail", 100, by decide, by decide⟩

example : newPoller ⟨str "mail", 0⟩ = some mailPoller := rfl

/-- Nothing fails. -/
def smoothly : PollAnswer := ⟨Sqlite.firstAppend.1, none, false⟩

/-- Two drains of one subscriber handle the same event: the second one between the read and the handler
call of the first. -/
def racingDrains : List (PoolAction PollCall PollAnswer Empty) :=
  [.spawn 0 (.append Sqlite.firstAppend.2), .step 0 smoothly,
    .spawn 1 (.drain mailPoller 1), .step 1 smoothly, .step 1 smoothly,
    .spawn 2 (.drain mailPoller 1), .step 2 smoothly, .step 2 smoothly, .step 2 smoothly,
    .step 2 smoothly, .step 1 smoothly, .step 1 smoothly]

/-- The event was handled before the checkpoint was moved onto it. -/
theorem handled_up_to_stored_checkpoint_racing :
    ∃ P, runActions (polling storeText 0).step (Pool.start .fresh) racingDrains = some P ∧
      P.shared.checkpoints (str "mail") = some 1 ∧
      ∃ r ∈ P.shared.db.events.rows, ∃ batch, (str "mail", batch) ∈ P.shared.handled ∧
        ∃ e ∈ batch, Sqlite.scanEnvelope storeText r = .ok e := by
  refine exists_run_of (fun P => P.shared.checkpoints (str "mail") = some 1 ∧
    ∃ r ∈ P.shared.db.events.rows, r.globalPosition ≤ 1) (by decide +kernel) ?_
  rintro P hrun ⟨hstored, r, hr, hle⟩
  exact ⟨hstored, r, hr, handled_up_to_stored_checkpoint hrun _ _ hstored r hr hle⟩

end EsLite.Delivery
