import EsLite.Projection.Runner

/-!
# What a buffered marker holds

A `BufferedMarker` has a position for each projection: the pending one, or else the one that the inner
marker keeps. A flush moves positions from the one place to the other, in any order, and may stop halfway:
what is held stays. `Load` returns what is held. A `Save` raises what is pending; but once nothing is
pending it writes its position over the durable one, whatever that was.

`bufferedMarker_never_rewinds_iff`: what is loaded is not below what was saved before, exactly in the runs
in which no such `Save` goes back.
-/

namespace EsLite.Projection

open Prog (perform ofResult)
open Logic

/-- **What is held** for a projection: the pending position, or else the durable one. -/
def RunState.held (s : RunState) (projection : Bytes) : UInt64 :=
  (s.buffer.pending.lookup projection).getD (s.durable projection)

/-- What is held stays, and so does everything outside the marker; a durable position stays, or becomes
what is held. -/
structure HeldLe (s t : RunState) : Prop where
  held : t.held = s.held
  durable : ∀ q, t.durable q = s.durable q ∨ t.durable q = s.held q
  frame : MarkerLe s t

theorem HeldLe.refl (s : RunState) : HeldLe s s := ⟨rfl, fun _ => .inl rfl, .refl s⟩

theorem HeldLe.trans {s t u : RunState} (h : HeldLe s t) (h' : HeldLe t u) : HeldLe s u where
  held := h'.held.trans h.held
  durable q := by
    rw [← h.held]
    obtain hq | hq := h'.durable q
    · rw [hq, h.held]
      exact h.durable q
    · exact .inr hq
  frame := h.frame.trans h'.frame

/-- What flushing and loading keep. -/
def heldLogic : Logic RunState RunOp where
  inv _ := True
  le := HeldLe
  allowed _ _ := True
  refl := .refl
  trans _ _ _ := .trans

/-- What saving keeps. -/
def frameLogic : Logic RunState RunOp where
  inv _ := True
  le := MarkerLe
  allowed _ _ := True
  refl := .refl
  trans _ _ _ := .trans

/-- Steps of a process of which some may be ruled out, and in which the inner marker fails to save only
with errors of `E`. -/
structure Saving (log : EventLog) (exec : (o : RunOp) → RunAnswer → RunState → Option (RunState × RunRes o))
    (E : Bytes → Prop) : Prop where
  step : ∀ o x s y, exec o x s = some y → execRun log o x s = some y
  fails : ∀ key pos x s t err, exec (.saveInner key pos) x s = some (t, Except.error err) → E err

section Held

variable {log : EventLog} {exec : (o : RunOp) → RunAnswer → RunState → Option (RunState × RunRes o)}
  {E : Bytes → Prop} {s t : RunState} {projection key : Bytes} {pos : UInt64} {b : Buffer}

theorem held_of_pending (h : s.buffer.pending.lookup projection = some pos) : s.held projection = pos := by
  rw [RunState.held, h]
  rfl

theorem held_of_none (h : s.buffer.pending.lookup projection = none) :
    s.held projection = s.durable projection := by
  rw [RunState.held, h]
  rfl

/-- A buffer from which the same is read. -/
theorem heldLe_setBuffer (h : ∀ q, (b.pending.lookup q).getD (s.durable q) = s.held q) :
    HeldLe s { s with buffer := b } :=
  ⟨funext h, fun _ => .inl rfl, ⟨rfl, rfl, rfl, rfl, rfl⟩⟩

/-- A pending position that is saved is held as before. -/
theorem heldLe_saveInner (h : s.buffer.pending.lookup key = some pos) :
    HeldLe s { s with durable := Function.update s.durable key pos } := by
  refine ⟨funext fun q => ?_, fun q => ?_, ⟨rfl, rfl, rfl, rfl, rfl⟩⟩
  · by_cases hq : q = key
    · subst hq
      rw [held_of_pending h]
      exact held_of_pending h
    · change (s.buffer.pending.lookup q).getD (Function.update s.durable key pos q) = _
      rw [Function.update_of_ne hq]
      rfl
  · change Function.update s.durable key pos q = _ ∨ Function.update s.durable key pos q = _
    by_cases hq : q = key
    · subst hq
      rw [Function.update_self, held_of_pending h]
      exact .inr rfl
    · rw [Function.update_of_ne hq]
      exact .inl rfl

/-- A position that is durable needs not be pending. -/
theorem heldLe_erase (h : s.buffer.pending.lookup key = some (s.durable key)) :
    HeldLe s { s with buffer := { s.buffer with pending := s.buffer.pending.erase key } } := by
  refine heldLe_setBuffer fun q => ?_
  by_cases hq : q = key
  · subst hq
    rw [AList.lookup_erase, held_of_pending h]
    rfl
  · rw [AList.lookup_erase_ne hq]
    rfl

section Saving

variable (hexec : Saving log exec E)

include hexec

theorem held_buffer :
    heldLogic.Alone exec (Returns E fun (b : Buffer) t => t = s ∧ b = s.buffer)
      (perform RunOp.buffer : RunAct Bytes _).run s := by
  refine Alone.perform fun x t b hex => ?_
  cases hexec.step _ _ _ _ hex
  exact ⟨trivial, heldLogic.refl s, rfl, rfl⟩

theorem held_setBuffer (h : ∀ q, (b.pending.lookup q).getD (s.durable q) = s.held q) :
    heldLogic.Alone exec (Returns E fun _ t => t = { s with buffer := b })
      (perform (RunOp.setBuffer b) : RunAct Bytes _).run s := by
  refine Alone.perform fun x t res hex => ?_
  cases hexec.step _ _ _ _ hex
  exact ⟨trivial, heldLe_setBuffer h, rfl⟩

/-- Only the triggers change. -/
theorem held_setTriggers (h : b.pending = s.buffer.pending) :
    heldLogic.Alone exec (Returns E fun _ t => t.buffer.pending = s.buffer.pending)
      (perform (RunOp.setBuffer b) : RunAct Bytes _).run s := by
  refine Alone.perform fun x t res hex => ?_
  cases hexec.step _ _ _ _ hex
  exact ⟨trivial, heldLe_setBuffer fun q => by rw [h, RunState.held], h⟩

/-- **A save by the inner marker** of a pending position: it is durable, or has failed. -/
theorem held_saveInner (h : s.buffer.pending.lookup key = some pos) :
    heldLogic.Alone exec
      (Returns E fun _ t => t = { s with durable := Function.update s.durable key pos })
      (saveInner key pos).run s := by
  refine Alone.andThen (R := fun (res : Except Bytes Unit) t =>
      Returns E (fun _ t => t = { s with durable := Function.update s.durable key pos }) res t)
    (Alone.perform fun x t res hex => ?_) trivial (fun res t _ _ hres => Alone.ofReply hres)
  cases hexec.step _ _ _ _ hex
  refine ⟨trivial, ?_, ?_⟩
  · split
    · exact heldLe_saveInner h
    · exact heldLogic.refl s
  · cases hfault : x.fault with
    | none =>
      simp only [RunAnswer.reply, hfault]
      exact if_pos rfl
    | some err =>
      simp only [RunAnswer.reply, hfault] at hex ⊢
      exact hexec.fails key pos x s _ err hex

/-- **The loop of a flush** over everything that is pending, in any order: at its end nothing is. -/
theorem held_flushPending (order : List (Sigma fun _ : Bytes => UInt64))
    (horder : order.Perm s.buffer.pending.entries) :
    heldLogic.Alone exec (Returns E fun _ t => t.buffer.pending.entries = []) (flushPending order).run s := by
  induction order generalizing s with
  | nil => exact horder.nil_eq.symm
  | cons x rest ih =>
    have hlookup : s.buffer.pending.lookup x.1 = some x.2 :=
      AList.mem_lookup_iff.mpr (horder.subset List.mem_cons_self)
    refine Alone.andThen (held_saveInner hexec hlookup) trivial fun _ t _ _ ht => ?_
    subst ht
    refine Alone.andThen (held_buffer hexec) trivial fun b u _ _ hb => ?_
    obtain ⟨rfl, rfl⟩ := hb
    have hdurable : Function.update s.durable x.1 x.2 x.1 = x.2 := Function.update_self x.1 x.2 s.durable
    refine Alone.andThen (held_setBuffer hexec fun q => congrFun (heldLe_erase ?_).held q) trivial
      fun _ v _ _ hv => ?_
    · exact hlookup.trans (congrArg some hdurable.symm)
    · subst hv
      -- the entry that was saved is the one that is dropped from the map
      refine ih ?_
      have hrest := horder.kerase (a := x.1) ((List.perm_nodupKeys horder).mpr s.buffer.pending.nodupKeys)
      rw [List.kerase_cons_eq rfl] at hrest
      exact hrest

/-- The end of a flush. -/
theorem held_resetTriggers (h : s.buffer.pending.entries = []) :
    heldLogic.Alone exec (Returns E fun _ t => t.buffer.pending.entries = [])
      (perform (RunOp.setBuffer { s.buffer with count := 0, firstDirty := .zero }) : RunAct Bytes _).run s :=
  (held_setTriggers (b := { s.buffer with count := 0, firstDirty := .zero }) hexec rfl).returns
    (fun _ herr => herr) (fun _ t ht => by rw [ht, h])

/-- **A flush** keeps what is held, and leaves nothing pending unless it fails. -/
theorem held_flush :
    heldLogic.Alone exec (Returns E fun _ t => t.buffer.pending.entries = []) flush.run s := by
  refine Alone.andThen (held_buffer hexec) trivial fun b t _ _ hb => ?_
  obtain ⟨rfl, rfl⟩ := hb
  refine Alone.ite (fun hempty => ?_) (fun _ => ?_)
  · exact held_resetTriggers hexec (List.isEmpty_iff.mp hempty)
  · refine Alone.andThen (R := fun (order : List (Sigma fun _ : Bytes => UInt64)) u =>
      u = t ∧ order.Perm t.buffer.pending.entries) (Alone.perform fun x u order hex => ?_) trivial
      fun order u _ _ horder => ?_
    · have hex := hexec.step _ _ _ _ hex
      simp only [execRun] at hex
      split at hex
      · rename_i hperm
        cases hex
        exact ⟨trivial, heldLogic.refl _, rfl, List.isPerm_iff.mp hperm⟩
      · cases hex
    · obtain ⟨rfl, hperm⟩ := horder
      refine Alone.andThen (held_flushPending hexec order hperm) trivial fun _ v _ _ hv => ?_
      refine Alone.andThen (held_buffer hexec) trivial fun b w _ _ hb => ?_
      obtain ⟨rfl, rfl⟩ := hb
      exact held_resetTriggers hexec hv

theorem held_loadInner
    (hload : ∀ x s t err, exec (.loadInner projection) x s = some (t, Except.error err) → E err) :
    heldLogic.Alone exec (Returns E fun pos _ => pos = s.durable projection)
      (loadInner projection).run s := by
  refine Alone.andThen (R := fun (res : Except Bytes UInt64) t =>
      Returns E (fun pos _ => pos = s.durable projection) res t)
    (Alone.perform fun x t res hex => ?_) trivial (fun res t _ _ hres => Alone.ofReply hres)
  cases hexec.step _ _ _ _ hex
  refine ⟨trivial, heldLogic.refl s, ?_⟩
  cases hfault : x.fault with
  | none =>
    simp only [RunAnswer.reply, hfault]
    rfl
  | some err =>
    simp only [RunAnswer.reply, hfault] at hex ⊢
    exact hload x s _ err hex

/-- **What is loaded is what is held.** -/
theorem held_load
    (hload : ∀ x s t err, exec (.loadInner projection) x s = some (t, Except.error err) → E err)
    (m : BufferedMarker) :
    heldLogic.Alone exec (Returns E fun pos _ => pos = s.held projection) (m.load projection).run s := by
  refine Alone.andThen (held_buffer hexec) trivial fun b t _ _ hb => ?_
  obtain ⟨rfl, rfl⟩ := hb
  refine Alone.andThen (held_flush hexec) trivial fun _ u hle _ hu => ?_
  refine Alone.andThen (held_loadInner hexec hload) trivial fun got v _ _ hgot => ?_
  -- nothing is pending any more, so the inner marker has what was held
  have hnone : u.buffer.pending.lookup projection = none := by
    rw [AList.lookup, hu, List.dlookup_nil]
  rw [hgot, ← held_of_none hnone, hle.held]
  change (if _ then _ else _) = _
  split
  · rename_i hlt
    cases hpending : t.buffer.pending.lookup projection with
    | none =>
      rw [hpending] at hlt
      exact absurd hlt (UInt64.not_lt.mpr UInt64.zero_le)
    | some pos => exact (held_of_pending hpending).symm
  · rfl

/-- Counting a save does not change what is held. -/
theorem held_countSave (m : BufferedMarker) :
    heldLogic.Alone exec (Returns E fun _ _ => True) m.countSave.run s := by
  refine Alone.andThen (R := fun _ t => t = s) (Alone.perform fun x t now hex => ?_) trivial
    fun now t _ _ ht => ?_
  · cases hexec.step _ _ _ _ hex
    exact ⟨trivial, heldLogic.refl _, rfl⟩
  · subst ht
    refine Alone.andThen (held_buffer hexec) trivial fun b u _ _ hb => ?_
    obtain ⟨rfl, rfl⟩ := hb
    refine Alone.andThen (held_setTriggers hexec ?_) trivial fun _ v _ _ _ => ?_
    · rfl
    · exact Alone.ite (fun _ => (held_flush hexec).returns (fun _ h => h) fun _ _ _ => trivial)
        (fun _ => trivial)

end Saving

/-- What is held for a projection after a `Save`: the higher position while one is pending, and otherwise
the new one, unless that is zero. -/
def RunState.heldAfter (s : RunState) (projection : Bytes) (position : UInt64) : UInt64 :=
  if (s.buffer.pending.lookup projection).getD 0 < position then position else s.held projection

theorem heldAfter_of_none (h : s.buffer.pending.lookup projection = none) (hpos : pos ≠ 0) :
    s.heldAfter projection pos = pos := by
  rw [RunState.heldAfter, h]
  exact if_pos (UInt64.pos_iff_ne_zero.mpr hpos)

theorem heldAfter_zero : s.heldAfter projection 0 = s.held projection :=
  if_neg (UInt64.not_lt.mpr UInt64.zero_le)

/-- What was saved last is covered. -/
theorem le_heldAfter : pos ≤ s.heldAfter projection pos := by
  unfold RunState.heldAfter
  split
  · exact UInt64.le_refl pos
  · rename_i hle
    have hle := UInt64.not_lt.mp hle
    cases h : s.buffer.pending.lookup projection with
    | none =>
      rw [h] at hle
      exact UInt64.le_trans hle UInt64.zero_le
    | some prev =>
      rw [h] at hle
      rw [held_of_pending h]
      exact hle

/-- While a position is pending, what is held goes up. -/
theorem held_le_heldAfter {prev : UInt64} (h : s.buffer.pending.lookup projection = some prev) :
    s.held projection ≤ s.heldAfter projection pos := by
  unfold RunState.heldAfter
  split
  · rename_i hlt
    rw [h] at hlt
    rw [held_of_pending h]
    exact UInt64.le_of_lt hlt
  · exact UInt64.le_refl _

/-- A position that is made pending. -/
theorem held_insert : RunState.held
      { s with buffer := { s.buffer with pending := s.buffer.pending.insert projection pos } } =
    Function.update s.held projection pos := by
  funext q
  by_cases hq : q = projection
  · subst hq
    rw [Function.update_self]
    exact held_of_pending (AList.lookup_insert s.buffer.pending)
  · rw [Function.update_of_ne hq]
    change ((s.buffer.pending.insert projection pos).lookup q).getD _ = _
    rw [AList.lookup_insert_ne hq]
    rfl

/-- What a save can change: a durable position becomes what was held, or what is saved. -/
structure SaveLe (projection : Bytes) (pos : UInt64) (s t : RunState) : Prop where
  durable : ∀ q, t.durable q = s.durable q ∨ t.durable q = s.held q ∨ q = projection ∧ t.durable q = pos
  frame : MarkerLe s t

theorem SaveLe.of_held (h : HeldLe s t) : SaveLe projection pos s t :=
  ⟨fun q => (h.durable q).imp_right .inl, h.frame⟩

theorem SaveLe.of_insert
    (h : HeldLe { s with buffer := { s.buffer with pending := s.buffer.pending.insert projection pos } } t) :
    SaveLe projection pos s t where
  durable q := by
    have hq := h.durable q
    rw [held_insert] at hq
    by_cases hname : q = projection
    · subst hname
      rw [Function.update_self] at hq
      exact hq.imp_right fun hpos => .inr ⟨rfl, hpos⟩
    · rw [Function.update_of_ne hname] at hq
      exact hq.imp_right .inl
  frame := ⟨h.frame.marker, h.frame.loaded, h.frame.startedAt, h.frame.cursor, h.frame.calls⟩

/-- **A save** changes what is held for its projection, and fails only if the inner marker does. The
logic may ask for more of the states in between. -/
theorem held_save (hexec : Saving log exec E) (m : BufferedMarker) (L : Logic RunState RunOp)
    (hinv : ∀ t, SaveLe projection pos s t → L.inv t) (hle : ∀ t u, MarkerLe t u → L.le t u) :
    L.Alone exec
      (fun res t => t.held = Function.update s.held projection (s.heldAfter projection pos) ∧
        SaveLe projection pos s t ∧ Returns E (fun _ _ => True) res t) (m.save projection pos).run s := by
  -- counting the save keeps what is held, also where its flush fails
  have hcount : ∀ u : RunState, (∀ t, HeldLe u t → SaveLe projection pos s t) → L.Alone exec
      (fun res t => t.held = u.held ∧ SaveLe projection pos s t ∧ Returns E (fun _ _ => True) res t)
      m.countSave.run u :=
    fun u hu => ((held_countSave hexec m).liftFrom L (fun t _ h => hinv t (hu t h))
      fun _ _ h => hle _ _ h.frame).weaken fun _ t ht => ⟨ht.2.held, hu t ht.2, ht.1⟩
  refine Alone.performThen fun x t b hex => ?_
  cases hexec.step _ _ _ _ hex
  refine ⟨hinv _ (.of_held (.refl _)), hle _ _ (.refl _), Alone.ite (fun hlt => ?_) (fun hlow => ?_)⟩
  · rw [RunState.heldAfter, if_pos hlt, ← held_insert]
    refine Alone.performThen fun x t _ hex => ?_
    cases hexec.step _ _ _ _ hex
    exact ⟨hinv _ (.of_insert (.refl _)), hle _ _ ⟨rfl, rfl, rfl, rfl, rfl⟩, hcount _ fun t ht => .of_insert ht⟩
  · rw [RunState.heldAfter, if_neg hlow, Function.update_eq_self]
    exact Alone.ite (fun _ => ⟨rfl, .of_held (.refl _), trivial⟩) (fun _ => hcount _ fun t ht => .of_held ht)

end Held

/-! ## Calls of a buffered marker -/

/-- The calls of a marker. -/
inductive MarkerCall : Type where
  | load (projection : Bytes)
  | save (projection : Bytes) (position : UInt64)
  | flush

/-- The program of a call; only `Load` returns a position. -/
def MarkerCall.prog (m : BufferedMarker) : MarkerCall → RunAct Bytes (Option UInt64)
  | .load projection => do
    let pos ← m.load projection
    pure (some pos)
  | .save projection position => do
    m.save projection position
    pure none
  | .flush => do
    Projection.flush
    pure none

/-- A call under the lock of the marker, with the answers to all its steps. -/
def callMarker (m : BufferedMarker) (log : EventLog) (c : MarkerCall) (answers : List RunAnswer)
    (s : RunState) : Option (RunState × Except Bytes (Option UInt64)) :=
  match (c.prog m).run.follow (execRun log) answers s with
  | some (t, .ret res) => some (t, res)
  | _ => none

/-- What is passed to `Save`. -/
def MarkerCall.saves : MarkerCall → List (Bytes × UInt64)
  | .save projection position => [(projection, position)]
  | _ => []

/-- A marker in use, and what was passed to `Save` so far. -/
structure Session where
  state : RunState
  saves : List (Bytes × UInt64)

/-- One call after the other, whether they fail or not. -/
def Session.step (m : BufferedMarker) (log : EventLog) (S : Session) (c : MarkerCall × List RunAnswer) :
    Option Session :=
  (callMarker m log c.1 c.2 S.state).map (fun y => ⟨y.1, c.1.saves ++ S.saves⟩)

/-- **No rewind**: a `Load` that succeeds now, with any answers, returns no less than what was passed to
`Save` before. -/
def Session.NoRewind (m : BufferedMarker) (log : EventLog) (S : Session) : Prop :=
  ∀ projection answers t pos, callMarker m log (.load projection) answers S.state = some (t, .ok (some pos)) →
    ∀ saved, (projection, saved) ∈ S.saves → saved ≤ pos

/-- **Where the marker does not go back**: a `Save` that finds nothing pending for its projection has
position zero, which is ignored, or none below what was saved before. -/
def Advancing (S : Session) : MarkerCall × List RunAnswer → Prop
  | (.save projection position, _) => S.state.buffer.pending.lookup projection = none →
      position = 0 ∨ ∀ x ∈ S.saves, x.1 = projection → x.2 ≤ position
  | _ => True

instance (S : Session) : (a : MarkerCall × List RunAnswer) → Decidable (Advancing S a)
  | (.save _ _, _) => inferInstanceAs (Decidable (_ → _ ∨ ∀ x ∈ S.saves, _))
  | (.load _, _) | (.flush, _) => inferInstanceAs (Decidable True)

section Sessions

variable {m : BufferedMarker} {log : EventLog} {s t : RunState} {S S' : Session}
  {projection : Bytes} {position : UInt64} {answers : List RunAnswer} {c : MarkerCall}
  {res : Except Bytes (Option UInt64)}

/-- All steps, with any failures. -/
theorem saving_execRun (log : EventLog) : Saving log (execRun log) (fun _ => True) :=
  ⟨fun _ _ _ _ h => h, fun _ _ _ _ _ _ _ => trivial⟩

/-- The steps that do not fail. -/
def execFine (log : EventLog) (o : RunOp) (x : RunAnswer) (s : RunState) : Option (RunState × RunRes o) :=
  if x.fault.isNone then execRun log o x s else none

theorem execFine_sub {o : RunOp} {x : RunAnswer} {y : RunState × RunRes o} (h : execFine log o x s = some y) :
    x.fault = none ∧ execRun log o x s = some y := by
  unfold execFine at h
  split at h
  · exact ⟨Option.isNone_iff_eq_none.mp ‹_›, h⟩
  · cases h

theorem reply_ne_error {α : Type} {x : RunAnswer} {a : α} {err : Bytes} (h : x.fault = none) :
    x.reply a ≠ .error err := by
  intro hreply
  rw [RunAnswer.reply, h] at hreply
  cases hreply

theorem saving_execFine (log : EventLog) : Saving log (execFine log) (fun _ => False) where
  step _ _ _ _ h := (execFine_sub h).2
  fails key pos x s t err h := by
    obtain ⟨hfault, hex⟩ := execFine_sub h
    exact reply_ne_error hfault (Prod.mk.inj (Option.some.inj hex)).2

/-- Some answer without a failure is possible in every state. -/
theorem exists_execRun (log : EventLog) (visible : Nat) (o : RunOp) (s : RunState) :
    ∃ x y, x.fault = none ∧ x.visible = visible ∧ execRun log o x s = some y := by
  refine ⟨⟨none, false, ⟨0⟩, s.buffer.pending.entries, visible⟩, ?_⟩
  cases o with
  | rangePending => exact ⟨_, rfl, rfl, if_pos (List.isPerm_iff.mpr (List.Perm.refl _))⟩
  | _ => exact ⟨_, rfl, rfl, rfl⟩

theorem exists_execFine (log : EventLog) (o : RunOp) (s : RunState) :
    ∃ x y, execFine log o x s = some y := by
  obtain ⟨x, y, hfault, -, hex⟩ := exists_execRun log 0 o s
  refine ⟨x, y, ?_⟩
  rw [execFine, hfault]
  exact hex

/-- A call that has returned was followed to its end. -/
theorem follow_of_callMarker (h : callMarker m log c answers s = some (t, res)) :
    (c.prog m).run.follow (execRun log) answers s = some (t, .ret res) := by
  unfold callMarker at h
  split at h
  · cases h
    assumption
  · cases h

theorem callMarker_of_follow (h : (c.prog m).run.follow (execRun log) answers s = some (t, .ret res)) :
    callMarker m log c answers s = some (t, res) := by
  rw [callMarker, h]

/-- **What a load returns** is what is held, and it stays so. -/
theorem callMarker_load (h : callMarker m log (.load projection) answers s = some (t, res)) :
    t.held = s.held ∧ ∀ pos, res = .ok (some pos) → pos = s.held projection := by
  have halone : heldLogic.Alone (execRun log)
      (OnOk fun (pos : Option UInt64) _ => pos = some (s.held projection))
      ((MarkerCall.load projection).prog m).run s :=
    Alone.andThen (held_load (saving_execRun log) (fun _ _ _ _ _ => trivial) m) trivial
      fun pos t _ _ hpos => congrArg some hpos
  obtain ⟨-, hle, hret⟩ := halone.follow trivial (follow_of_callMarker h)
  refine ⟨hle.held, fun pos hpos => ?_⟩
  subst hpos
  exact Option.some.inj hret

theorem callMarker_flush (h : callMarker m log .flush answers s = some (t, res)) : t.held = s.held := by
  have halone : heldLogic.Alone (execRun log) (OnOk fun _ _ => True) (MarkerCall.flush.prog m).run s :=
    Alone.andThen (held_flush (saving_execRun log)) trivial fun _ _ _ _ _ => trivial
  exact (halone.follow trivial (follow_of_callMarker h)).2.1.held

theorem callMarker_save (h : callMarker m log (.save projection position) answers s = some (t, res)) :
    t.held = Function.update s.held projection (s.heldAfter projection position) := by
  have halone : frameLogic.Alone (execRun log)
      (fun _ t => t.held = Function.update s.held projection (s.heldAfter projection position))
      ((MarkerCall.save projection position).prog m).run s := by
    refine Alone.bind (held_save (saving_execRun log) m frameLogic (fun _ _ => trivial) fun _ _ h => h) trivial
      fun res t _ _ ht => ?_
    cases res with
    | ok _ => exact ht.1
    | error err => exact ht.1
  exact (halone.follow trivial (follow_of_callMarker h)).2.2

/-- **A load can succeed** in every state. -/
theorem exists_load (m : BufferedMarker) (log : EventLog) (projection : Bytes) (s : RunState) :
    ∃ answers t, callMarker m log (.load projection) answers s = some (t, .ok (some (s.held projection))) := by
  obtain ⟨answers, t, res, hfollow⟩ := Prog.exists_follow (exists_execFine log)
    ((MarkerCall.load projection).prog m).run s
  have halone : heldLogic.Alone (execFine log)
      (Returns (fun _ => False) fun (pos : Option UInt64) _ => pos = some (s.held projection))
      ((MarkerCall.load projection).prog m).run s := by
    refine Alone.andThen (held_load (saving_execFine log) (fun x s t err hex => ?_) m) trivial
      fun pos t _ _ hpos => congrArg some hpos
    obtain ⟨hfault, hex⟩ := execFine_sub hex
    exact reply_ne_error hfault (Prod.mk.inj (Option.some.inj hex)).2
  have hret := (halone.follow trivial hfollow).2.2
  refine ⟨answers, t, callMarker_of_follow ((Prog.follow_mono (saving_execFine log).step hfollow).trans ?_)⟩
  cases res with
  | ok pos => exact congrArg (fun p => some (t, Prog.ret (Except.ok p))) hret
  | error err => exact hret.elim

/-- There is no rewind exactly if what is held covers what was saved. -/
theorem noRewind_iff : S.NoRewind m log ↔
    ∀ projection saved, (projection, saved) ∈ S.saves → saved ≤ S.state.held projection := by
  constructor
  · intro h projection saved hmem
    obtain ⟨answers, t, hload⟩ := exists_load m log projection S.state
    exact h projection answers t _ hload saved hmem
  · intro h projection answers t pos hload saved hmem
    rw [(callMarker_load hload).2 pos rfl]
    exact h projection saved hmem

/-- **One call**: it leaves what was saved covered exactly if it does not go back. -/
theorem advancing_iff_noRewind {a : MarkerCall × List RunAnswer} (hS : S.NoRewind m log)
    (hstep : S.step m log a = some S') : Advancing S a ↔ S'.NoRewind m log := by
  obtain ⟨c, answers⟩ := a
  obtain ⟨⟨t, res⟩, hcall, rfl⟩ := Option.map_eq_some_iff.mp hstep
  rw [noRewind_iff] at hS ⊢
  cases c with
  | load projection =>
    rw [(callMarker_load hcall).1]
    exact ⟨fun _ => hS, fun _ => trivial⟩
  | flush =>
    rw [callMarker_flush hcall]
    exact ⟨fun _ => hS, fun _ => trivial⟩
  | save projection position =>
    rw [callMarker_save hcall]
    constructor
    · intro hadv q saved hmem
      by_cases hq : q = projection
      · subst hq
        rw [Function.update_self]
        obtain hnow | hbefore := List.mem_append.mp hmem
        · cases List.mem_singleton.mp hnow
          exact le_heldAfter
        · have hcovered := hS q saved hbefore
          cases hpending : S.state.buffer.pending.lookup q with
          | some prev => exact UInt64.le_trans hcovered (held_le_heldAfter hpending)
          | none =>
            obtain rfl | hall := hadv hpending
            · rw [heldAfter_zero]
              exact hcovered
            · exact UInt64.le_trans (hall (q, saved) hbefore rfl) le_heldAfter
      · rw [Function.update_of_ne hq]
        obtain hnow | hbefore := List.mem_append.mp hmem
        · exact absurd (Prod.mk.inj (List.mem_singleton.mp hnow)).1 hq
        · exact hS q saved hbefore
    · intro hcovered hpending
      by_cases hzero : position = 0
      · exact .inl hzero
      · refine .inr fun x hbefore hx => ?_
        subst hx
        have hle := hcovered x.1 x.2 (List.mem_append_right _ hbefore)
        rw [Function.update_self, heldAfter_of_none hpending hzero] at hle
        exact hle

/-- **Where a buffered marker never rewinds.** Take any calls of `Save`, `Load` and `Flush` for any
projections and positions, with any readings of the clock, any order of the flushes, and any failures of
the inner marker. In all states that are gone through a `Load` that succeeds returns no less than what was
passed to `Save` before, exactly if no `Save` that finds nothing pending goes back. -/
theorem bufferedMarker_never_rewinds_iff (m : BufferedMarker) (log : EventLog) (s : RunState)
    {calls : List (MarkerCall × List RunAnswer)} {S : Session}
    (hrun : runActions (Session.step m log) ⟨s, []⟩ calls = some S) :
    GuardedRun (Session.step m log) Advancing ⟨s, []⟩ calls S ↔
      ∀ before after U, calls = before ++ after →
        runActions (Session.step m log) ⟨s, []⟩ before = some U → U.NoRewind m log :=
  guardedRun_iff_forall_inv (fun _ _ _ => advancing_iff_noRewind)
    (fun _ _ _ _ _ _ hmem => absurd hmem List.not_mem_nil) hrun

end Sessions

/-- A call in which nothing fails, with a position that is flushed. -/
def fineCall (c : MarkerCall) (steps : Nat) (flushed : UInt64) : MarkerCall × List RunAnswer :=
  (c, List.replicate steps ⟨none, false, ⟨0⟩, [⟨str "view", flushed⟩], 0⟩)

/-- Position 3 is saved and flushed, and then position 5. -/
def savesUpwards : List (MarkerCall × List RunAnswer) :=
  [fineCall (.save (str "view") 3) 5 0, fineCall .flush 7 3, fineCall (.save (str "view") 5) 5 0]

/-- Going up, the marker has what was saved. -/
theorem bufferedMarker_never_rewinds_upwards :
    ∃ S, runActions (Session.step (newBufferedMarker ⟨0, 0⟩) twoEvents) ⟨.fresh, []⟩ savesUpwards = some S ∧
      S.saves = [(str "view", 5), (str "view", 3)] ∧ S.NoRewind (newBufferedMarker ⟨0, 0⟩) twoEvents := by
  obtain ⟨S, hguarded, hsaves⟩ : ∃ S, GuardedRun (Session.step (newBufferedMarker ⟨0, 0⟩) twoEvents) Advancing
      ⟨.fresh, []⟩ savesUpwards S ∧ S.saves = [(str "view", 5), (str "view", 3)] :=
    exists_guardedRun (by decide +kernel)
  refine ⟨S, hguarded.run, hsaves, ?_⟩
  exact (bufferedMarker_never_rewinds_iff _ _ _ hguarded.run).mp hguarded savesUpwards [] S
    (List.append_nil _).symm hguarded.run

/-- **A flush makes the marker forget.** Position 5 is saved and flushed, and nothing is pending then: a
save of position 3 is not dropped, and what is loaded after it is 3. -/
theorem bufferedMarker_rewinds :
    ∃ S t, runActions (Session.step (newBufferedMarker ⟨0, 0⟩) twoEvents) ⟨.fresh, []⟩
        [fineCall (.save (str "view") 5) 5 0, fineCall .flush 7 5, fineCall (.save (str "view") 3) 5 0] = some S ∧
      (str "view", 5) ∈ S.saves ∧
      callMarker (newBufferedMarker ⟨0, 0⟩) twoEvents (.load (str "view"))
        (fineCall .flush 9 3).2 S.state = some (t, .ok (some 3)) := by
  obtain ⟨S, hrun, hmem, hload⟩ : ∃ S, runActions (Session.step (newBufferedMarker ⟨0, 0⟩) twoEvents)
      ⟨.fresh, []⟩ [fineCall (.save (str "view") 5) 5 0, fineCall .flush 7 5,
        fineCall (.save (str "view") 3) 5 0] = some S ∧ (str "view", 5) ∈ S.saves ∧
      (callMarker (newBufferedMarker ⟨0, 0⟩) twoEvents (.load (str "view"))
        (fineCall .flush 9 3).2 S.state).map (fun y => y.2.toOption) = some (some (some 3)) :=
    exists_run (by decide +kernel)
  obtain ⟨⟨t, res⟩, hcall, hres⟩ := Option.map_eq_some_iff.mp hload
  cases res with
  | error err => cases hres
  | ok pos =>
    cases hres
    exact ⟨S, t, hrun, hmem, hcall⟩

end EsLite.Projection
