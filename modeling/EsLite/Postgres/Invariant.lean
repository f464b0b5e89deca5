import EsLite.Postgres.Effects

/-!
# What every statement keeps

`Inv` holds in every state of every run: the transactions are in order, and a stored fence fences the
bound it was stored with. Every statement keeps it and goes up in `Mvcc.Le`; the two that need a
reason are the draw of a position, allowed only under an id, and the storing of a fence. Appends give
the first reason (`wp_appendOwn`, `wp_callerTx`): the transaction id is the first thing they draw.
-/

namespace EsLite.Postgres

open Prog (perform ofResult issues_perform)

/-! ## The invariant -/

/-- A bound that `r` fences. Before the first draw the sequence reports 1, a position that nobody has
drawn: such a bound needs no fence, since a page that ends there has seen the row at 1. -/
def FencedBound (db : Mvcc Envelope) (l r : Nat) : Prop := l ≤ 1 ∨ db.Fenced l r

/-- What holds in every reachable state. -/
structure Inv (s : State) : Prop where
  valid : s.events.Valid clash
  drawn_lt : s.events.drawn < 2 ^ 63
  fence : s.fenceR ≠ 0 → FencedBound s.events s.boundL s.fenceR

/-- A fresh database satisfies the invariant. -/
theorem inv_fresh (now : Time) : Inv (State.fresh now) :=
  ⟨Mvcc.valid_empty clash, Nat.two_pow_pos 63, fun h => absurd rfl h⟩

/-- A bound stays fenced. -/
theorem FencedBound.mono {db db' : Mvcc Envelope} {l r : Nat} (h : FencedBound db l r)
    (hle : db.Le db') : FencedBound db' l r :=
  h.imp_right (fun h => h.mono hle)

/-- The state satisfies the invariant and is reached by going up. -/
structure Advances (s s' : State) : Prop where
  inv : Inv s'
  le : s.events.Le s'.events

variable {s s' : State} {o : Op} {O : Op → Prop} {R : Res o → State → Prop} {ops : List ConstraintOp}
  {stream : Bytes}

/-- Nothing happens. -/
theorem Advances.refl (h : Inv s) : Advances s s := ⟨h, .refl _⟩

/-- One thing after the other. -/
theorem Advances.trans {t u : State} (hst : Advances s t) (htu : Advances t u) : Advances s u :=
  ⟨htu.inv, hst.le.trans htu.le⟩

/-- A step that leaves the stored fence alone. -/
theorem Inv.advances (h : Inv s) (hvalid : s'.events.Valid clash) (hle : s.events.Le s'.events)
    (hdrawn : s'.events.drawn < 2 ^ 63) (hl : s'.boundL = s.boundL) (hr : s'.fenceR = s.fenceR) :
    Advances s s' := by
  refine ⟨⟨hvalid, hdrawn, fun h0 => ?_⟩, hle⟩
  rw [hl, hr]
  exact (h.fence (hr ▸ h0)).mono hle

/-- A step that leaves the events alone, too. -/
theorem Inv.advances_of_events_eq (h : Inv s) (he : s'.events = s.events) (hl : s'.boundL = s.boundL)
    (hr : s'.fenceR = s.fenceR) : Advances s s' :=
  h.advances (he ▸ h.valid) (he ▸ .refl _) (he ▸ h.drawn_lt) hl hr

/-- An abort keeps the invariant. -/
theorem Inv.abort (h : Inv s) (t : Nat) : Advances s (s.abort t) :=
  h.advances (Mvcc.valid_abort clash_comm h.valid t) (Mvcc.le_abort t) h.drawn_lt rfl rfl

/-- A commit keeps the invariant. -/
theorem Inv.commit (h : Inv s) (t : Nat) : Advances s (s.commit t) :=
  h.advances (Mvcc.valid_commit clash_comm h.valid t) (Mvcc.le_commit h.valid t) h.drawn_lt rfl rfl

/-! ## Statements -/

/-- The calls that need no reason. -/
def Op.plain : Op → Prop
  | .nextval _ | .writeFence .. => False
  | _ => True

/-- The reason for a call: a position is drawn under an id, and a fence that is stored fences its
bound. -/
def Op.Reason (s : State) : Op → Prop
  | .nextval t => t ∈ s.events.opened → s.events.HasXid t
  | .writeFence l r => r ≠ 0 → FencedBound s.events l r
  | _ => True

/-- A plain call needs no reason. -/
theorem Op.plain.reason (ho : o.plain) (s : State) : o.Reason s := by
  cases o <;> first | exact trivial | exact ho.elim

/-- What is written for a reason advances. -/
theorem wrote_advances (hs : Inv s) (ho : o.Reason s) (h : Wrote s o s') : Advances s s' := by
  cases h with
  | nothing => exact .refl hs
  | began => exact hs.advances (Mvcc.valid_openTx hs.valid) Mvcc.le_openTx hs.drawn_lt rfl rfl
  | xid ht =>
    rename_i t
    have hdrawn : (s.events.assignXid t).1.drawn = s.events.drawn := by
      rcases Mvcc.assignXid_cases t s.events with ⟨x, -, heq⟩ | ⟨-, heq⟩ <;> rw [heq]
    exact hs.advances (Mvcc.valid_assignXid hs.valid ht) (Mvcc.le_assignXid hs.valid t)
      (hdrawn ▸ hs.drawn_lt) rfl rfl
  | drew ht hlt =>
    exact hs.advances (Mvcc.valid_draw hs.valid ht (ho ht)) (Mvcc.le_draw _) hlt rfl rfl
  | inserted ht hdb =>
    rename_i t p e db
    have hdrawn : db.drawn = s.events.drawn := by
      rcases Mvcc.insert_cases hdb with ⟨-, rfl⟩ | ⟨-, -, -, rfl⟩ <;> rfl
    exact hs.advances (Mvcc.valid_insert clash_comm hs.valid hdb) (Mvcc.le_insert hdb)
      (hdrawn ▸ hs.drawn_lt) rfl rfl
  | released c ht => exact hs.advances_of_events_eq rfl rfl rfl
  | claimed c ht => exact hs.advances_of_events_eq rfl rfl rfl
  | locked => exact hs.advances_of_events_eq rfl rfl rfl
  | unlocked => exact hs.advances_of_events_eq rfl rfl rfl
  | fenced l r => exact ⟨⟨hs.valid, hs.drawn_lt, ho⟩, .refl _⟩

/-- **Every call made for a reason advances.** -/
theorem exec_advances {c : Choice} {r : Res o} (hs : Inv s) (h : exec o c s = some (s', r))
    (ho : o.Reason s) : Advances s s' := by
  cases exec_effect h with
  | wrote hw => exact wrote_advances hs ho hw
  | aborted ht hw =>
    have hadv := wrote_advances hs ho hw
    exact hadv.trans (hadv.inv.abort _)
  | committed => exact hs.commit _

/-- What the environment does keeps the invariant. -/
theorem envStep_advances {e : EnvStep} (hs : Inv s) (h : envStep e s = some s') : Advances s s' := by
  cases e with
  | advance ns =>
    cases h
    exact hs.advances_of_events_eq rfl rfl rfl
  | kill t =>
    cases h
    exact hs.abort t

/-! ## The logic of the store -/

/-- What the programs of the store rely on: the invariant, and that everyone goes up. -/
def storeLogic (allowed : Op → State → Prop) : Logic State Op where
  inv := Inv
  le s t := s.events.Le t.events
  allowed := allowed
  refl s := .refl s.events
  trans _ _ _ := Mvcc.Le.trans

/-- The environment respects every logic of the store. -/
theorem env_respects {allowed : Op → State → Prop} {cap : Int} {ws : Bytes} (e : EnvStep)
    (s s' : State) (hi : (storeLogic allowed).inv s) (h : (postgres cap ws).env e s = some s') :
    (storeLogic allowed).inv s' ∧ (storeLogic allowed).le s s' :=
  have hadv := envStep_advances hi h
  ⟨hadv.inv, hadv.le⟩

/-- A run in which nothing is forbidden. -/
theorem guardedRun_store {cap : Int} {ws : Bytes} {P P' : Pool State Call Op Res Reply}
    {as : List (PoolAction Call Choice EnvStep)}
    (hrun : runActions (postgres cap ws).step P as = some P') :
    GuardedRun (postgres cap ws).step
      (System.Allows (fun _ _ => True) (storeLogic fun _ _ => True).allowed) P as P' :=
  (guardedRun_of_run hrun).mono (fun Q a _ =>
    System.allows_of_forall (fun _ _ => trivial) (fun _ _ => trivial) Q a)

section Rules

open Logic

variable {allowed : Op → State → Prop} {cap : Int} {ws : Bytes} {ε α β : Type} {s : State}

/-- The rule for one call. -/
theorem wp_op (h : ∀ c u u' r, s.events.Le u.events → Inv u → allowed o u → exec o c u = some (u', r) →
      Advances u u' ∧ (storeLogic allowed).Always (R r) u') :
    (storeLogic allowed).WP (postgres cap ws) R (Prog.op o) s :=
  WP.call (fun u hu hi hal c u' r hex =>
    have ⟨hadv, hR⟩ := h c u u' r hu hi hal hex
    ⟨hadv.inv, hadv.le, WP.ret hR⟩)

/-- The rule for one plain call: only its reply matters. -/
theorem wp_plain_op (ho : o.plain)
    (h : ∀ c u u' r, s.events.Le u.events → Inv u → allowed o u → exec o c u = some (u', r) →
      (storeLogic allowed).Always (R r) u') :
    (storeLogic allowed).WP (postgres cap ws) R (Prog.op o) s :=
  wp_op (fun c u u' r hu hi hal hex =>
    ⟨exec_advances hi hex (ho.reason u), h c u u' r hu hi hal hex⟩)

/-- Plain calls need no reason. -/
theorem keeps_plain : (storeLogic allowed).Keeps (postgres cap ws) Op.plain :=
  fun _ ho _ hi _ _ _ _ hex =>
    have hadv := exec_advances hi hex (ho.reason _)
    ⟨hadv.inv, hadv.le⟩

/-- Programs of plain calls need no proof. -/
theorem wp_plain {p : Prog Op Res α} (hp : Prog.Issues Op.plain p) :
    (storeLogic allowed).WP (postgres cap ws) (fun _ _ => True) p s :=
  WP.of_issues keeps_plain hp s

/-- A program of plain calls, and then another one. -/
theorem wp_plain_then {R : β → State → Prop} {p : Pg ε α} {f : α → Pg ε β}
    (hp : Prog.Issues Op.plain p.run) (hf : ∀ a t, s.events.Le t.events → Inv t →
      (storeLogic allowed).WP (postgres cap ws) (OnOk R) (f a).run t) :
    (storeLogic allowed).WP (postgres cap ws) (OnOk R) (p >>= f).run s :=
  WP.issues_then keeps_plain hp hf

variable {L : Logic State Op}

variable {call : Prog Op Res (Except DbError α)} {wrap : DbError → ε}

/-- The rule for a statement whose wrapped errors all satisfy `E`. -/
theorem wp_stmt_returns {E : ε → Prop} (hE : ∀ e, E (wrap e)) {R : α → State → Prop}
    (h : L.WP (postgres cap ws) (OnOk R) call s) :
    L.WP (postgres cap ws) (Returns E R) (stmt wrap call).run s := by
  refine WP.map (h.weaken (fun r t _ _ hr => ?_))
  cases r with
  | ok a => exact hr
  | error e => exact hE e

/-- The rule for a statement: wrapping its error changes nothing else. -/
theorem wp_stmt {R : α → State → Prop} (h : L.WP (postgres cap ws) (OnOk R) call s) :
    L.WP (postgres cap ws) (OnOk R) (stmt wrap call).run s :=
  wp_stmt_returns (fun _ => trivial) h

/-- The rule for a statement whose errors tell something about the state. -/
theorem wp_stmt_ends {E : State → Prop} {R : α → State → Prop}
    (h : L.WP (postgres cap ws) (Ends (fun _ => E) R) call s) :
    L.WP (postgres cap ws) (Ends (fun _ => E) R) (stmt wrap call).run s := by
  refine WP.map (h.weaken (fun r t _ _ hr => ?_))
  cases r <;> exact hr

/-- The rule for a call that cannot fail. -/
theorem wp_perform (h : L.WP (postgres cap ws) R (Prog.op o) s) :
    L.WP (postgres cap ws) (OnOk R) (perform (ε := ε) o).run s :=
  WP.map (Q := OnOk R) (f := Except.ok) h

/-- The same, where an error would tell about the state. -/
theorem wp_perform_ends {E : ε → State → Prop} (h : L.WP (postgres cap ws) R (Prog.op o) s) :
    L.WP (postgres cap ws) (Ends E R) (perform (ε := ε) o).run s :=
  WP.map (Q := Ends E R) (f := Except.ok) h

/-- The rule for a result. -/
theorem wp_pure {E : ε → Prop} {R : α → State → Prop} {a : α} (h : L.Always (R a) s) :
    L.WP (postgres cap ws) (Returns E R) (pure a : Pg ε α).run s :=
  WP.ret h

/-- The rule for a computation without calls. -/
theorem wp_ofResult {R : α → State → Prop} {r : Except ε α} (h : ∀ a, r = .ok a → L.Always (R a) s) :
    L.WP (postgres cap ws) (OnOk R) (ofResult r).run s :=
  WP.ofResult h

/-- The deferred rollback keeps what the body established, where a rollback needs no reason. -/
theorem wp_rollbackAfter_of (hO : L.Keeps (postgres cap ws) O) {t : Nat} (ht : O (.rollback t))
    {Q : Except ε α → State → Prop} {body : Pg ε α} (h : L.WP (postgres cap ws) Q body.run s) :
    L.WP (postgres cap ws) Q (rollbackAfter t body).run s := by
  refine WP.bind_always h (fun r u _ _ hr => ?_)
  exact WP.bind_always (WP.of_issues hO (.op ht) u)
    (fun _ v huv _ _ => WP.ret (hr.mono huv))

/-- The deferred rollback keeps what the body established. -/
theorem wp_rollbackAfter {Q : Except ε α → State → Prop} {body : Pg ε α} {t : Nat}
    (h : (storeLogic allowed).WP (postgres cap ws) Q body.run s) :
    (storeLogic allowed).WP (postgres cap ws) Q (rollbackAfter t body).run s :=
  wp_rollbackAfter_of keeps_plain trivial h

/-- The calls of a statement. -/
theorem issues_stmt (h : Prog.Issues O call) : Prog.Issues O (stmt wrap call).run :=
  h.bind (fun _ => trivial)

end Rules

/-! ## Appends -/

section Appends

open Logic

variable {allowed : Op → State → Prop} {cap : Int} {ws ws' : Bytes} {s : State} {p : AppendParams}
  {t : Nat}

/-- The transaction has its id from the first statement on. -/
theorem wp_currentXid {ε : Type} {wrap : DbError → ε} :
    (storeLogic allowed).WP (postgres cap ws) (OnOk (fun _ u => u.events.HasXid t))
      (stmt wrap (Prog.op (Op.currentXid t))).run s := by
  refine wp_stmt (wp_plain_op (by trivial) (fun c u u' r _ hi _ hex => ?_))
  cases r with
  | error e => exact fun _ _ _ => trivial
  | ok x =>
    obtain ⟨ht, hx⟩ := statement_ok hex
    cases hx
    exact fun v hv _ => hv.hasXid t (Mvcc.hasXid_assignXid hi.valid ht)

/-- A draw needs the id of its transaction. -/
theorem wp_insertRow {e : Envelope} (hx : (storeLogic allowed).Always (fun u => u.events.HasXid t) s) :
    (storeLogic allowed).WP (postgres cap ws) (OnOk (fun _ _ => True)) (insertRow t e).run s := by
  refine WP.andThen (R := fun _ _ => True) (wp_stmt (wp_op (fun c u u' r hu hi _ hex => ⟨?_, ?_⟩)))
    (fun gp u _ _ _ => ?_)
  · exact exec_advances hi hex (fun _ => hx u hu hi)
  · intro _ _ _
    cases r <;> exact trivial
  · exact wp_plain_then (issues_stmt (.op trivial))
      (fun _ _ _ _ => wp_pure (fun _ _ _ => trivial))

/-- Releasing claims only deletes rows of claims. -/
theorem issues_releaseClaims (hO : ∀ c, O (.deleteClaim t c)) :
    Prog.Issues O (releaseClaims ws' stream t ops).run := by
  induction ops with
  | nil => exact trivial
  | cons o os ih =>
    rw [releaseClaims]
    split
    · exact .bindExcept (issues_stmt (.op (hO _))) (fun _ => ih)
    · exact ih

/-- Making claims only inserts rows of claims. -/
theorem issues_insertClaims (hO : ∀ c, O (.insertClaim t c)) :
    Prog.Issues O (insertClaims ws' stream t ops).run := by
  induction ops with
  | nil => exact trivial
  | cons o os ih =>
    rw [insertClaims]
    split
    · exact .bindExcept (issues_stmt (.op (hO _))) (fun _ => ih)
    · exact ih

/-- The calls of the uniqueness operations. -/
theorem issues_applyClaims (hdelete : ∀ c, O (.deleteClaim t c)) (hinsert : ∀ c, O (.insertClaim t c)) :
    Prog.Issues O (applyClaims ws' stream t ops).run :=
  (issues_releaseClaims hdelete).bindExcept (fun _ => issues_insertClaims hinsert)

/-- Drawing an event id. -/
theorem issues_eventID (hO : O .newV7) {ev : EventData} : Prog.Issues O (eventID ev).run := by
  unfold eventID
  split
  · exact issues_perform hO
  · exact trivial

/-- Reading the clock for the time of the events. -/
theorem issues_occurredAt (hO : O .timeNow) : Prog.Issues O (occurredAt p).run := by
  unfold occurredAt
  split
  · exact issues_perform hO
  · exact trivial

/-- The loop over the events, in a transaction that has its xid. -/
theorem wp_insertEvents {occurred recorded : Time} {version : UInt64} {prev : Digest}
    {evs : List EventData} (hx : (storeLogic allowed).Always (fun u => u.events.HasXid t) s) :
    (storeLogic allowed).WP (postgres cap ws) (OnOk (fun _ _ => True))
      (insertEvents ws' p t occurred recorded version prev evs).run s := by
  induction evs generalizing version prev s with
  | nil => exact wp_pure (fun _ _ _ => trivial)
  | cons ev evs ih =>
    refine wp_plain_then (issues_eventID trivial) (fun id u hu _ => ?_)
    refine WP.andThen (wp_insertRow (hx.mono hu)) (fun gp v hv _ _ => ?_)
    exact WP.andThen (ih ((hx.mono hu).mono hv))
      (fun _ _ _ _ _ => wp_pure (fun _ _ _ => trivial))

/-- **Appends advance**: every position is drawn under an id. -/
theorem wp_append :
    (storeLogic allowed).WP (postgres cap ws) (OnOk (fun _ _ => True)) (append cap ws' p t).run s := by
  refine wp_plain_then trivial (fun _ _ _ _ => ?_)
  refine WP.andThen wp_currentXid (fun _ s₁ _ _ hx => ?_)
  refine wp_plain_then (issues_occurredAt trivial) (fun occurred s₂ h₂ _ => ?_)
  refine wp_plain_then (Prog.Issues.bindExcept (issues_stmt (.op trivial))
    (fun _ => trivial)) (fun head s₃ h₃ _ => ?_)
  refine wp_plain_then trivial (fun _ s₄ h₄ _ => ?_)
  refine wp_plain_then (issues_stmt (.op trivial)) (fun recorded s₅ h₅ _ => ?_)
  refine WP.andThen (wp_insertEvents ((((hx.mono h₂).mono h₃).mono h₄).mono h₅))
    (fun envs _ _ _ _ => ?_)
  exact wp_plain_then (issues_applyClaims (fun _ => trivial) (fun _ => trivial))
    (fun _ _ _ _ => wp_pure (fun _ _ _ => trivial))

/-- An append in a transaction of the caller. -/
theorem wp_appendTx :
    (storeLogic allowed).WP (postgres cap ws) (OnOk (fun _ _ => True)) (appendTx cap ws' p t).run s := by
  refine wp_plain_then trivial (fun _ _ _ _ => ?_)
  exact wp_plain_then (issues_stmt (.op trivial)) (fun _ _ _ _ => wp_append)

/-- An append in a transaction of its own. -/
theorem wp_appendOwn :
    (storeLogic allowed).WP (postgres cap ws) (OnOk (fun _ _ => True)) (appendOwn cap ws' p).run s := by
  refine wp_plain_then trivial (fun _ _ _ _ => ?_)
  refine wp_plain_then (issues_stmt (.op trivial)) (fun t _ _ _ => ?_)
  refine wp_rollbackAfter (wp_plain_then (issues_stmt (.op trivial))
    (fun _ _ _ _ => WP.andThen wp_append (fun res _ _ _ _ => ?_)))
  exact wp_plain_then (issues_stmt (.op trivial))
    (fun _ _ _ _ => wp_pure (fun _ _ _ => trivial))

/-- The steps of a caller. -/
theorem wp_callerSteps {steps : List CallerStep} :
    (storeLogic allowed).WP (postgres cap ws) (fun _ _ => True) (callerSteps cap t steps) s := by
  induction steps generalizing s with
  | nil => exact wp_plain trivial
  | cons step steps ih =>
    cases step with
    | appendTx ws' p => exact WP.bind wp_appendTx (fun _ _ _ _ _ => ih)
    | other =>
      exact WP.bind (wp_plain (.op trivial)) (fun _ _ _ _ _ => ih)

/-- A transaction of a caller. -/
theorem wp_callerTx {steps : List CallerStep} {commits : Bool} :
    (storeLogic allowed).WP (postgres cap ws) (fun _ _ => True) (callerTx cap steps commits) s := by
  refine WP.bind (wp_plain (.op trivial)) (fun r _ _ _ _ => ?_)
  cases r with
  | error e => exact wp_plain trivial
  | ok t =>
    refine WP.bind wp_callerSteps (fun _ _ _ _ _ => wp_plain ?_)
    cases commits with
    | true => exact .bind (.op trivial) (fun _ => trivial)
    | false => exact .op trivial

end Appends

/-! ## Anchor operations -/

/-- The calls of the anchor operations. -/
def Op.anchors : Op → Prop
  | .relayRole | .beginTx | .setConfig _ | .maxPosition .. | .selectHeads .. | .newAnchorID
  | .timeNow | .insertAnchor .. | .commit _ | .rollback _ => True
  | _ => False

/-- The calls of an anchor are plain. -/
theorem Op.anchors.plain (h : o.anchors) : o.plain := by
  cases o <;> first | exact trivial | exact h.elim

/-- The calls of a bypassing transaction are those of an anchor operation when those of its body
are. -/
theorem issues_bypassTx {α : Type} {body : Nat → Pg StoreError α}
    (h : ∀ t, Prog.Issues Op.anchors (body t).run) : Prog.Issues Op.anchors (bypassTx body).run := by
  have hrole : Prog.Issues Op.anchors checkRelayRole.run := by
    refine .bindExcept (issues_stmt (.op trivial)) (fun member => ?_)
    cases member <;> exact trivial
  refine hrole.bindExcept (fun _ => ?_)
  refine .bindExcept (issues_stmt (.op trivial)) (fun t => ?_)
  refine .bind ?_ (fun _ => .bind (.op trivial) (fun _ => trivial))
  exact .bindExcept (issues_stmt (.op trivial)) (fun _ => h t)

/-- The query of the heads. -/
theorem issues_heads {on : HeadsFor} {t upto : Nat} : Prog.Issues Op.anchors (heads on t upto).run :=
  Prog.Issues.bindExcept (issues_stmt (.op trivial)) (fun _ => trivial)

/-- The calls of an anchor. -/
theorem issues_anchor {upto : UInt64} : Prog.Issues Op.anchors (anchor upto).run := by
  refine issues_bypassTx (fun t => ?_)
  have hbound : Prog.Issues Op.anchors (anchorBound upto t).run := by
    unfold anchorBound
    split
    · exact issues_stmt (.op trivial)
    · exact trivial
  refine hbound.bindExcept (fun _ => issues_heads.bindExcept (fun _ => ?_))
  refine .bindExcept (issues_perform trivial) (fun _ => ?_)
  refine .bindExcept (issues_perform trivial) (fun _ => ?_)
  refine .bindExcept (issues_stmt (.op trivial)) (fun _ => ?_)
  exact .bindExcept (issues_stmt (.op trivial)) (fun _ => trivial)

/-- The calls of the check of an anchor. -/
theorem issues_checkAnchor {a : Anchor} : Prog.Issues Op.anchors (checkAnchor a).run :=
  issues_bypassTx (fun _ => issues_heads.bindExcept (fun _ => trivial))

end EsLite.Postgres
