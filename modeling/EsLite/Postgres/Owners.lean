import EsLite.Foundation.Ownership
import EsLite.Postgres.NoForks

/-!
# Transactions and their owners

A transaction belongs to the program whose `BEGIN` opened it: every program uses only transactions that
it began (`confined_program`), so what a transaction has written is not touched by others
(`private_transactions`).
-/

namespace EsLite.Postgres

open Prog (perform ofResult issues_perform)

/-! ## Transactions and their owners -/

/-- The transaction that a reply hands out. -/
def begun : (o : Op) → Res o → Option Nat
  | .beginTx, r => Except.toOption r
  | _, _ => none

/-- What the transaction wrote is as it was, unless it has ended. -/
structure Untouched (t : Nat) (s s' : State) : Prop where
  opened : t ∈ s'.events.opened → t ∈ s.events.opened
  rows : t ∈ s'.events.opened → s'.events.ownRows t = s.events.ownRows t
  claims : t ∈ s'.events.opened →
    s'.claimWrites.filter (·.1 = t) = s.claimWrites.filter (·.1 = t)

/-- A transaction is untouched where nothing happens. -/
theorem Untouched.refl (t : Nat) (s : State) : Untouched t s s := ⟨id, fun _ => rfl, fun _ => rfl⟩

/-- What is untouched twice is untouched. -/
theorem Untouched.trans {t : Nat} {s u v : State} (h : Untouched t s u) (h' : Untouched t u v) :
    Untouched t s v :=
  ⟨fun ht => h.opened (h'.opened ht), fun ht => (h'.rows ht).trans (h.rows (h'.opened ht)),
    fun ht => (h'.claims ht).trans (h.claims (h'.opened ht))⟩

/-- The end of another transaction. -/
theorem untouched_abort {t u : Nat} (hne : u ≠ t) (s : State) : Untouched t s (s.abort u) := by
  refine ⟨fun ht => (List.mem_filter.mp ht).1, fun _ => ?_, fun _ => ?_⟩
  · exact (Mvcc.ownRows_finish u t s.events).trans (if_neg (Ne.symm hne))
  · show (s.claimWrites.filter (·.1 ≠ u)).filter (·.1 = t) = _
    rw [List.filter_filter]
    refine List.filter_congr (fun w _ => ?_)
    by_cases hw : w.1 = t
    · simp [hw, Ne.symm hne]
    · simp [hw]

/-- A commit leaves the other transactions alone. -/
theorem untouched_commit {t u : Nat} (hne : u ≠ t) (s : State) : Untouched t s (s.commit u) :=
  ⟨(untouched_abort hne s).opened, (untouched_abort hne s).rows, (untouched_abort hne s).claims⟩

variable {o : Op} {steps : List CallerStep}

/-- **What is written under another name.** -/
theorem untouched_wrote {s s' : State} {t : Nat} (h : Wrote s o s') (hlt : t < s.events.nextTx)
    (ho : o.tx? ≠ some t) : Untouched t s s' := by
  cases h with
  | nothing => exact .refl t s
  | began =>
    refine ⟨fun ht => ?_, fun _ => rfl, fun _ => rfl⟩
    rcases List.mem_cons.mp ht with rfl | ht
    · exact absurd hlt (lt_irrefl _)
    · exact ht
  | xid ht =>
    rename_i u
    rcases Mvcc.assignXid_cases u s.events with ⟨x, -, heq⟩ | ⟨-, heq⟩ <;> rw [heq]
    · exact .refl t s
    · exact ⟨id, fun _ => rfl, fun _ => rfl⟩
  | drew ht hlt => exact ⟨id, fun _ => rfl, fun _ => rfl⟩
  | inserted ht hdb =>
    rename_i u p e db
    have hne : u ≠ t := fun heq => ho (congrArg some heq)
    rcases Mvcc.insert_cases hdb with ⟨h0, -⟩ | ⟨-, -, -, rfl⟩
    · cases h0
    · refine ⟨id, fun _ => ?_, fun _ => rfl⟩
      simp [Mvcc.ownRows, List.filter_append, hne]
  | released c ht =>
    rename_i u
    have hne : u ≠ t := fun heq => ho (congrArg some heq)
    exact ⟨id, fun _ => rfl, fun _ => by simp [List.filter_append, hne]⟩
  | claimed c ht =>
    rename_i u
    have hne : u ≠ t := fun heq => ho (congrArg some heq)
    exact ⟨id, fun _ => rfl, fun _ => by simp [List.filter_append, hne]⟩
  | locked => exact ⟨id, fun _ => rfl, fun _ => rfl⟩
  | unlocked => exact ⟨id, fun _ => rfl, fun _ => rfl⟩
  | fenced l r => exact ⟨id, fun _ => rfl, fun _ => rfl⟩

/-- A statement of one transaction leaves every other one alone. -/
theorem untouched_exec {c : Choice} {s s' : State} {r : Res o} {t : Nat} (h : exec o c s = some (s', r))
    (hlt : t < s.events.nextTx) (ho : o.tx? ≠ some t) : Untouched t s s' := by
  cases exec_effect h with
  | wrote hw => exact untouched_wrote hw hlt ho
  | aborted hu hw =>
    refine (untouched_wrote hw hlt ho).trans (untouched_abort ?_ _)
    exact fun heq => ho (heq ▸ hu)
  | committed hu _ =>
    subst hu
    exact untouched_commit (fun heq => ho (congrArg some heq)) s

/-- **Transactions as names**: a transaction is known to the program whose `BEGIN` opened it. -/
def transactions : Naming State Op Res Nat where
  uses o t := o.tx? = some t
  gives o r t := begun o r = some t
  known s t := t < s.events.nextTx
  still := Untouched

/-- **Transactions are private**: what others do leaves an open transaction as it is. -/
theorem private_transactions {cap : Int} {ws : Bytes} :
    transactions.Private streamLogic (postgres cap ws) where
  refl := .refl
  trans _ _ _ _ := .trans
  known _ _ _ hle hlt := hlt.trans_le hle.1.nextTx
  exec _ _ _ _ _ _ h hlt ho := untouched_exec h hlt ho
  env e s s' t h hlt := by
    cases e with
    | advance ns =>
      cases h
      exact ⟨id, fun _ => rfl, fun _ => rfl⟩
    | kill u =>
      cases h
      by_cases hut : u = t
      · subst hut
        have hclosed : u ∉ (s.abort u).events.opened := fun hu =>
          absurd rfl (of_decide_eq_true (List.mem_filter.mp hu).2)
        exact ⟨fun hu => absurd hu hclosed, fun hu => absurd hu hclosed,
          fun hu => absurd hu hclosed⟩
      · exact untouched_abort hut s
  fresh o c s s' r t h hgives := by
    cases o with
    | beginTx =>
      cases hf : c.fault with
      | none =>
        simp only [postgres, exec, hf] at h
        cases h
        cases hgives
        exact ⟨lt_irrefl _, Nat.lt_succ_self _⟩
      | before =>
        simp only [postgres, exec, hf] at h
        cases h
        cases hgives
      | after =>
        simp only [postgres, exec, hf] at h
        cases h
        cases hgives
    | _ => cases hgives

/-! ## Every program uses its own transactions -/

section Confined

variable {cap : Int} {ws : Bytes} {p : AppendParams} {t : Nat} {T : Nat → Prop} {ε α : Type}

/-- The calls of an append in the transaction `t`, after its head read. -/
def Op.fills (t : Nat) : Op → Prop
  | .clockTimestamp u | .nextval u | .insertEvent u .. | .deleteClaim u _ | .insertClaim u _ => u = t
  | .newV7 => True
  | _ => False

/-- The calls of an append in the transaction `t`. -/
def Op.appends (t : Nat) : Op → Prop
  | .setConfig u | .currentXid u | .readHead u .. => u = t
  | .timeNow => True
  | o => o.fills t

/-- The inserts of an append are calls of an append. -/
theorem Op.fills.appends (h : o.fills t) : o.appends t := by
  cases o <;> first | exact h | exact h.elim

/-- The calls of an append name no transaction but its own. -/
theorem Op.appends.tx (h : o.appends t) : ∀ x, o.tx? = some x → x = t := by
  cases o <;> first | exact fun x hx => (Option.some.inj hx).symm.trans h | exact h.elim | nofun

/-- The loop over the events only inserts. -/
theorem issues_insertEvents {occurred recorded : Time} {version : UInt64} {prev : Digest}
    {evs : List EventData} :
    Prog.Issues (Op.fills t) (insertEvents ws p t occurred recorded version prev evs).run := by
  induction evs generalizing version prev with
  | nil => exact trivial
  | cons ev evs ih =>
    refine (issues_eventID trivial).bindExcept (fun id => .bindExcept ?_ (fun gp => ?_))
    · refine .bindExcept (issues_stmt (.op rfl)) (fun gp => ?_)
      exact .bindExcept (issues_stmt (.op rfl)) (fun _ => trivial)
    · exact ih.bindExcept (fun _ => trivial)

/-- The part of an append after its head read only inserts. -/
theorem issues_appendRows {occurred : Time} {head : UInt64 × Digest} :
    Prog.Issues (Op.fills t) (appendRows ws p t occurred head).run := by
  refine .bindExcept (issues_stmt (.op rfl)) (fun recorded => ?_)
  refine issues_insertEvents.bindExcept (fun envs => ?_)
  exact (issues_applyClaims (fun _ => rfl) (fun _ => rfl)).bindExcept (fun _ => trivial)

/-- An append makes the calls of an append. -/
theorem issues_append : Prog.Issues (Op.appends t) (append cap ws p t).run := by
  rw [append_eq]
  refine .bindExcept trivial (fun _ => ?_)
  refine .bindExcept (issues_stmt (.op rfl)) (fun _ => ?_)
  refine (issues_occurredAt trivial).bindExcept (fun occurred => .bindExcept ?_ (fun head => ?_))
  · exact .bindExcept (issues_stmt (.op rfl)) (fun _ => trivial)
  · exact .bindExcept trivial (fun _ => issues_appendRows.mono fun _ => Op.fills.appends)

/-- So does an append in a transaction of the caller. -/
theorem issues_appendTx : Prog.Issues (Op.appends t) (appendTx cap ws p t).run := by
  refine .bindExcept trivial (fun _ => ?_)
  exact .bindExcept (issues_stmt (.op rfl)) (fun _ => issues_append)

/-- The calls of an append use its transaction. -/
theorem confined_appends {q : Prog Op Res α} (hq : Prog.Issues (Op.appends t) q) (ht : T t) :
    transactions.Confined q T :=
  .of_issues (hq.mono fun _ (ho : Op.appends t _) x hx => ho.tx x hx ▸ ht)

/-- A call outside of any transaction. -/
theorem confined_outside (ho : o.tx? = none) :
    transactions.Confined (Prog.op o : Prog Op Res (Res o)) T :=
  ⟨fun x hx => (by rw [show o.tx? = some x from hx] at ho; cases ho), fun _ => trivial⟩

/-- A call of a transaction of the program. -/
theorem confined_in (ho : o.tx? = some t) (ht : T t) :
    transactions.Confined (Prog.op o : Prog Op Res (Res o)) T :=
  ⟨fun _ hx => Option.some.inj (ho.symm.trans hx) ▸ ht, fun _ => trivial⟩

/-- Wrapping the error of a statement names no transaction. -/
theorem confined_stmt {wrap : DbError → ε} {call : Prog Op Res (Except DbError α)}
    (h : transactions.Confined call T) : transactions.Confined (stmt wrap call).run T :=
  h.bind (fun _ => trivial)

/-- A call that names no transaction. -/
theorem confined_perform (ho : o.tx? = none) :
    transactions.Confined (perform (ε := ε) o : Pg ε (Res o)).run T :=
  (confined_outside ho).bind (fun _ => trivial)

/-- After its `BEGIN` a program may use the new transaction. -/
theorem confined_begin {wrap : DbError → ε} {f : Nat → Pg ε α}
    (h : ∀ t, transactions.Confined (f t).run (fun x => T x ∨ x = t)) :
    transactions.Confined (stmt wrap (.op Op.beginTx) >>= f).run T := by
  refine ⟨nofun, fun r => ?_⟩
  cases r with
  | error e => exact trivial
  | ok t => exact (h t).widen (fun x hx => hx.imp_right (fun heq => congrArg some heq.symm))

/-- The rollback at the end names the transaction of the body. -/
theorem confined_rollbackAfter {body : Pg ε α} (hbody : transactions.Confined body.run T) (ht : T t) :
    transactions.Confined (rollbackAfter t body).run T :=
  hbody.bind (fun _ => (confined_in rfl ht).bind (fun _ => trivial))

/-- An append in a transaction of its own opens it first. -/
theorem confined_appendOwn : transactions.Confined (appendOwn cap ws p).run T := by
  refine .bindExcept trivial (fun _ => confined_begin (fun t => ?_))
  refine confined_rollbackAfter ?_ (.inr rfl)
  refine .bindExcept (confined_stmt (confined_in rfl (.inr rfl))) (fun _ => ?_)
  refine .bindExcept (confined_appends issues_append (.inr rfl)) (fun res => ?_)
  exact .bindExcept (confined_stmt (confined_in rfl (.inr rfl))) (fun _ => trivial)

/-- The steps of a caller stay in the caller's transaction. -/
theorem confined_callerSteps (ht : T t) : transactions.Confined (callerSteps cap t steps) T := by
  induction steps with
  | nil => exact trivial
  | cons step steps ih =>
    cases step with
    | appendTx ws p => exact (confined_appends issues_appendTx ht).bind (fun _ => ih)
    | other => exact (confined_in rfl ht).bind (fun _ => ih)

/-- The end of a transaction names only that one. -/
theorem confined_endTx {commits : Bool} (ht : T t) : transactions.Confined (endTx t commits) T := by
  cases commits with
  | true => exact (confined_in rfl ht).bind (fun _ => trivial)
  | false => exact confined_in rfl ht

/-- A caller opens its transaction first. -/
theorem confined_callerTx {commits : Bool} : transactions.Confined (callerTx cap steps commits) T := by
  refine ⟨nofun, fun r => ?_⟩
  cases r with
  | error e => exact trivial
  | ok t => exact (confined_callerSteps (.inr rfl)).bind (fun _ => confined_endTx (.inr rfl))

/-- The fence opens the transactions that it names. -/
theorem confined_fenceBound {start : Nat} : transactions.Confined (fenceBound start).run T := by
  have hcleared : ∀ r, transactions.Confined (fenceCleared r).run T := fun r =>
    confined_stmt (confined_outside rfl)
  have hstored : ∀ l r, transactions.Confined (checkStored l r).run T := by
    intro l r
    refine (hcleared r).bindExcept (fun cleared => ?_)
    cases cleared with
    | false => exact trivial
    | true => exact (confined_perform rfl).bindExcept (fun _ => trivial)
  have hlast : ∀ last, transactions.Confined (fenceLast last).run T := by
    intro last
    refine .bindExcept (confined_begin fun t => confined_rollbackAfter
      (confined_stmt (confined_in rfl (.inr rfl))) (.inr rfl)) (fun r => ?_)
    refine (hcleared r).bindExcept (fun cleared => ?_)
    cases cleared with
    | true => exact trivial
    | false => exact (confined_perform rfl).bindExcept (fun _ => trivial)
  have hround : transactions.Confined (fenceRound start).run T := by
    refine (confined_perform rfl).bindExcept (fun fence => ?_)
    split
    · exact hstored _ _
    · refine .bindExcept (confined_stmt (confined_outside rfl)) (fun last => ?_)
      split
      · exact trivial
      · exact hlast last
  refine (confined_outside rfl).bind (fun _ => hround.bind (fun _ => ?_))
  exact (confined_outside rfl).bind (fun _ => trivial)

/-- A page read opens the transactions that it names. -/
theorem confined_readAllBounded {start : Nat} {limit maxBytes : Int} {types : List Bytes} :
    transactions.Confined (readAllBounded cap ws start limit maxBytes types).run T := by
  unfold readAllBounded
  split
  · exact trivial
  · refine confined_fenceBound.bindExcept (fun bound => ?_)
    split
    · exact trivial
    · refine confined_begin (fun t => confined_rollbackAfter ?_ (.inr rfl))
      refine .bindExcept (confined_stmt (confined_in rfl (.inr rfl))) (fun _ => ?_)
      refine .bindExcept (confined_stmt (confined_in rfl (.inr rfl))) (fun rows => ?_)
      refine .bindExcept trivial (fun chosen => ?_)
      unfold fetchPage
      split
      · exact trivial
      · exact .bindExcept (confined_stmt (confined_in rfl (.inr rfl))) (fun _ => trivial)

/-- So does the read that the relay and the poller make. -/
theorem confined_readSettled {q : Nat → Placed Envelope → Bool} :
    transactions.Confined (readSettled q).run T := by
  refine confined_fenceBound.bindExcept (fun bound => ?_)
  split
  · exact trivial
  · refine confined_begin (fun t => confined_rollbackAfter ?_ (.inr rfl))
    refine .bindExcept (confined_stmt (confined_in rfl (.inr rfl))) (fun _ => ?_)
    exact confined_stmt (confined_in rfl (.inr rfl))

/-- A transaction outside row security is opened first. -/
theorem confined_bypassTx {body : Nat → Pg StoreError α}
    (h : ∀ t, transactions.Confined (body t).run (fun x => T x ∨ x = t)) :
    transactions.Confined (bypassTx body).run T := by
  refine .bindExcept (.bindExcept (confined_stmt (confined_outside rfl)) fun member => ?_) (fun _ => ?_)
  · cases member <;> exact trivial
  · refine confined_begin (fun t => confined_rollbackAfter ?_ (.inr rfl))
    exact .bindExcept (confined_stmt (confined_in rfl (.inr rfl))) (fun _ => h t)

/-- The query of the heads stays in its transaction. -/
theorem confined_heads {on : HeadsFor} {upto : Nat} (ht : T t) :
    transactions.Confined (heads on t upto).run T :=
  .bindExcept (confined_stmt (confined_in rfl ht)) (fun _ => trivial)

/-- An anchor opens the transaction that it names. -/
theorem confined_anchor {upto : UInt64} : transactions.Confined (anchor upto).run T := by
  refine confined_bypassTx (fun t => ?_)
  have hbound : transactions.Confined (anchorBound upto t).run (fun x => T x ∨ x = t) := by
    unfold anchorBound
    split
    · exact confined_stmt (confined_in rfl (.inr rfl))
    · exact trivial
  refine hbound.bindExcept (fun _ => (confined_heads (.inr rfl)).bindExcept (fun _ => ?_))
  refine (confined_perform rfl).bindExcept (fun _ => (confined_perform rfl).bindExcept (fun _ => ?_))
  refine .bindExcept (confined_stmt (confined_in rfl (.inr rfl))) (fun _ => ?_)
  exact .bindExcept (confined_stmt (confined_in rfl (.inr rfl))) (fun _ => trivial)

/-- So does the check of an anchor. -/
theorem confined_checkAnchor {a : Anchor} : transactions.Confined (checkAnchor a).run T :=
  confined_bypassTx (fun _ => (confined_heads (.inr rfl)).bindExcept (fun _ => trivial))

/-- **Every program uses only transactions that it began.** -/
theorem confined_program (c : Call) : transactions.Confined (program cap ws c) T := by
  cases c with
  | append ws' p => exact confined_appendOwn.bind (fun _ => trivial)
  | callerTx steps commits => exact confined_callerTx.bind (fun _ => trivial)
  | readAllBounded start limit maxBytes types =>
    exact confined_readAllBounded.bind (fun _ => trivial)
  | head => exact confined_readSettled.bind (fun _ => trivial)
  | matchingHead types =>
    refine Naming.Confined.bind ?_ (fun _ => trivial)
    unfold matchingHead
    split
    · exact trivial
    · exact confined_readSettled
  | anchor upto => exact confined_anchor.bind (fun _ => trivial)
  | checkAnchor a => exact confined_checkAnchor.bind (fun _ => trivial)

end Confined

end EsLite.Postgres
