import EsLite.Postgres.Workspace

/-!
# What a call can do

The calls of the store have many forms and few effects: a call writes one thing or nothing
(`Wrote`), or its transaction is aborted, or committed (`exec_cases`). What every call keeps is shown
effect by effect.
-/

namespace EsLite.Postgres

/-! ## Statements -/

variable {α : Type} {r : Option (State × Except DbError α)} {y : Except DbError α} {f : Fault} {t : Nat}
  {s s' : State} {x : State × Except DbError Unit}

/-- What a statement can do: be refused, succeed, or fail and end its transaction. -/
theorem statement_cases (h : s.statement t f r = some (s', y)) :
    (s' = s ∧ y = .error .closed) ∨
    (t ∈ s.events.opened ∧ ∃ a, y = .ok a ∧ r = some (s', .ok a)) ∨
    (t ∈ s.events.opened ∧ (∃ e, y = .error e) ∧
      (s' = s.abort t ∨ ∃ x, r = some x ∧ s' = x.1.abort t)) := by
  unfold State.statement at h
  split at h
  · cases h
    exact .inl ⟨rfl, rfl⟩
  · rename_i ht
    have ht := not_not.mp ht
    cases f with
    | none =>
      obtain ⟨⟨s₁, y₁⟩, hr, hx⟩ := Option.map_eq_some_iff.mp h
      cases y₁ with
      | ok a =>
        cases hx
        exact .inr (.inl ⟨ht, a, rfl, hr⟩)
      | error e =>
        cases hx
        exact .inr (.inr ⟨ht, ⟨e, rfl⟩, .inr ⟨_, hr, rfl⟩⟩)
    | before =>
      cases h
      exact .inr (.inr ⟨ht, ⟨_, rfl⟩, .inl rfl⟩)
    | after =>
      obtain ⟨⟨s₁, y₁⟩, hr, hx⟩ := Option.map_eq_some_iff.mp h
      cases hx
      exact .inr (.inr ⟨ht, ⟨_, rfl⟩, .inr ⟨_, hr, rfl⟩⟩)

/-- The reply of a statement that succeeds is that of its ofResult. -/
theorem statement_ok {a : α} (h : s.statement t f r = some (s', .ok a)) :
    t ∈ s.events.opened ∧ r = some (s', .ok a) := by
  rcases statement_cases h with ⟨-, h0⟩ | ⟨ht, b, hb, hx⟩ | ⟨-, ⟨e, h0⟩, -⟩
  · cases h0
  · cases hb
    exact ⟨ht, hx⟩
  · cases h0

/-- A query that succeeds changes nothing and returns its result. -/
theorem query_ok {a b : α} (h : s.query t f a = some (s', .ok b)) : s' = s ∧ b = a := by
  have hx := Option.some.inj (statement_ok h).2
  simp only [Prod.mk.injEq, Except.ok.injEq] at hx
  exact ⟨hx.1.symm, hx.2.symm⟩

/-- A statement on the pool changes nothing, and returns its result when it succeeds. -/
theorem poolQuery_cases {a : α} (h : s.poolQuery f a = some (s', y)) :
    s' = s ∧ ∀ b, y = .ok b → b = a := by
  cases f with
  | none =>
    cases h
    exact ⟨rfl, fun b hb => (Except.ok.inj hb).symm⟩
  | before =>
    cases h
    exact ⟨rfl, fun b hb => by cases hb⟩
  | after =>
    cases h
    exact ⟨rfl, fun b hb => by cases hb⟩

/-- A statement that fails has ended its transaction. -/
theorem statement_error {e : DbError} (h : s.statement t f r = some (s', .error e)) :
    t ∉ s'.events.opened := by
  have habort : ∀ u : State, t ∉ (u.abort t).events.opened := by
    intro u hu
    exact absurd rfl (of_decide_eq_true (List.mem_filter.mp hu).2)
  unfold State.statement at h
  split at h
  · rename_i ht
    cases h
    exact ht
  · cases f with
    | none =>
      obtain ⟨⟨s₁, y₁⟩, -, hx⟩ := Option.map_eq_some_iff.mp h
      cases y₁ with
      | ok a => cases hx
      | error e =>
        cases hx
        exact habort s₁
    | before =>
      cases h
      exact habort s
    | after =>
      obtain ⟨⟨s₁, y₁⟩, -, hx⟩ := Option.map_eq_some_iff.mp h
      cases hx
      exact habort s₁

/-! ## Effects -/

/-- The transaction that a call belongs to. -/
def Op.tx? : Op → Option Nat
  | .commit t | .rollback t | .setConfig t | .currentXid t | .readHead t .. | .clockTimestamp t
  | .nextval t | .insertEvent t .. | .deleteClaim t _ | .insertClaim t _ | .selectSizes t ..
  | .selectRows t .. | .maxPosition t _ | .selectHeads _ t _ | .insertAnchor t _ => some t
  | _ => none

/-- What a call writes. -/
inductive Wrote (s : State) : Op → State → Prop where
  | nothing (o : Op) : Wrote s o s
  | began : Wrote s .beginTx { s with events := s.events.openTx.1 }
  | xid {t : Nat} (ht : t ∈ s.events.opened) :
    Wrote s (.currentXid t) { s with events := (s.events.assignXid t).1 }
  | drew {t : Nat} (ht : t ∈ s.events.opened) (hlt : s.events.drawn + 1 < 2 ^ 63) :
    Wrote s (.nextval t) { s with events := (s.events.draw t).1 }
  | inserted {t p : Nat} {e : Envelope} {db : Mvcc Envelope} (ht : t ∈ s.events.opened)
    (hdb : s.events.insert clash t p e = some (db, true)) :
    Wrote s (.insertEvent t p e) { s with events := db }
  | released {t : Nat} (c : ClaimRow) (ht : t ∈ s.events.opened) :
    Wrote s (.deleteClaim t c) { s with claimWrites := s.claimWrites ++ [(t, .drop c)] }
  | claimed {t : Nat} (c : ClaimRow) (ht : t ∈ s.events.opened) :
    Wrote s (.insertClaim t c) { s with claimWrites := s.claimWrites ++ [(t, .put c)] }
  | locked : Wrote s .lock { s with locked := true }
  | unlocked : Wrote s .unlock { s with locked := false }
  | fenced (l r : Nat) : Wrote s (.writeFence l r) { s with boundL := l, fenceR := r }

/-- What a call leaves behind: what it wrote, or an aborted or committed transaction. -/
inductive Effect (s : State) (o : Op) : State → Prop where
  | wrote {s' : State} (h : Wrote s o s') : Effect s o s'
  | aborted {t : Nat} {x : State} (ht : o.tx? = some t) (h : Wrote s o x) : Effect s o (x.abort t)
  | committed {t : Nat} (ho : o = .commit t) (ht : t ∈ s.events.opened) : Effect s o (s.commit t)

theorem effect_statement {o : Op} (ho : o.tx? = some t)
    (hr : t ∈ s.events.opened → ∀ x, r = some x → Wrote s o x.1) (h : s.statement t f r = some (s', y)) :
    Effect s o s' := by
  rcases statement_cases h with ⟨rfl, -⟩ | ⟨ht, a, -, hx⟩ | ⟨ht, -, rfl | ⟨x, hx, rfl⟩⟩
  · exact .wrote (.nothing o)
  · exact .wrote (hr ht _ hx)
  · exact .aborted ho (.nothing o)
  · exact .aborted ho (hr ht x hx)

theorem effect_query {o : Op} {a : α} (ho : o.tx? = some t) (h : s.query t f a = some (s', y)) :
    Effect s o s' := by
  refine effect_statement ho (fun _ x hx => ?_) h
  cases hx
  exact .nothing o

theorem effect_poolQuery {o : Op} {a : α} (h : s.poolQuery f a = some (s', y)) : Effect s o s' := by
  obtain ⟨rfl, -⟩ := poolQuery_cases h
  exact .wrote (.nothing o)

theorem wrote_insertEvent {p : Nat} {e : Envelope} (ht : t ∈ s.events.opened)
    (h : s.insertEvent t p e = some x) : Wrote s (.insertEvent t p e) x.1 := by
  unfold State.insertEvent at h
  split at h
  · cases h
    exact .nothing _
  · obtain ⟨⟨db, ok⟩, hdb, rfl⟩ := Option.map_eq_some_iff.mp h
    rcases Mvcc.insert_cases hdb with ⟨-, rfl⟩ | ⟨rfl, -⟩
    · exact .nothing _
    · exact .inserted ht hdb

theorem wrote_deleteClaim {c : ClaimRow} (ht : t ∈ s.events.opened) (h : s.deleteClaim t c = some x) :
    Wrote s (.deleteClaim t c) x.1 := by
  unfold State.deleteClaim at h
  split at h
  · cases h
    exact .nothing _
  · split at h
    · cases h
    · cases h
      exact .released c ht

theorem wrote_insertClaim {c : ClaimRow} (ht : t ∈ s.events.opened) (h : s.insertClaim t c = some x) :
    Wrote s (.insertClaim t c) x.1 := by
  unfold State.insertClaim at h
  split at h
  · cases h
  · split at h
    · cases h
      exact .nothing _
    · cases h
      exact .claimed c ht

theorem wrote_nextval (ht : t ∈ s.events.opened) : Wrote s (.nextval t) (s.nextval t).1 := by
  unfold State.nextval
  split
  · rename_i hlt
    exact .drew ht hlt
  · exact .nothing _

/-- **What a call can do.** -/
theorem exec_effect {o : Op} {c : Choice} {r : Res o} (h : exec o c s = some (s', r)) :
    Effect s o s' := by
  cases o with
  | beginTx =>
    simp only [exec] at h
    split at h
    · cases h
      exact .wrote .began
    · cases h
      exact .wrote (.nothing _)
  | commit t =>
    simp only [exec] at h
    split at h
    · cases h
      exact .wrote (.nothing _)
    · rename_i ht
      split at h <;> cases h
      · exact .committed rfl (not_not.mp ht)
      · exact .aborted rfl (.nothing _)
      · exact .committed rfl (not_not.mp ht)
  | rollback t =>
    cases h
    exact .aborted rfl (.nothing _)
  | currentXid t =>
    refine effect_statement rfl (fun ht x hx => ?_) h
    cases hx
    exact .xid ht
  | nextval t =>
    refine effect_statement rfl (fun ht x hx => ?_) h
    cases hx
    exact wrote_nextval ht
  | insertEvent t p e => exact effect_statement rfl (fun ht _ hx => wrote_insertEvent ht hx) h
  | deleteClaim t c => exact effect_statement rfl (fun ht _ hx => wrote_deleteClaim ht hx) h
  | insertClaim t c => exact effect_statement rfl (fun ht _ hx => wrote_insertClaim ht hx) h
  | setConfig t => exact effect_query rfl h
  | readHead t ws stream => exact effect_query rfl h
  | clockTimestamp t => exact effect_query rfl h
  | selectSizes t ws start limit types bound => exact effect_query rfl h
  | selectRows t ws positions => exact effect_query rfl h
  | maxPosition t q => exact effect_query rfl h
  | selectHeads on t upto => exact effect_query rfl h
  | insertAnchor t a => exact effect_query rfl h
  | relayRole => exact effect_poolQuery h
  | lastValue => exact effect_poolQuery h
  | horizonReached r => exact effect_poolQuery h
  | lock =>
    simp only [exec] at h
    split at h
    · cases h
    · cases h
      exact .wrote .locked
  | unlock =>
    cases h
    exact .wrote .unlocked
  | readFence =>
    cases h
    exact .wrote (.nothing _)
  | writeFence l r =>
    cases h
    exact .wrote (.fenced l r)
  | timeNow =>
    cases h
    exact .wrote (.nothing _)
  | newV7 =>
    cases h
    exact .wrote (.nothing _)
  | newAnchorID =>
    cases h
    exact .wrote (.nothing _)

end EsLite.Postgres
