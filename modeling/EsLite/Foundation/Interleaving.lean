import EsLite.Foundation.Runs

/-! # Interleaved programs and a monotone program logic

Programs over a store, as trees of atomic calls: `Prog.call op k` issues the call `op` and goes on
with `k` applied to its reply. A `System` says which program each kind of client call runs, what one
atomic call does to the shared state and what the environment does on its own. A `Pool` runs any
number of such programs; one step of it performs one atomic call of one of them, so a run of the pool
is an arbitrary interleaving, and a client that is never scheduled again has crashed.

The logic is built on *monotone knowledge*: every step of every party goes up in a preorder `le`, and
what a program knows is kept under `le`. `Logic.WP Q p s` is the weakest precondition of `p` against
such an environment; `Logic.run_sound` says that the triples of the single programs carry over to
every interleaving of them. -/

namespace EsLite

/-- A program: it has returned, or it issues the atomic call `op` and goes on with the reply. -/
inductive Prog (Op : Type) (Res : Op → Type) (α : Type) : Type where
  /-- The program has returned `a`. -/
  | ret (a : α) : Prog Op Res α
  /-- Issue `op`, then continue with its reply. -/
  | call (op : Op) (k : Res op → Prog Op Res α) : Prog Op Res α

variable {ε γ : Type}

/-- Wrapping an error does not touch a result. -/
theorem mapError_eq_ok {ε' α : Type} {f : ε → ε'} {r : Except ε α} {a : α} (h : r.mapError f = .ok a) :
    r = .ok a := by
  cases r with
  | error err => cases h
  | ok b => exact congrArg _ (Except.ok.inj h)

namespace Prog

variable {Op : Type} {Res : Op → Type} {α β : Type}

/-- Sequential composition. -/
def bind : Prog Op Res α → (α → Prog Op Res β) → Prog Op Res β
  | .ret a, f => f a
  | .call op k, f => .call op (fun r => bind (k r) f)

instance : Monad (Prog Op Res) where
  pure := Prog.ret
  bind := Prog.bind

/-- The program that issues one call and returns its reply. -/
def op (o : Op) : Prog Op Res (Res o) := .call o .ret

@[simp] theorem pure_eq (a : α) : (pure a : Prog Op Res α) = .ret a := rfl

@[simp] theorem ret_bind (a : α) (f : α → Prog Op Res β) : (Prog.ret a >>= f) = f a := rfl

@[simp] theorem call_bind (o : Op) (k : Res o → Prog Op Res α) (f : α → Prog Op Res β) :
    (Prog.call o k >>= f) = .call o (fun r => k r >>= f) := rfl

@[simp] theorem op_bind (o : Op) (f : Res o → Prog Op Res β) : (Prog.op o >>= f) = .call o f := rfl

theorem bind_assoc (p : Prog Op Res α) (f : α → Prog Op Res β) (g : β → Prog Op Res γ) :
    p >>= f >>= g = p >>= fun a => f a >>= g := by
  induction p with
  | ret a => rfl
  | call o k ih => exact congrArg (Prog.call o) (funext ih)

/-- Issue a call, in a program that may end in an error. -/
def perform {ε : Type} (o : Op) : ExceptT ε (Prog Op Res) (Res o) := ExceptT.lift (Prog.op o)

/-- The result of a pure computation, in a program that may end in an error. -/
def ofResult {ε : Type} (r : Except ε α) : ExceptT ε (Prog Op Res) α := ExceptT.mk (pure r)

/-- Run a whole program without interruption, with one choice for each of its calls. -/
def atomically {σ Ch : Type} (exec : (o : Op) → Ch → σ → Option (σ × Res o)) (ch : Ch) :
    Prog Op Res α → σ → Option (σ × α)
  | .ret a, s => some (s, a)
  | .call o k, s => (exec o ch s).bind (fun x => atomically exec ch (k x.2) x.1)

variable {p : Prog Op Res α} {f : α → Prog Op Res β}

/-- Uninterrupted runs compose. -/
theorem atomically_bind {σ Ch : Type} {exec : (o : Op) → Ch → σ → Option (σ × Res o)} {ch : Ch} {s : σ} :
    atomically exec ch (p >>= f) s =
      (atomically exec ch p s).bind (fun x => atomically exec ch (f x.2) x.1) := by
  induction p generalizing s with
  | ret a => rfl
  | call o k ih =>
    rw [call_bind, atomically, atomically, Option.bind_assoc]
    congr 1
    funext x
    exact ih x.2

/-- Answer the next calls of a program, each with a choice and in a state of its own; `none` when one
is not enabled, or the program returns before. -/
def resume {σ Ch : Type} (exec : (o : Op) → Ch → σ → Option (σ × Res o)) :
    List (Ch × σ) → Prog Op Res α → Option (Prog Op Res α)
  | [], p => some p
  | _ :: _, .ret _ => none
  | x :: xs, .call o k => (exec o x.1 x.2).bind (fun y => resume exec xs (k y.2))

/-- What is left of a sequence when its first program has returned. -/
theorem resume_bind {σ Ch : Type} {exec : (o : Op) → Ch → σ → Option (σ × Res o)} {xs : List (Ch × σ)}
    {a : α} (h : resume exec xs p = some (.ret a)) (f : α → Prog Op Res β) :
    resume exec xs (p >>= f) = some (f a) := by
  induction xs generalizing p with
  | nil =>
    cases h
    rfl
  | cons x xs ih =>
    cases p with
    | ret b => cases h
    | call o k =>
      obtain ⟨y, hy, hk⟩ := Option.bind_eq_some_iff.mp h
      rw [call_bind, resume, hy]
      exact ih hk

/-- A program whose result is mapped returns what the program returns, mapped. -/
theorem resume_map {σ Ch : Type} {exec : (o : Op) → Ch → σ → Option (σ × Res o)} {xs : List (Ch × σ)}
    {f : α → β} {b : β} (h : resume exec xs (p >>= fun a => .ret (f a)) = some (.ret b)) :
    ∃ a, resume exec xs p = some (.ret a) ∧ b = f a := by
  induction xs generalizing p with
  | nil =>
    cases p with
    | ret a =>
      cases h
      exact ⟨a, rfl, rfl⟩
    | call o k => cases h
  | cons x xs ih =>
    cases p with
    | ret a => cases h
    | call o k =>
      obtain ⟨y, hy, hk⟩ := Option.bind_eq_some_iff.mp h
      obtain ⟨a, ha, hb⟩ := ih hk
      refine ⟨a, ?_, hb⟩
      rw [resume, hy]
      exact ha

/-- What a program does next: it has returned, or it issues a call. -/
def move : Prog Op Res α → α ⊕ Op
  | .ret a => .inl a
  | .call o _ => .inr o

/-- The next call of a program, if there is one, satisfies `q`. -/
def Next (q : Op → Prop) : Prog Op Res α → Prop
  | .ret _ => True
  | .call o _ => q o

instance (q : Op → Prop) [DecidablePred q] : (p : Prog Op Res α) → Decidable (p.Next q)
  | .ret _ => inferInstanceAs (Decidable True)
  | .call o _ => inferInstanceAs (Decidable (q o))

/-- Every call the program can make is one of `O`, whatever the replies are. -/
def Issues (O : Op → Prop) : Prog Op Res α → Prop
  | .ret _ => True
  | .call o k => O o ∧ ∀ r, Issues O (k r)

/-- Every call the program can make, with what it does on each reply, satisfies `Q`. -/
def Each (Q : (o : Op) → (Res o → Prog Op Res α) → Prop) : Prog Op Res α → Prop
  | .ret _ => True
  | .call o k => Q o k ∧ ∀ r, Each Q (k r)

/-- The rule of sequential composition: the calls of the first program go on with the second one. -/
theorem Each.bind {Q : (o : Op) → (Res o → Prog Op Res β) → Prop}
    (hp : p.Each (fun o k => Q o (fun r => k r >>= f))) (hf : ∀ a, (f a).Each Q) : (p >>= f).Each Q := by
  induction p with
  | ret a => exact hf a
  | call o k ih => exact ⟨hp.1, fun r => ih r (hp.2 r)⟩

/-- A weaker condition on the calls. -/
theorem Each.mono {Q Q' : (o : Op) → (Res o → Prog Op Res α) → Prop} (hQ : ∀ o k, Q o k → Q' o k)
    (h : p.Each Q) : p.Each Q' := by
  induction p with
  | ret a => exact trivial
  | call o k ih => exact ⟨hQ o k h.1, fun r => ih r (h.2 r)⟩

variable {O : Op → Prop}

theorem Issues.op {o : Op} (h : O o) : Issues O (Prog.op o : Prog Op Res (Res o)) := ⟨h, fun _ => trivial⟩

theorem issues_all (hO : ∀ o, O o) (p : Prog Op Res α) : Issues O p := by
  induction p with
  | ret a => exact trivial
  | call o k ih => exact ⟨hO o, ih⟩

/-- A program that makes calls of a set makes calls of a larger one. -/
theorem Issues.mono {O' : Op → Prop} (hO : ∀ o, O o → O' o) (h : Issues O p) : Issues O' p := by
  induction p with
  | ret a => exact trivial
  | call o k ih => exact ⟨hO o h.1, fun r => ih r (h.2 r)⟩

theorem Issues.bind (hp : Issues O p) (hf : ∀ a, Issues O (f a)) : Issues O (p >>= f) := by
  induction p with
  | ret a => exact hf a
  | call o k ih => exact ⟨hp.1, fun r => ih r (hp.2 r)⟩

/-- The rule of sequential composition for programs that may end in an error. -/
theorem Issues.bindExcept {p : ExceptT ε (Prog Op Res) α} {f : α → ExceptT ε (Prog Op Res) β}
    (hp : Issues O p.run) (hf : ∀ a, Issues O (f a).run) : Issues O (p >>= f).run := by
  apply Issues.bind hp
  intro r
  cases r with
  | ok a => exact hf a
  | error e => exact trivial

theorem issues_perform {o : Op} (h : O o) : Issues O (perform o : ExceptT ε (Prog Op Res) (Res o)).run :=
  .bind (.op h) (fun _ => trivial)

/-- What every call of a program preserves, an uninterrupted run of it preserves. -/
theorem atomically_preserves {σ Ch : Type} {exec : (o : Op) → Ch → σ → Option (σ × Res o)} {I : σ → Prop}
    (hexec : ∀ o, O o → ∀ ch s s' r, exec o ch s = some (s', r) → I s → I s') (hp : Issues O p) {ch : Ch}
    {s s' : σ} {a : α} (h : atomically exec ch p s = some (s', a)) (hs : I s) : I s' := by
  induction p generalizing s with
  | ret b =>
    cases h
    exact hs
  | call o k ih =>
    obtain ⟨⟨t, r⟩, hex, hk⟩ := Option.bind_eq_some_iff.mp h
    exact ih r (hp.2 r) hk (hexec o hp.1 ch s t r hex hs)

end Prog

/-- A shared-state system: the program of each client call, the effect of each atomic call (with a
choice that resolves what the source leaves open) and the steps the environment takes by itself. -/
structure System (σ κ Op : Type) (Res : Op → Type) (α Ch Env : Type) where
  /-- The program a client call runs. -/
  prog : κ → Prog Op Res α
  /-- The effect and the reply of one atomic call; `none` when it is not enabled. -/
  exec : (o : Op) → Ch → σ → Option (σ × Res o)
  /-- A step of the environment; `none` when it is not enabled. -/
  env : Env → σ → Option σ

/-- Any number of client calls over one shared state. -/
structure Pool (σ κ Op : Type) (Res : Op → Type) (α : Type) where
  /-- The shared state. -/
  shared : σ
  /-- The calls in progress, each with what it still has to do. -/
  thread : Nat → Option (κ × Prog Op Res α)
  /-- The calls that returned, in the order in which they did. -/
  finished : List (Nat × κ × α)

/-- What can happen next in a pool. -/
inductive PoolAction (κ Ch Env : Type) : Type where
  /-- A client issues the call `c` under the fresh name `i`. -/
  | spawn (i : Nat) (c : κ)
  /-- Call `i` performs its next atomic call. -/
  | step (i : Nat) (ch : Ch)
  /-- The environment takes a step. -/
  | env (e : Env)

variable {i j : Nat}

namespace Pool

variable {σ κ Op : Type} {Res : Op → Type} {α : Type}

/-- The pool in which no call has been issued yet. -/
def start (s : σ) : Pool σ κ Op Res α := ⟨s, fun _ => none, []⟩

/-- No call has been issued under the name `i` yet. -/
def unused (P : Pool σ κ Op Res α) (i : Nat) : Bool :=
  (P.thread i).isNone && P.finished.all (fun x => x.1 ≠ i)

/-- Record what call `i` still has to do, or that it has returned. -/
def put (P : Pool σ κ Op Res α) (i : Nat) (c : κ) (s : σ) : Prog Op Res α → Pool σ κ Op Res α
  | .ret a => ⟨s, Function.update P.thread i none, P.finished ++ [(i, c, a)]⟩
  | .call o k => ⟨s, Function.update P.thread i (some (c, .call o k)), P.finished⟩

@[simp] theorem put_shared (P : Pool σ κ Op Res α) (i : Nat) (c : κ) (s : σ)
    (p : Prog Op Res α) : (P.put i c s p).shared = s := by
  cases p <;> rfl

variable {P : Pool σ κ Op Res α}

/-- Recording a step of one call leaves the others as they are. -/
theorem thread_put_of_ne (hj : j ≠ i) (c : κ) (s : σ) (p : Prog Op Res α) :
    (P.put i c s p).thread j = P.thread j := by
  cases p <;> exact Function.update_of_ne hj ..

variable {s : σ}

/-- After `put`, a running call is the one just recorded or one that ran before. -/
theorem thread_put {c c' : κ} {p p' : Prog Op Res α} (h : (P.put i c s p).thread j = some (c', p')) :
    (j = i ∧ c' = c ∧ p' = p) ∨ (j ≠ i ∧ P.thread j = some (c', p')) := by
  by_cases hj : j = i
  · subst hj
    cases p with
    | ret a => simp [put] at h
    | call o k =>
      simp only [put, Function.update_self, Option.some.injEq, Prod.mk.injEq] at h
      exact .inl ⟨rfl, h.1.symm, h.2.symm⟩
  · refine .inr ⟨hj, ?_⟩
    cases p <;> simpa [put, hj] using h

/-- A call that has returned is not running any more. -/
theorem thread_put_ret {c : κ} {a : α} : (P.put i c s (.ret a)).thread i = none := by
  simp [put]

/-- After `put`, a finished call is an earlier one, or the one just recorded as returned. -/
theorem mem_finished_put {c : κ} {p : Prog Op Res α} {x : Nat × κ × α}
    (h : x ∈ (P.put i c s p).finished) : x ∈ P.finished ∨ ∃ a, p = .ret a ∧ x = (i, c, a) := by
  cases p with
  | ret a =>
    simp only [put, List.mem_append, List.mem_singleton] at h
    rcases h with h | rfl
    · exact .inl h
    · exact .inr ⟨a, rfl, rfl⟩
  | call o k => exact .inl h

/-- A name in use stays in use. -/
theorem unused_put {c : κ} {p : Prog Op Res α} (h : P.unused j = false ∨ j = i) :
    (P.put i c s p).unused j = false := by
  by_cases hj : j = i
  · subst hj
    cases p <;> simp [unused, put]
  · have h := h.resolve_right hj
    cases p with
    | ret a =>
      have : i ≠ j := fun h => hj h.symm
      simpa [unused, put, hj, this] using h
    | call o k => simpa [unused, put, hj] using h

end Pool

namespace System

variable {σ κ Op : Type} {Res : Op → Type} {α Ch Env : Type}

/-- One step of a pool: a fresh call is issued, one call performs its next atomic call, or the
environment moves. -/
def step (S : System σ κ Op Res α Ch Env) (P : Pool σ κ Op Res α) :
    PoolAction κ Ch Env → Option (Pool σ κ Op Res α)
  | .spawn i c => if P.unused i then some (P.put i c P.shared (S.prog c)) else none
  | .step i ch =>
    match P.thread i with
    | some (c, .call o k) => (S.exec o ch P.shared).map (fun x => P.put i c x.1 (k x.2))
    | _ => none
  | .env e => (S.env e P.shared).map (fun s => { P with shared := s })

variable {S : System σ κ Op Res α Ch Env} {P : Pool σ κ Op Res α} {allowed : Op → σ → Prop}
  {pre : κ → σ → Prop}

/-- What a step of a pool can be, with the guards it passed. -/
theorem step_cases {P' : Pool σ κ Op Res α} {a : PoolAction κ Ch Env} (h : S.step P a = some P') :
    (∃ i c, a = .spawn i c ∧ P.unused i = true ∧ P' = P.put i c P.shared (S.prog c)) ∨
    (∃ i ch c o k s r, a = .step i ch ∧ P.thread i = some (c, .call o k) ∧
      S.exec o ch P.shared = some (s, r) ∧ P' = P.put i c s (k r)) ∨
    (∃ e s, a = .env e ∧ S.env e P.shared = some s ∧ P' = { P with shared := s }) := by
  cases a with
  | spawn i c =>
    simp only [step] at h
    split at h
    · rename_i hu
      exact .inl ⟨i, c, rfl, hu, (Option.some.inj h).symm⟩
    · cases h
  | step i ch =>
    simp only [step] at h
    split at h
    · rename_i c o k hth
      obtain ⟨⟨s, r⟩, hex, rfl⟩ := Option.map_eq_some_iff.mp h
      exact .inr (.inl ⟨i, ch, c, o, k, s, r, rfl, hth, hex, rfl⟩)
    · cases h
  | env e =>
    obtain ⟨s, hs, rfl⟩ := Option.map_eq_some_iff.mp h
    exact .inr (.inr ⟨e, s, rfl, hs, rfl⟩)

/-- **What holds of every call of the programs**, with what follows it, holds of every call that runs. -/
theorem each_of_run {Q : κ → (o : Op) → (Res o → Prog Op Res α) → Prop}
    (hprog : ∀ c, (S.prog c).Each (Q c)) {s : σ} {as : List (PoolAction κ Ch Env)}
    (hrun : runActions S.step (Pool.start s) as = some P) :
    ∀ i c p, P.thread i = some (c, p) → p.Each (Q c) := by
  have hstep : ∀ (P : Pool σ κ Op Res α) a P',
      (∀ i c p, P.thread i = some (c, p) → p.Each (Q c)) → S.step P a = some P' →
      ∀ i c p, P'.thread i = some (c, p) → p.Each (Q c) := by
    intro P a P' hP hs
    rcases step_cases hs with ⟨i, c, -, -, rfl⟩ | ⟨i, ch, c, o, k, t, r, -, hthread, -, rfl⟩ |
      ⟨e, t, -, -, rfl⟩
    · intro j c' p hp
      rcases Pool.thread_put hp with ⟨-, rfl, rfl⟩ | ⟨-, hold⟩
      · exact hprog c'
      · exact hP j c' p hold
    · intro j c' p hp
      rcases Pool.thread_put hp with ⟨-, rfl, rfl⟩ | ⟨-, hold⟩
      · exact (hP i c' _ hthread).2 r
      · exact hP j c' p hold
    · exact hP
  exact invariant_of_run hstep hrun (fun _ _ _ h => nomatch h)

/-- The side condition on a pool's steps that each call is only issued, and each atomic call only
performed, in a shared state that allows it. -/
def Allows (pre : κ → σ → Prop) (allowed : Op → σ → Prop) (P : Pool σ κ Op Res α) :
    PoolAction κ Ch Env → Prop
  | .spawn _ c => pre c P.shared
  | .step i _ => ∀ x ∈ P.thread i, x.2.Next (fun o => allowed o P.shared)
  | .env _ => True

instance (pre : κ → σ → Prop) (allowed : Op → σ → Prop) [∀ c s, Decidable (pre c s)]
    [∀ o s, Decidable (allowed o s)] (P : Pool σ κ Op Res α) :
    (a : PoolAction κ Ch Env) → Decidable (Allows pre allowed P a)
  | .spawn _ c => inferInstanceAs (Decidable (pre c P.shared))
  | .step i _ => inferInstanceAs
      (Decidable (∀ x ∈ P.thread i, x.2.Next (fun o => allowed o P.shared)))
  | .env _ => inferInstanceAs (Decidable True)

/-- Where the shared state allows everything, it allows every step. -/
theorem allows_of_shared (hpre : ∀ c, pre c P.shared) (hallowed : ∀ o, allowed o P.shared)
    (a : PoolAction κ Ch Env) : Allows pre allowed P a := by
  cases a with
  | spawn i c => exact hpre c
  | step i ch =>
    rintro ⟨c, p⟩ -
    cases p with
    | ret a => exact trivial
    | call o k => exact hallowed o
  | env e => exact trivial

/-- Where everything is allowed, every step is. -/
theorem allows_of_forall (hpre : ∀ c s, pre c s) (hallowed : ∀ o s, allowed o s) (P : Pool σ κ Op Res α)
    (a : PoolAction κ Ch Env) : Allows pre allowed P a :=
  allows_of_shared (fun c => hpre c _) (fun o => hallowed o _) a

end System

/-- What a group of programs may rely on: an invariant of the shared state, a preorder that every
step goes up in, and the states in which each atomic call is allowed. -/
structure Logic (σ Op : Type) where
  /-- The invariant of the shared state. -/
  inv : σ → Prop
  /-- The preorder of growing knowledge. -/
  le : σ → σ → Prop
  /-- In which states an atomic call may be performed. -/
  allowed : Op → σ → Prop
  /-- Knowledge persists when nothing happens. -/
  refl : ∀ s, le s s
  /-- Knowledge persists over several steps. -/
  trans : ∀ s t u, le s t → le t u → le s u

namespace Logic

variable {σ κ Op : Type} {Res : Op → Type} {α β Ch Env : Type}

/-- The logic of a part `f` of the state. -/
def comap {τ : Type} (f : σ → τ) (L : Logic τ Op) : Logic σ Op where
  inv s := L.inv (f s)
  le s t := L.le (f s) (f t)
  allowed o s := L.allowed o (f s)
  refl s := L.refl (f s)
  trans s t u := L.trans (f s) (f t) (f u)

/-- **Weakest precondition** of a program among parties that only go up in `L.le`: whatever they did
before, each of its atomic calls keeps the invariant and goes up, and what it returns satisfies `Q`
from then on. -/
def WP (L : Logic σ Op) (S : System σ κ Op Res β Ch Env) (Q : α → σ → Prop) :
    Prog Op Res α → σ → Prop
  | .ret a, s => ∀ s', L.le s s' → L.inv s' → Q a s'
  | .call o k, s => ∀ s', L.le s s' → L.inv s' → L.allowed o s' →
      ∀ ch s'' r, S.exec o ch s' = some (s'', r) →
        L.inv s'' ∧ L.le s' s'' ∧ WP L S Q (k r) s''

/-- What holds from a state on. -/
def Always (L : Logic σ Op) (q : σ → Prop) (s : σ) : Prop := ∀ t, L.le s t → L.inv t → q t

/-- A postcondition for programs that may end in an error: `R` of a result, `E` of an error. -/
def Returns {ε : Type} (E : ε → Prop) (R : α → σ → Prop) : Except ε α → σ → Prop
  | .ok a, s => R a s
  | .error e, _ => E e

/-- A postcondition for programs that may end in an error, in states that the error tells about. -/
def Ends {ε : Type} (E : ε → σ → Prop) (R : α → σ → Prop) : Except ε α → σ → Prop
  | .ok a, s => R a s
  | .error e, s => E e s

/-- A postcondition for the case that a program succeeds. -/
abbrev OnOk {ε : Type} (R : α → σ → Prop) : Except ε α → σ → Prop := Returns (fun _ => True) R

variable {L : Logic σ Op} {S : System σ κ Op Res β Ch Env} {Q Q' : α → σ → Prop}

variable {s : σ} {p : Prog Op Res α} {R : γ → σ → Prop} {f : γ → ExceptT ε (Prog Op Res) α}
  {Q : α → σ → Prop} {P P' : Pool σ κ Op Res α}

theorem Always.mono {q : σ → Prop} {t : σ} (h : L.Always q s) (hle : L.le s t) : L.Always q t :=
  fun u hu hi => h u (L.trans _ _ _ hle hu) hi

/-- A weakest precondition is knowledge: it persists. -/
theorem WP.mono {t : σ} (h : L.WP S Q p s) (hle : L.le s t) : L.WP S Q p t := by
  cases p with
  | ret a => exact fun s' hs' hi => h s' (L.trans _ _ _ hle hs') hi
  | call o k => exact fun s' hs' hi => h s' (L.trans _ _ _ hle hs') hi

/-- It is enough to establish a weakest precondition in every later state that satisfies the
invariant. -/
theorem WP.of_later (h : ∀ t, L.le s t → L.inv t → L.WP S Q p t) : L.WP S Q p s := by
  cases p with
  | ret a => exact fun s' hs' hi => h s' hs' hi s' (L.refl s') hi
  | call o k => exact fun s' hs' hi => h s' hs' hi s' (L.refl s') hi

/-- A program that has returned satisfies what holds from now on. -/
theorem WP.ret {a : α} (h : ∀ t, L.le s t → L.inv t → Q a t) : L.WP S Q (.ret a) s := h

/-- The rule for one atomic call. -/
theorem WP.call {o : Op} {k : Res o → Prog Op Res α}
    (h : ∀ t, L.le s t → L.inv t → L.allowed o t → ∀ ch t' r, S.exec o ch t = some (t', r) →
      L.inv t' ∧ L.le t t' ∧ L.WP S Q (k r) t') : L.WP S Q (.call o k) s := h

/-- The rule of consequence. -/
theorem WP.weaken (h : L.WP S Q p s) (hQ : ∀ a t, L.le s t → L.inv t → Q a t → Q' a t) :
    L.WP S Q' p s := by
  induction p generalizing s with
  | ret a => exact fun t ht hi => hQ a t ht hi (h t ht hi)
  | call o k ih =>
    intro t ht hi hal ch t' r hex
    obtain ⟨hi', hle, hk⟩ := h t ht hi hal ch t' r hex
    exact ⟨hi', hle, ih r hk (fun a u hu => hQ a u (L.trans _ _ _ ht (L.trans _ _ _ hle hu)))⟩

/-- The rule of sequential composition; what the first program establishes holds from its end on. -/
theorem WP.bind_always {p : Prog Op Res γ} {f : γ → Prog Op Res α} (hp : L.WP S R p s)
    (hf : ∀ a t, L.le s t → L.inv t → L.Always (R a) t → L.WP S Q (f a) t) : L.WP S Q (p >>= f) s := by
  induction p generalizing s with
  | ret a =>
    exact WP.of_later (fun t ht hi =>
      hf a t ht hi (fun u hu hiu => hp u (L.trans _ _ _ ht hu) hiu))
  | call o k ih =>
    intro t ht hi hal ch t' r hex
    obtain ⟨hi', hle, hk⟩ := hp t ht hi hal ch t' r hex
    exact ⟨hi', hle,
      ih r hk (fun a u hu => hf a u (L.trans _ _ _ ht (L.trans _ _ _ hle hu)))⟩

/-- The rule of sequential composition. -/
theorem WP.bind {p : Prog Op Res γ} {f : γ → Prog Op Res α} (hp : L.WP S R p s)
    (hf : ∀ a t, L.le s t → L.inv t → R a t → L.WP S Q (f a) t) : L.WP S Q (p >>= f) s :=
  hp.bind_always (fun a t ht hi hr => hf a t ht hi (hr t (L.refl t) hi))

/-- The rule for a function applied to the result. -/
theorem WP.map {p : Prog Op Res γ} {f : γ → α} (h : L.WP S (fun a => Q (f a)) p s) :
    L.WP S Q (p >>= fun a => .ret (f a)) s :=
  h.bind_always (fun _ _ _ _ hr => hr)

/-- The rule of sequential composition for programs that may end in an error: an error is passed
on. -/
theorem WP.bindExcept_always {R : Except ε γ → σ → Prop} {Q : Except ε α → σ → Prop}
    {p : ExceptT ε (Prog Op Res) γ} (hp : L.WP S R p.run s)
    (hok : ∀ a t, L.le s t → L.inv t → L.Always (R (.ok a)) t → L.WP S Q (f a).run t)
    (herr : ∀ e t, L.le s t → L.inv t → L.Always (R (.error e)) t → L.Always (Q (.error e)) t) :
    L.WP S Q (p >>= f).run s := by
  refine WP.bind_always (p := p.run) (f := ExceptT.bindCont f) hp (fun r t ht hi hr => ?_)
  cases r with
  | ok a => exact hok a t ht hi hr
  | error e => exact herr e t ht hi hr

/-- The rule for a result and an error that tell what holds at the end of the first program only. -/
theorem WP.bindExcept {R : Except ε γ → σ → Prop} {Q : Except ε α → σ → Prop}
    {p : ExceptT ε (Prog Op Res) γ} (hp : L.WP S R p.run s)
    (hok : ∀ a t, L.le s t → L.inv t → R (.ok a) t → L.WP S Q (f a).run t)
    (herr : ∀ e t, L.le s t → L.inv t → R (.error e) t →
      ∀ u, L.le t u → L.inv u → Q (.error e) u) : L.WP S Q (p >>= f).run s :=
  hp.bindExcept_always (fun a t ht hi hr => hok a t ht hi (hr t (L.refl t) hi))
    (fun e t ht hi hr => herr e t ht hi (hr t (L.refl t) hi))

variable {E : ε → σ → Prop} {as : List (PoolAction κ Ch Env)}

/-- The rule of sequential composition for programs that may end in an error: what the error tells is
passed on, too. -/
theorem WP.thenEnds {p : ExceptT ε (Prog Op Res) γ} (hp : L.WP S (Ends E R) p.run s)
    (hf : ∀ a t, L.le s t → L.inv t → L.Always (R a) t → L.WP S (Ends E Q) (f a).run t) :
    L.WP S (Ends E Q) (p >>= f).run s :=
  hp.bindExcept_always hf (fun _ _ _ _ hr => hr)

/-- The rule of sequential composition for programs that may end in an error, which is passed on. -/
theorem WP.andThen {E : ε → Prop} {p : ExceptT ε (Prog Op Res) γ} (hp : L.WP S (Returns E R) p.run s)
    (hf : ∀ a t, L.le s t → L.inv t → L.Always (R a) t → L.WP S (Returns E Q) (f a).run t) :
    L.WP S (Returns E Q) (p >>= f).run s :=
  hp.bindExcept_always hf (fun _ _ _ _ hr => hr)

/-- Nothing but the result matters. -/
theorem WP.onOk {p : Prog Op Res (Except ε α)} (h : L.WP S (Ends E Q) p s) : L.WP S (OnOk Q) p s := by
  refine h.weaken (fun r t _ _ hr => ?_)
  cases r with
  | ok a => exact hr
  | error e => exact trivial

/-- The rule for one atomic call, in a program that may end in an error. -/
theorem WP.perform {o : Op} {R : Res o → σ → Prop} {E : ε → Prop}
    (h : ∀ t, L.le s t → L.inv t → L.allowed o t → ∀ ch t' r, S.exec o ch t = some (t', r) →
      L.inv t' ∧ L.le t t' ∧ L.Always (R r) t') :
    L.WP S (Returns E R) (Prog.perform (ε := ε) o).run s := h

/-- The rule for a pure result. -/
theorem WP.ofResult {R : α → σ → Prop} {r : Except ε α} (h : ∀ a, r = .ok a → L.Always (R a) s) :
    L.WP S (OnOk R) (Prog.ofResult r).run s := by
  cases r with
  | ok a => exact WP.ret (h a rfl)
  | error e => exact WP.ret (fun _ _ _ => trivial)

/-- A program all of whose calls keep the invariant and go up is verified, whatever it returns. -/
theorem WP.of_issues {O : Op → Prop}
    (hexec : ∀ o, O o → ∀ s, L.inv s → L.allowed o s → ∀ ch s' r, S.exec o ch s = some (s', r) →
      L.inv s' ∧ L.le s s') (hp : Prog.Issues O p) (s : σ) : L.WP S (fun _ _ => True) p s := by
  induction p generalizing s with
  | ret a => exact fun _ _ _ => trivial
  | call o k ih =>
    intro t _ hi hal ch t' r hex
    obtain ⟨hi', hle⟩ := hexec o hp.1 t hi hal ch t' r hex
    exact ⟨hi', hle, ih r (hp.2 r) t'⟩

/-- The calls of `O` need no reason: wherever they are allowed, they keep the invariant and go up. -/
def Keeps (L : Logic σ Op) (S : System σ κ Op Res β Ch Env) (O : Op → Prop) : Prop :=
  ∀ o, O o → ∀ s, L.inv s → L.allowed o s → ∀ ch s' r, S.exec o ch s = some (s', r) →
    L.inv s' ∧ L.le s s'

/-- A program of calls that need no reason, and then another one. -/
theorem WP.issues_then {O : Op → Prop} (hO : L.Keeps S O) {R : α → σ → Prop}
    {p : ExceptT ε (Prog Op Res) γ} (hp : Prog.Issues O p.run)
    (hf : ∀ a t, L.le s t → L.inv t → L.WP S (OnOk R) (f a).run t) :
    L.WP S (OnOk R) (p >>= f).run s := by
  refine WP.andThen (R := fun _ _ => True) ((WP.of_issues hO hp s).weaken (fun r _ _ _ _ => ?_))
    (fun a t ht hi _ => hf a t ht hi)
  cases r <;> exact trivial

/-- An error that is wrapped. -/
theorem WP.adapt {ε' : Type} {f : ε → ε'} {p : ExceptT ε (Prog Op Res) α} (h : L.WP S (OnOk Q) p.run s) :
    L.WP S (OnOk Q) (ExceptT.adapt f p).run s := by
  refine WP.bind_always h (fun r t _ _ hr => ?_)
  cases r with
  | ok a => exact WP.ret hr
  | error e => exact WP.ret (fun _ _ _ => trivial)

/-- A weakest precondition depends on the atomic calls of the system only. -/
theorem WP.of_exec {κ' β' Ch' Env' : Type} (h : L.WP S Q p s) (S' : System σ κ' Op Res β' Ch' Env')
    (hexec : ∀ o ch s x, S'.exec o ch s = some x → ∃ ch', S.exec o ch' s = some x) : L.WP S' Q p s := by
  induction p generalizing s with
  | ret a => exact h
  | call o k ih =>
    intro t ht hi hal ch t' r hex
    obtain ⟨ch', hex'⟩ := hexec o ch t _ hex
    obtain ⟨hi', hle, hk⟩ := h t ht hi hal ch' t' r hex'
    exact ⟨hi', hle, ih r hk⟩

/-- What holds of a pool all of whose programs are verified: the invariant, the weakest precondition
of every call in progress, and the postcondition of every finished call, now and in every later
state. -/
structure Sound (L : Logic σ Op) (S : System σ κ Op Res α Ch Env) (post : κ → α → σ → Prop)
    (P : Pool σ κ Op Res α) : Prop where
  /-- The invariant of the shared state. -/
  inv : L.inv P.shared
  /-- Every call in progress is verified from here. -/
  thread : ∀ i c p, P.thread i = some (c, p) → L.WP S (post c) p P.shared
  /-- Every finished call satisfies its postcondition from here on. -/
  finished : ∀ x ∈ P.finished, ∀ t, L.le P.shared t → L.inv t → post x.2.1 x.2.2 t

variable {T : System σ κ Op Res α Ch Env} {pre : κ → σ → Prop} {post : κ → α → σ → Prop}

/-- A pool in which nothing has been issued is sound. -/
theorem Sound.start (h : L.inv s) : L.Sound T post (Pool.start s) :=
  ⟨h, fun i c p hp => (by cases hp), fun x hx => absurd hx List.not_mem_nil⟩

/-- Going up in the preorder keeps a pool sound. -/
theorem Sound.of_le (h : L.Sound T post P) (hle : L.le P.shared s) (hi : L.inv s) :
    L.Sound T post { P with shared := s } :=
  ⟨hi, fun i c p hp => (h.thread i c p hp).mono hle,
    fun x hx t ht hit => h.finished x hx t (L.trans _ _ _ hle ht) hit⟩

/-- Recording a verified program keeps a pool sound. -/
theorem Sound.put {c : κ} (h : L.Sound T post P) (hle : L.le P.shared s) (hi : L.inv s)
    (hp : L.WP T (post c) p s) : L.Sound T post (P.put i c s p) := by
  refine ⟨by rwa [Pool.put_shared], fun j c' p' hj => ?_, fun x hx t ht hit => ?_⟩
  · rw [Pool.put_shared]
    rcases Pool.thread_put hj with ⟨-, rfl, rfl⟩ | ⟨-, hj⟩
    · exact hp
    · exact (h.thread j c' p' hj).mono hle
  · rw [Pool.put_shared] at ht
    rcases Pool.mem_finished_put hx with hx | ⟨a, rfl, rfl⟩
    · exact h.finished x hx t (L.trans _ _ _ hle ht) hit
    · exact hp t ht hit

/-- One allowed step keeps a pool sound and goes up in the preorder. -/
theorem Sound.step (henv : ∀ e s s', L.inv s → T.env e s = some s' → L.inv s' ∧ L.le s s')
    (hprog : ∀ c s, L.inv s → pre c s → L.WP T (post c) (T.prog c) s) {a : PoolAction κ Ch Env}
    (h : L.Sound T post P) (hok : System.Allows pre L.allowed P a) (hs : T.step P a = some P') :
    L.Sound T post P' ∧ L.le P.shared P'.shared := by
  rcases System.step_cases hs with ⟨i, c, rfl, -, rfl⟩ |
    ⟨i, ch, c, o, k, s, r, rfl, hth, hex, rfl⟩ | ⟨e, s, rfl, he, rfl⟩
  · refine ⟨h.put (L.refl _) h.inv (hprog c _ h.inv hok), ?_⟩
    rw [Pool.put_shared]
    exact L.refl _
  · obtain ⟨hi, hle, hk⟩ := h.thread i c _ hth P.shared (L.refl _) h.inv
      (hok (c, .call o k) hth) ch s r hex
    refine ⟨h.put hle hi hk, ?_⟩
    rw [Pool.put_shared]
    exact hle
  · obtain ⟨hi, hle⟩ := henv e P.shared s h.inv he
    exact ⟨h.of_le hle hi, hle⟩

/-- **Soundness of the logic.** If every program meets its specification and the environment respects
the invariant and the preorder, then every allowed interleaving of any number of them keeps the pool
sound, and its end is above its start. -/
theorem run_sound (henv : ∀ e s s', L.inv s → T.env e s = some s' → L.inv s' ∧ L.le s s')
    (hprog : ∀ c s, L.inv s → pre c s → L.WP T (post c) (T.prog c) s)
    (hrun : GuardedRun T.step (System.Allows pre L.allowed) P as P') (h : L.Sound T post P) :
    L.Sound T post P' ∧ L.le P.shared P'.shared := by
  have hstep : ∀ Q a Q', L.Sound T post Q → System.Allows pre L.allowed Q a → T.step Q a = some Q' →
      L.Sound T post Q' ∧ L.le Q.shared Q'.shared :=
    fun Q a Q' hQ hok hs => Sound.step henv hprog hQ hok hs
  refine ⟨hrun.invariant (fun Q a Q' hQ hok hs => (hstep Q a Q' hQ hok hs).1) h, ?_⟩
  exact hrun.relates (fun Q => L.refl Q.shared) (fun Q R U => L.trans Q.shared R.shared U.shared)
    hstep h

/-! ## Following one call -/

/-- What is known of the one call `j`, whatever the others do: it is verified for `Q` from here, or
has returned something that satisfies `Q` from here on. -/
structure Follows (L : Logic σ Op) (S : System σ κ Op Res α Ch Env) (j : Nat) (Q : α → σ → Prop)
    (P : Pool σ κ Op Res α) : Prop where
  used : P.unused j = false
  thread : ∀ c p, P.thread j = some (c, p) → L.WP S Q p P.shared
  finished : ∀ x ∈ P.finished, x.1 = j → L.Always (Q x.2.2) P.shared

/-- A call that is verified when it is issued is followed. -/
theorem follows_spawn {c : κ} (hu : P.unused j = true) (hwp : L.WP T Q (T.prog c) P.shared) :
    L.Follows T j Q (P.put j c P.shared (T.prog c)) := by
  refine ⟨Pool.unused_put (.inr rfl), fun c' p hp => ?_, fun x hx hj => ?_⟩
  · rw [Pool.put_shared]
    rcases Pool.thread_put hp with ⟨-, -, rfl⟩ | ⟨hne, -⟩
    · exact hwp
    · exact absurd rfl hne
  · rw [Pool.put_shared]
    rcases Pool.mem_finished_put hx with hx | ⟨a, ha, rfl⟩
    · simp only [Pool.unused, Bool.and_eq_true, List.all_eq_true, decide_eq_true_eq] at hu
      exact absurd hj (hu.2 x hx)
    · rw [ha] at hwp
      exact hwp

/-- Recording a step of any call keeps following `j`. -/
theorem Follows.put {c : κ} (h : L.Follows T j Q P) (hle : L.le P.shared s) (hp : j = i → L.WP T Q p s) :
    L.Follows T j Q (P.put i c s p) := by
  refine ⟨Pool.unused_put (.inl h.used), fun c' p' hp' => ?_, fun x hx hj => ?_⟩
  · rw [Pool.put_shared]
    rcases Pool.thread_put hp' with ⟨hji, -, rfl⟩ | ⟨-, hp'⟩
    · exact hp hji
    · exact (h.thread c' p' hp').mono hle
  · rw [Pool.put_shared]
    rcases Pool.mem_finished_put hx with hx | ⟨a, rfl, rfl⟩
    · exact (h.finished x hx hj).mono hle
    · exact hp hj.symm

/-- **Following a call through a run**: what it was verified for when it was issued, it returns. -/
theorem follows_run (henv : ∀ e s s', L.inv s → T.env e s = some s' → L.inv s' ∧ L.le s s')
    (hprog : ∀ c s, L.inv s → pre c s → L.WP T (post c) (T.prog c) s)
    (hrun : GuardedRun T.step (System.Allows pre L.allowed) P as P') (h : L.Sound T post P)
    (hj : L.Follows T j Q P) : L.Follows T j Q P' := by
  have hstep : ∀ P a P', L.Sound T post P ∧ L.Follows T j Q P → System.Allows pre L.allowed P a →
      T.step P a = some P' → L.Sound T post P' ∧ L.Follows T j Q P' := by
    rintro P a P' ⟨hP, hjP⟩ hok hs
    refine ⟨(hP.step henv hprog hok hs).1, ?_⟩
    rcases System.step_cases hs with ⟨i, c, rfl, hu, rfl⟩ |
      ⟨i, ch, c, o, k, s, r, rfl, hth, hex, rfl⟩ | ⟨e, s, rfl, he, rfl⟩
    · refine hjP.put (L.refl _) (fun hji => ?_)
      rw [← hji, hjP.used] at hu
      cases hu
    · have hallowed := hok (c, .call o k) hth
      obtain ⟨-, hle, -⟩ := hP.thread i c _ hth P.shared (L.refl _) hP.inv hallowed ch s r hex
      refine hjP.put hle (fun hji => ?_)
      subst hji
      exact (hjP.thread c _ hth P.shared (L.refl _) hP.inv hallowed ch s r hex).2.2
    · obtain ⟨-, hle⟩ := henv e P.shared s hP.inv he
      exact ⟨hjP.used, fun c p hp => (hjP.thread c p hp).mono hle,
        fun x hx hxj => (hjP.finished x hx hxj).mono hle⟩
  exact (hrun.invariant hstep ⟨h, hj⟩).2

end Logic

end EsLite
