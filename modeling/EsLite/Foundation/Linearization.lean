import EsLite.Foundation.Interleaving
import Mathlib.Data.List.Nodup

/-! # Programs that take effect in their last step

A program over a shared state is *linearized at its end* when every atomic call before its last one
leaves the state as it is, and what it returns describes what the last call did: `Logic.Lin spec p s`
says so for `p` from `s` on, with `spec a t t'` relating the result to the state right before and
right after the last call. Other parties only go up in the logic's preorder, so the program may know
things about the states it has passed.

When all programs of a system are of this kind, every interleaving of them is a `Trace`: the calls
that returned, taken one at a time in the order in which they did, lead from the first shared state
to the last one (`Logic.Linear.run`). `Trace.simulates` then replays a trace on an abstract state. -/

namespace EsLite

/-! ## Traces -/

section Trace

variable {σ τ β : Type}

/-- The steps of a list, one after another, lead from `s` to `t`. -/
def Trace (spec : β → σ → σ → Prop) : List β → σ → σ → Prop
  | [], s, t => s = t
  | b :: bs, s, t => ∃ u, spec b s u ∧ Trace spec bs u t

variable {spec : β → σ → σ → Prop}

variable {bs : List β}

/-- One more step at the end of a trace. -/
theorem Trace.concat {b : β} {s t u : σ} (h : Trace spec bs s t) (hb : spec b t u) :
    Trace spec (bs ++ [b]) s u := by
  induction bs generalizing s with
  | nil =>
    obtain rfl : s = t := h
    exact ⟨u, hb, rfl⟩
  | cons c cs ih =>
    obtain ⟨m, hc, hcs⟩ := h
    exact ⟨m, hc, ih hcs⟩

/-- What each step of a partial fold keeps, the fold keeps. -/
theorem foldlM_keeps {f : τ → β → Option τ} {Q : β → τ → Prop}
    (hkeep : ∀ b c u v, f u b = some v → Q c u → Q c v) {c : β} {u v : τ} (h : bs.foldlM f u = some v)
    (hu : Q c u) : Q c v := by
  induction bs generalizing u with
  | nil => exact Option.some.inj h ▸ hu
  | cons b bs ih =>
    rw [List.foldlM_cons] at h
    obtain ⟨w, hw, hv⟩ := Option.bind_eq_some_iff.mp h
    exact ih hv (hkeep b c u w hw hu)

/-- **Replaying a trace.** If every step of a trace is matched by a step `f` of an abstract state,
the abstract steps run through; `Q` is what each of them establishes for good. -/
theorem Trace.simulates {R : σ → τ → Prop} {f : τ → β → Option τ} {Q : β → τ → Prop}
    (hstep : ∀ b s t u, spec b s t → R s u → ∃ v, f u b = some v ∧ R t v ∧ Q b v)
    (hkeep : ∀ b c u v, f u b = some v → Q c u → Q c v) {s t : σ} {u : τ} (h : Trace spec bs s t)
    (hs : R s u) : ∃ v, bs.foldlM f u = some v ∧ R t v ∧ ∀ b ∈ bs, Q b v := by
  induction bs generalizing s u with
  | nil =>
    obtain rfl : s = t := h
    exact ⟨u, rfl, hs, by simp⟩
  | cons b bs ih =>
    obtain ⟨m, hb, hbs⟩ := h
    obtain ⟨w, hw, hm, hq⟩ := hstep b s m u hb hs
    obtain ⟨v, hv, ht, hall⟩ := ih hbs hm
    refine ⟨v, by rw [List.foldlM_cons, hw]; exact hv, ht, fun c hc => ?_⟩
    rcases List.mem_cons.mp hc with rfl | hc
    · exact foldlM_keeps hkeep hv hq
    · exact hall c hc

end Trace

namespace Logic

variable {σ κ Op : Type} {Res : Op → Type} {α β Ch Env : Type}

/-! ## One program -/

/-- **Linearization at the end.** Whatever the other parties do in between, each atomic call of the
program keeps the invariant and goes up; either it is the last one and `spec` relates its effect to
what is returned, or it leaves the state as it is. -/
def Lin (L : Logic σ Op) (S : System σ κ Op Res β Ch Env) (spec : α → σ → σ → Prop) :
    Prog Op Res α → σ → Prop
  | .ret a, s => ∀ t, L.le s t → L.inv t → spec a t t
  | .call o k, s => ∀ t, L.le s t → L.inv t → L.allowed o t →
      ∀ ch t' r, S.exec o ch t = some (t', r) →
        L.inv t' ∧ L.le t t' ∧ ((∃ a, k r = .ret a ∧ spec a t t') ∨ (t' = t ∧ Lin L S spec (k r) t'))

/-- What is left of a program after an atomic call that led from `t` to `t'`: it has returned and the
call was its effect, or the call had no effect and the program is linearized from here on. -/
def Left (L : Logic σ Op) (S : System σ κ Op Res β Ch Env) (spec : α → σ → σ → Prop)
    (p : Prog Op Res α) (t t' : σ) : Prop :=
  (∃ a, p = .ret a ∧ spec a t t') ∨ (t' = t ∧ L.Lin S spec p t')

variable {L : Logic σ Op} {S : System σ κ Op Res β Ch Env} {spec spec' : α → σ → σ → Prop}

/-- The program has returned, and the last call was its effect. -/
theorem Left.ret {a : α} {t t' : σ} (h : spec a t t') : L.Left S spec (.ret a) t t' :=
  .inl ⟨a, rfl, h⟩

variable {p : Prog Op Res α} {s : σ}

/-- The last call had no effect. -/
theorem Left.silent {t : σ} (h : L.Lin S spec p t) : L.Left S spec p t t :=
  .inr ⟨rfl, h⟩

/-- What a program that has returned says of the last call, when the invariant holds. -/
theorem Left.spec_of_ret {a : α} {t t' : σ} (h : L.Left S spec (.ret a) t t') (hi : L.inv t') :
    spec a t t' := by
  rcases h with ⟨b, hb, h⟩ | ⟨rfl, h⟩
  · cases hb
    exact h
  · exact h t' (L.refl t') hi

/-- The rule for one atomic call. -/
theorem Lin.call {o : Op} {k : Res o → Prog Op Res α}
    (h : ∀ t, L.le s t → L.inv t → L.allowed o t → ∀ ch t' r, S.exec o ch t = some (t', r) →
      L.inv t' ∧ L.le t t' ∧ L.Left S spec (k r) t t') : L.Lin S spec (.call o k) s := h

/-- The rule for an atomic call that never changes the state. -/
theorem Lin.read {o : Op} {k : Res o → Prog Op Res α}
    (hread : ∀ ch t t' r, S.exec o ch t = some (t', r) → t' = t)
    (h : ∀ t, L.le s t → L.inv t → ∀ ch r, S.exec o ch t = some (t, r) →
      L.Left S spec (k r) t t) : L.Lin S spec (.call o k) s := by
  intro t ht hi _ ch t' r hex
  obtain rfl := hread ch t t' r hex
  exact ⟨hi, L.refl t', h t' ht hi ch r hex⟩

/-- Being linearized is knowledge: it persists. -/
theorem Lin.mono {t : σ} (h : L.Lin S spec p s) (hle : L.le s t) : L.Lin S spec p t := by
  cases p with
  | ret a => exact fun u hu hi => h u (L.trans _ _ _ hle hu) hi
  | call o k => exact fun u hu hi => h u (L.trans _ _ _ hle hu) hi

/-- The rule of consequence. -/
theorem Lin.weaken (h : L.Lin S spec p s) (hspec : ∀ a t t', L.le s t → spec a t t' → spec' a t t') :
    L.Lin S spec' p s := by
  induction p generalizing s with
  | ret a => exact fun t ht hi => hspec a t t ht (h t ht hi)
  | call o k ih =>
    intro t ht hi hal ch t' r hex
    obtain ⟨hi', hle, hk⟩ := h t ht hi hal ch t' r hex
    refine ⟨hi', hle, ?_⟩
    rcases hk with ⟨a, ha, hs⟩ | ⟨rfl, hk⟩
    · exact .inl ⟨a, ha, hspec a t t' ht hs⟩
    · exact .inr ⟨rfl, ih r hk (fun a u u' hu => hspec a u u' (L.trans _ _ _ ht hu))⟩

/-- The rule of sequential composition: the second program is what is left of the whole after the
first. -/
theorem Lin.bind {γ : Type} {p : Prog Op Res γ} {f : γ → Prog Op Res α}
    (h : L.Lin S (fun a t t' => L.Left S spec (f a) t t') p s) : L.Lin S spec (p >>= f) s := by
  induction p generalizing s with
  | ret a =>
    rw [Prog.ret_bind]
    have hleft : ∀ t, L.le s t → L.inv t → L.Left S spec (f a) t t := h
    generalize f a = q at hleft ⊢
    cases q with
    | ret b => exact fun t ht hi => (hleft t ht hi).spec_of_ret hi
    | call o k =>
      intro t ht hi
      rcases hleft t ht hi with ⟨b, hb, -⟩ | ⟨-, hlin⟩
      · cases hb
      · exact hlin t (L.refl t) hi
  | call o k ih =>
    intro t ht hi hal ch t' r hex
    obtain ⟨hi', hle, hk⟩ := h t ht hi hal ch t' r hex
    refine ⟨hi', hle, ?_⟩
    rcases hk with ⟨a, ha, hleft⟩ | ⟨rfl, hk⟩
    · simp only [ha]
      exact hleft
    · exact .inr ⟨rfl, ih r hk⟩

/-- A postcondition of the first of two programs that may end in an error, which is passed on. -/
def Handing {γ ε : Type} (L : Logic σ Op) (S : System σ κ Op Res β Ch Env)
    (spec : Except ε α → σ → σ → Prop) (f : γ → ExceptT ε (Prog Op Res) α) :
    Except ε γ → σ → σ → Prop
  | .ok a, t, t' => L.Left S spec (f a).run t t'
  | .error e, t, t' => spec (.error e) t t'

/-- The rule of sequential composition for programs that may end in an error. -/
theorem Lin.andThen {γ ε : Type} {spec : Except ε α → σ → σ → Prop} {p : ExceptT ε (Prog Op Res) γ}
    {f : γ → ExceptT ε (Prog Op Res) α} (h : L.Lin S (L.Handing S spec f) p.run s) :
    L.Lin S spec (p >>= f).run s := by
  refine Lin.bind (p := p.run) (f := ExceptT.bindCont f) (h.weaken (fun r t t' _ hr => ?_))
  cases r with
  | ok a => exact hr
  | error e => exact .ret hr

/-! ## A pool of programs -/

/-- What holds of a pool all of whose programs are linearized at their ends: the invariant, the
linearization of every call in progress, and that the finished calls are a trace from `s₀` to the
shared state in which every call occurs once. -/
structure Linear (L : Logic σ Op) (S : System σ κ Op Res α Ch Env) (post : κ → α → σ → σ → Prop)
    (s₀ : σ) (P : Pool σ κ Op Res α) : Prop where
  inv : L.inv P.shared
  thread : ∀ i c p, P.thread i = some (c, p) → L.Lin S (post c) p P.shared
  finished : Trace (fun x => post x.2.1 x.2.2) P.finished s₀ P.shared
  /-- No call has returned twice. -/
  once : (P.finished.map (·.1)).Nodup
  /-- A call in progress has not returned. -/
  running : ∀ i x, P.thread i = some x → i ∉ P.finished.map (·.1)

variable {T : System σ κ Op Res α Ch Env} {post : κ → α → σ → σ → Prop} {s₀ : σ}

/-- A pool in which nothing has been issued. -/
theorem Linear.start (h : L.inv s₀) : L.Linear T post s₀ (Pool.start s₀) :=
  ⟨h, fun i c p hp => (by cases hp), rfl, List.nodup_nil, fun i x hx => (by cases hx)⟩

/-- Recording what is left of a call after an atomic call of it keeps a pool linear. -/
theorem Linear.put {P : Pool σ κ Op Res α} {i : Nat} {c : κ} (h : L.Linear T post s₀ P)
    (hfresh : i ∉ P.finished.map (·.1)) (hi : L.inv s) (hle : L.le P.shared s)
    (hp : L.Left T (post c) p P.shared s) : L.Linear T post s₀ (P.put i c s p) := by
  cases p with
  | ret a =>
    -- the call returns: its effect is one more step of the trace
    refine ⟨hi, fun j c' p' hj => ?_, h.finished.concat (b := (i, c, a)) (hp.spec_of_ret hi), ?_,
      fun j x hj => ?_⟩
    · rcases Pool.thread_put hj with ⟨rfl, -, -⟩ | ⟨-, hj⟩
      · rw [Pool.thread_put_ret] at hj
        cases hj
      · exact (h.thread j c' p' hj).mono hle
    · simp only [Pool.put, List.map_append, List.map_singleton]
      exact List.nodup_append.mpr ⟨h.once, List.nodup_singleton i, by
        rintro a ha b hb rfl
        exact hfresh (List.mem_singleton.mp hb ▸ ha)⟩
    · obtain ⟨c', p'⟩ := x
      rcases Pool.thread_put hj with ⟨rfl, -, -⟩ | ⟨hne, hj⟩
      · rw [Pool.thread_put_ret] at hj
        cases hj
      · simp only [Pool.put, List.map_append, List.map_singleton, List.mem_append,
          List.mem_singleton, not_or]
        exact ⟨h.running j _ hj, hne⟩
  | call o k =>
    -- the call goes on: the atomic call had no effect
    obtain ⟨rfl, hlin⟩ : s = P.shared ∧ L.Lin T (post c) (.call o k) s := by
      rcases hp with ⟨a, ha, -⟩ | h
      · cases ha
      · exact h
    refine ⟨hi, fun j c' p' hj => ?_, h.finished, h.once, fun j x hj => ?_⟩
    · rcases Pool.thread_put hj with ⟨-, rfl, rfl⟩ | ⟨-, hj⟩
      · exact hlin
      · exact h.thread j c' p' hj
    · obtain ⟨c', p'⟩ := x
      rcases Pool.thread_put hj with ⟨rfl, -, -⟩ | ⟨-, hj⟩
      · exact hfresh
      · exact h.running j _ hj

/-- One step keeps a pool linear, when the environment does not touch the state. -/
theorem Linear.step (hal : ∀ o s, L.allowed o s) (henv : ∀ e s s', T.env e s = some s' → s' = s)
    (hprog : ∀ c s, L.inv s → L.Lin T (post c) (T.prog c) s) {P P' : Pool σ κ Op Res α}
    {a : PoolAction κ Ch Env} (h : L.Linear T post s₀ P) (hs : T.step P a = some P') :
    L.Linear T post s₀ P' := by
  rcases System.step_cases hs with ⟨i, c, rfl, hu, rfl⟩ |
    ⟨i, ch, c, o, k, s, r, rfl, hth, hex, rfl⟩ | ⟨e, s, rfl, he, rfl⟩
  · have hfresh : i ∉ P.finished.map (·.1) := by
      simp only [Pool.unused, Bool.and_eq_true, List.all_eq_true, decide_eq_true_eq] at hu
      intro hmem
      obtain ⟨x, hx, hxi⟩ := List.mem_map.mp hmem
      exact hu.2 x hx hxi
    exact h.put hfresh h.inv (L.refl _) (.silent (hprog c _ h.inv))
  · obtain ⟨hi, hle, hleft⟩ := h.thread i c _ hth P.shared (L.refl _) h.inv (hal o _) ch s r hex
    exact h.put (h.running i _ hth) hi hle hleft
  · obtain rfl := henv e P.shared s he
    exact h

/-- **Every interleaving is a trace.** If every program is linearized at its end, then after any run
the calls that returned, one at a time and in that order, account for the shared state. -/
theorem Linear.run (hal : ∀ o s, L.allowed o s) (henv : ∀ e s s', T.env e s = some s' → s' = s)
    (hprog : ∀ c s, L.inv s → L.Lin T (post c) (T.prog c) s) {P P' : Pool σ κ Op Res α}
    {as : List (PoolAction κ Ch Env)} (hrun : runActions T.step P as = some P')
    (h : L.Linear T post s₀ P) : L.Linear T post s₀ P' :=
  invariant_of_run (fun _ _ _ hP hs => hP.step hal henv hprog hs) hrun h

end Logic

end EsLite
