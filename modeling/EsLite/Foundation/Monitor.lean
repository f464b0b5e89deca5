import EsLite.Foundation.History

/-!
# Watching a program

A *monitor* reads the calls of a program and their replies, one after another, and says of each call whether
it may be made. A program is *watched* when the monitor accepts all its calls, whatever the replies are; what
the monitor has noted by a call is then read off the history before it.

In a pool each call may be watched by a monitor of its own, and what all of them have noted is kept beside the
shared state. `Tracked.run` is the invariant rule for the two together.

A program may also make calls on the side that its purpose does not depend on. `Prog.Erases` says that a
program does, apart from such calls, what another one does.
-/

namespace EsLite

variable {σ Op : Type} {Res : Op → Type} {α β G : Type}

/-- A monitor: which calls it accepts, and what it notes of a call and its reply. -/
structure Monitor (G Op : Type) (Res : Op → Type) where
  accepts : G → Op → Prop
  note : G → (o : Op) → Res o → G

namespace Monitor

variable (M : Monitor G Op Res)

/-- What is noted after a history. -/
def after (g : G) (es : List (Performed σ Op Res)) : G := es.foldl (fun g e => M.note g e.op e.reply) g

end Monitor

variable {g : G} {Q : β → G → Prop} {ε : Type}

namespace Prog

variable {M : Monitor G Op Res}

/-- **A watched program**: the monitor accepts each of its calls, and what it returns is related to what has
been noted by then. -/
def Watched (M : Monitor G Op Res) (Q : α → G → Prop) : Prog Op Res α → G → Prop
  | .ret a, g => Q a g
  | .call o k, g => M.accepts g o ∧ ∀ r, Watched M Q (k r) (M.note g o r)

theorem Watched.weaken {Q Q' : α → G → Prop} {p : Prog Op Res α} (h : Watched M Q p g)
    (hQ : ∀ a g, Q a g → Q' a g) : Watched M Q' p g := by
  induction p generalizing g with
  | ret a => exact hQ a g h
  | call o k ih => exact ⟨h.1, fun r => ih r (h.2 r)⟩

/-- Weaken what is known of a result, in a program that may end in an error. -/
theorem Watched.onOk {Q Q' : α → G → Prop} {p : Prog Op Res (Except ε α)}
    (h : Watched M (Logic.OnOk Q) p g) (hQ : ∀ a g, Q a g → Q' a g) : Watched M (Logic.OnOk Q') p g := by
  refine h.weaken (fun r g hr => ?_)
  cases r with
  | ok a => exact hQ a g hr
  | error err => trivial

/-- The rule of sequential composition. -/
theorem Watched.bind {p : Prog Op Res α} {f : α → Prog Op Res β}
    (h : Watched M (fun a g => Watched M Q (f a) g) p g) : Watched M Q (p >>= f) g := by
  induction p generalizing g with
  | ret a => exact h
  | call o k ih => exact ⟨h.1, fun r => ih r (h.2 r)⟩

/-- The rule of sequential composition for programs that may end in an error, after which nothing is left to
be watched. -/
theorem Watched.andThen {p : ExceptT ε (Prog Op Res) α} {f : α → ExceptT ε (Prog Op Res) β}
    (h : Watched M (Logic.OnOk fun a g => Watched M (Logic.OnOk Q) (f a).run g) p.run g) :
    Watched M (Logic.OnOk Q) (p >>= f).run g := by
  refine Watched.bind (f := ExceptT.bindCont f) (h.weaken fun r g hr => ?_)
  cases r with
  | ok a => exact hr
  | error err => trivial

/-- The rule of sequential composition for programs that may end in an error, which tells about the notes,
too. -/
theorem Watched.thenEnds {E : ε → G → Prop} {p : ExceptT ε (Prog Op Res) α}
    {f : α → ExceptT ε (Prog Op Res) β}
    (h : Watched M (Logic.Ends E fun a g => Watched M (Logic.Ends E Q) (f a).run g) p.run g) :
    Watched M (Logic.Ends E Q) (p >>= f).run g := by
  refine Watched.bind (f := ExceptT.bindCont f) (h.weaken fun r g hr => ?_)
  cases r with
  | ok a => exact hr
  | error err => exact hr

/-- Calls that are always accepted keep what their notes keep. -/
theorem Watched.of_issues {O : Op → Prop} {I : G → Prop}
    (hO : ∀ o, O o → ∀ g, I g → M.accepts g o ∧ ∀ r, I (M.note g o r)) {p : Prog Op Res α}
    (hp : Issues O p) (hg : I g) : Watched M (fun _ g => I g) p g := by
  induction p generalizing g with
  | ret a => exact hg
  | call o k ih => exact ⟨(hO o hp.1 g hg).1, fun r => ih r (hp.2 r) ((hO o hp.1 g hg).2 r)⟩

/-- **Every call of a history** of a watched program was accepted, after what had been noted before it. -/
theorem Watched.accepts {Q : α → G → Prop} {p q : Prog Op Res α} (h : Watched M Q p g)
    {es : List (Performed σ Op Res)} (hes : Performs es p q) {pre post : List (Performed σ Op Res)}
    {e : Performed σ Op Res} (heq : es = pre ++ e :: post) : M.accepts (M.after g pre) e.op := by
  induction pre generalizing es p g with
  | nil =>
    subst heq
    obtain ⟨k, rfl, -⟩ := hes
    exact h.1
  | cons x pre ih =>
    subst heq
    obtain ⟨k, rfl, hrest⟩ := hes
    exact ih (h.2 x.reply) hrest rfl

/-! ## Calls on the side -/

section Erases

variable {Op' : Type} {Res' : Op' → Type}

/-- The same program over other calls. -/
def translate (f : Op → Op') (back : ∀ o, Res' (f o) → Res o) : Prog Op Res α → Prog Op' Res' α
  | .ret a => .ret a
  | .call o k => .call (f o) (fun r => translate f back (k (back o r)))

variable {f : Op → Op'} {back : ∀ o, Res' (f o) → Res o}

theorem Issues.translate {O : Op → Prop} {O' : Op' → Prop} (hO : ∀ o, O o → O' (f o)) {p : Prog Op Res α}
    (hp : Issues O p) : Issues O' (translate f back p) := by
  induction p with
  | ret a => trivial
  | call o k ih => exact ⟨hO o hp.1, fun r => ih (back o r) (hp.2 (back o r))⟩

/-- **Calls on the side**: a program makes the calls of another one, as `view` shows them, and between them
others, whose replies do not matter. -/
inductive Erases (view : (o' : Op') → Option ((o : Op) × (Res' o' → Res o))) :
    Prog Op' Res' α → Prog Op Res α → Prop
  | ret (a : α) : Erases view (.ret a) (.ret a)
  | call {o' : Op'} {o : Op} {back : Res' o' → Res o} {k' : Res' o' → Prog Op' Res' α}
      {k : Res o → Prog Op Res α} (hview : view o' = some ⟨o, back⟩)
      (hk : ∀ r, Erases view (k' r) (k (back r))) : Erases view (.call o' k') (.call o k)
  | aside {o' : Op'} {k' : Res' o' → Prog Op' Res' α} {p : Prog Op Res α} (hview : view o' = none)
      (hk : ∀ r, Erases view (k' r) p) : Erases view (.call o' k') p

variable {view : (o' : Op') → Option ((o : Op) × (Res' o' → Res o))}

theorem Erases.bind {p' : Prog Op' Res' α} {p : Prog Op Res α} {g : α → Prog Op' Res' β}
    {f : α → Prog Op Res β} (h : Erases view p' p) (hf : ∀ a, Erases view (g a) (f a)) :
    Erases view (p' >>= g) (p >>= f) := by
  induction h with
  | ret a => exact hf a
  | call hview _ ih => exact .call hview ih
  | aside hview _ ih => exact .aside hview ih

/-- The rule of sequential composition for programs that may end in an error. -/
theorem Erases.bindExcept {p' : ExceptT ε (Prog Op' Res') α} {p : ExceptT ε (Prog Op Res) α}
    {g : α → ExceptT ε (Prog Op' Res') β} {f : α → ExceptT ε (Prog Op Res) β}
    (h : Erases view p'.run p.run) (hf : ∀ a, Erases view (g a).run (f a).run) :
    Erases view (p' >>= g).run (p >>= f).run := by
  refine Erases.bind (g := ExceptT.bindCont g) (f := ExceptT.bindCont f) h (fun r => ?_)
  cases r with
  | ok a => exact hf a
  | error err => exact .ret _

/-- A program that only makes calls on the side, before another one. -/
theorem Erases.asides {p' : Prog Op' Res' α} {g : α → Prog Op' Res' β} {p : Prog Op Res β}
    (hp : Issues (fun o' => view o' = none) p') (hg : ∀ a, Erases view (g a) p) :
    Erases view (p' >>= g) p := by
  induction p' with
  | ret a => exact hg a
  | call o k ih => exact .aside hp.1 (fun r => ih r (hp.2 r))

theorem erases_translate (hview : ∀ o, view (f o) = some ⟨o, back o⟩) (p : Prog Op Res α) :
    Erases view (translate f back p) p := by
  induction p with
  | ret a => exact .ret a
  | call o k ih => exact .call (hview o) (fun r => ih (back o r))

/-- What a call of a history shows of itself. -/
def viewed (view : (o' : Op') → Option ((o : Op) × (Res' o' → Res o))) (e : Performed σ Op' Res') :
    Option (Performed σ Op Res) :=
  (view e.op).map (fun x => ⟨x.1, e.before, e.after, x.2 e.reply⟩)

/-- **What is left of a history** without the calls on the side is performed by the other program. -/
theorem Erases.performs {p' q' : Prog Op' Res' α} {p : Prog Op Res α} (h : Erases view p' p)
    {es : List (Performed σ Op' Res')} (hes : Performs es p' q') :
    ∃ q, Performs (es.filterMap (viewed view)) p q ∧ Erases view q' q := by
  induction h generalizing es with
  | ret a =>
    obtain ⟨rfl, rfl⟩ := performs_ret.mp hes
    exact ⟨.ret a, rfl, .ret a⟩
  | call hview hk ih =>
    rcases performs_call.mp hes with ⟨rfl, rfl⟩ | ⟨s, t, r, rest, rfl, hrest⟩
    · exact ⟨_, rfl, .call hview hk⟩
    · obtain ⟨q, hq, herases⟩ := ih r hrest
      refine ⟨q, ?_, herases⟩
      rw [List.filterMap_cons_some (by rw [viewed, hview]; rfl)]
      exact ⟨_, rfl, hq⟩
  | aside hview hk ih =>
    rcases performs_call.mp hes with ⟨rfl, rfl⟩ | ⟨s, t, r, rest, rfl, hrest⟩
    · exact ⟨_, rfl, .aside hview hk⟩
    · obtain ⟨q, hq, herases⟩ := ih r hrest
      refine ⟨q, ?_, herases⟩
      rw [List.filterMap_cons_none (by rw [viewed, hview]; rfl)]
      exact hq

end Erases

end Prog

/-! ## Watching the calls of a pool -/

section Pool

variable {κ Ch Env : Type}

/-- **A pool whose calls are watched**, each by a monitor of its own, with what has been noted of each: nothing
before it is issued, and something that satisfies `Q` when it has returned. -/
structure Tracked (M : Nat → Monitor G Op Res) (g₀ : G) (Q : G → Prop) (P : Pool σ κ Op Res α)
    (gs : Nat → G) : Prop where
  fresh : ∀ j, P.unused j = true → gs j = g₀
  running : ∀ j c p, P.thread j = some (c, p) → Prog.Watched (M j) (fun _ => Q) p (gs j)
  returned : ∀ j, P.thread j = none → Q (gs j)

variable {M : Nat → Monitor G Op Res} {g₀ : G} {Q : G → Prop} {P : Pool σ κ Op Res α} {gs : Nat → G}

theorem Tracked.start (hg : Q g₀) (s : σ) :
    Tracked M g₀ Q (Pool.start s : Pool σ κ Op Res α) (fun _ => g₀) :=
  ⟨fun _ _ => rfl, fun _ _ _ h => (by cases h), fun _ _ => hg⟩

/-- Recording a watched program. -/
theorem Tracked.put (h : Tracked M g₀ Q P gs) {j : Nat} {p : Prog Op Res α}
    (hp : Prog.Watched (M j) (fun _ => Q) p g) (c : κ) (s : σ) :
    Tracked M g₀ Q (P.put j c s p) (Function.update gs j g) := by
  refine ⟨fun x hx => ?_, fun x c' p' hx => ?_, fun x hx => ?_⟩
  · have hne : x ≠ j := by
      rintro rfl
      rw [Pool.unused_put (.inr rfl)] at hx
      cases hx
    rw [Function.update_of_ne hne]
    apply h.fresh x
    by_contra hused
    rw [Pool.unused_put (.inl (Bool.eq_false_iff.mpr hused))] at hx
    cases hx
  · rcases Pool.thread_put hx with ⟨rfl, rfl, rfl⟩ | ⟨hne, hold⟩
    · rw [Function.update_self]
      exact hp
    · rw [Function.update_of_ne hne]
      exact h.running x c' p' hold
  · by_cases hne : x = j
    · subst hne
      rw [Function.update_self]
      cases p with
      | ret a => exact hp
      | call o k =>
        simp only [Pool.put, Function.update_self] at hx
        cases hx
    · rw [Function.update_of_ne hne]
      exact h.returned x (by rwa [Pool.thread_put_of_ne hne] at hx)

/-- **The invariant rule**: an invariant of the shared state and the notes holds in every run of watched calls,
if each atomic call that the monitor accepts keeps it, and the environment does. -/
theorem Tracked.run {S : System σ κ Op Res α Ch Env} {I : σ → (Nat → G) → Prop}
    {ok : Pool σ κ Op Res α → PoolAction κ Ch Env → Prop}
    (hspawn : ∀ P j c, ok P (.spawn j c) → Prog.Watched (M j) (fun _ => Q) (S.prog c) g₀)
    (hstep : ∀ P gs j ch c o k s r, Tracked M g₀ Q P gs → I P.shared gs → ok P (.step j ch) →
      P.thread j = some (c, .call o k) → (M j).accepts (gs j) o → S.exec o ch P.shared = some (s, r) →
      I s (Function.update gs j ((M j).note (gs j) o r)))
    (henv : ∀ e s s' gs, I s gs → S.env e s = some s' → I s' gs) {as : List (PoolAction κ Ch Env)}
    {P' : Pool σ κ Op Res α} (hrun : GuardedRun S.step ok P as P') (h : Tracked M g₀ Q P gs)
    (hI : I P.shared gs) : ∃ gs', Tracked M g₀ Q P' gs' ∧ I P'.shared gs' := by
  have hkeep : ∀ R a R', (∃ gs, Tracked M g₀ Q R gs ∧ I R.shared gs) → ok R a → S.step R a = some R' →
      ∃ gs, Tracked M g₀ Q R' gs ∧ I R'.shared gs := by
    rintro R a R' ⟨gs, hR, hI⟩ hok hs
    rcases System.step_cases hs with ⟨j, c, rfl, hu, rfl⟩ | ⟨j, ch, c, o, k, s, r, rfl, hth, hex, rfl⟩ |
      ⟨e, s, rfl, he, rfl⟩
    · -- nothing has been noted of the new call
      have hwatched := hspawn R j c hok
      rw [← hR.fresh j hu] at hwatched
      have hput := hR.put hwatched c R.shared
      rw [Function.update_eq_self] at hput
      refine ⟨gs, hput, ?_⟩
      rw [Pool.put_shared]
      exact hI
    · have hwatched := hR.running j c _ hth
      refine ⟨_, hR.put (hwatched.2 r) c s, ?_⟩
      rw [Pool.put_shared]
      exact hstep R gs j ch c o k s r hR hI hok hth hwatched.1 hex
    · exact ⟨gs, ⟨hR.fresh, hR.running, hR.returned⟩, henv e _ s gs hI he⟩
  exact hrun.invariant hkeep ⟨gs, h, hI⟩

end Pool

end EsLite
