import EsLite.Foundation.Interleaving

/-!
# A process that crashes

One program runs at a time over a state, step by step, and may be cut off between any two of its steps.
What is asked of a program is therefore an invariant of all states that it goes through, besides what it
returns.

* `Logic.Alone` — a program that runs alone keeps the invariant and goes up at every step, and returns
  with a postcondition; with one rule for each way of building a program.
* `Prog.follow` — a program with a list of choices, run to its end or cut off before.
* `Process` — programs that are started one after the other, steps of the surroundings between them, and
  crashes, which drop the program that is running.
* `Process.run_inv` — the invariant rule: if every program and every other step keeps the invariant, every
  run does.
-/

namespace EsLite

variable {σ κ Op : Type} {Res : Op → Type} {α β Ch Env : Type}

/-- **Run a program alone**, with one choice for each of its calls: the state that it arrives at, and what
is left of it. -/
def Prog.follow (exec : (o : Op) → Ch → σ → Option (σ × Res o)) :
    List Ch → Prog Op Res α → σ → Option (σ × Prog Op Res α)
  | [], p, s => some (s, p)
  | _ :: _, .ret _, _ => none
  | ch :: chs, .call o k, s => (exec o ch s).bind (fun x => follow exec chs (k x.2) x.1)

variable {s : σ} {p : Prog Op Res α} {exec : (o : Op) → Ch → σ → Option (σ × Res o)} {chs : List Ch}
  {R : β → σ → Prop}

/-- What can be followed when some steps are ruled out can be followed without that. -/
theorem Prog.follow_mono {exec' : (o : Op) → Ch → σ → Option (σ × Res o)}
    (hexec : ∀ o ch s x, exec' o ch s = some x → exec o ch s = some x) {y : σ × Prog Op Res α}
    (h : p.follow exec' chs s = some y) : p.follow exec chs s = some y := by
  induction chs generalizing p s with
  | nil => exact h
  | cons ch chs ih =>
    cases p with
    | ret a => cases h
    | call o k =>
      obtain ⟨x, hx, hrest⟩ := Option.bind_eq_some_iff.mp h
      exact Option.bind_eq_some_iff.mpr ⟨x, hexec o ch s x hx, ih hrest⟩

/-- What every step keeps holds wherever a program is cut off. -/
theorem Prog.follow_invariant (inv : σ → Prop)
    (hexec : ∀ o ch s x, inv s → exec o ch s = some x → inv x.1) (hs : inv s) {y : σ × Prog Op Res α}
    (h : p.follow exec chs s = some y) : inv y.1 := by
  induction chs generalizing p s with
  | nil =>
    cases h
    exact hs
  | cons ch chs ih =>
    cases p with
    | ret a => cases h
    | call o k =>
      obtain ⟨x, hx, hrest⟩ := Option.bind_eq_some_iff.mp h
      exact ih (hexec o ch s x hs hx) hrest

/-- **Every program returns**, if some choice is possible at each call. -/
theorem Prog.exists_follow (hexec : ∀ o s, ∃ ch x, exec o ch s = some x) (p : Prog Op Res α) (s : σ) :
    ∃ chs t a, p.follow exec chs s = some (t, .ret a) := by
  induction p generalizing s with
  | ret a => exact ⟨[], s, a, rfl⟩
  | call o k ih =>
    obtain ⟨ch, x, hx⟩ := hexec o s
    obtain ⟨chs, t, a, hfollow⟩ := ih x.2 x.1
    refine ⟨ch :: chs, t, a, ?_⟩
    rw [Prog.follow, hx]
    exact hfollow

namespace Logic

/-- **A program that runs alone**: each of its atomic calls keeps the invariant and goes up, and what it
returns satisfies `Q`. -/
def Alone (L : Logic σ Op) (exec : (o : Op) → Ch → σ → Option (σ × Res o)) (Q : α → σ → Prop) :
    Prog Op Res α → σ → Prop
  | .ret a, s => Q a s
  | .call o k, s => ∀ ch s' r, exec o ch s = some (s', r) →
      L.inv s' ∧ L.le s s' ∧ Alone L exec Q (k r) s'

variable {L : Logic σ Op} {exec : (o : Op) → Ch → σ → Option (σ × Res o)} {Q : α → σ → Prop}

theorem Alone.weaken {R : α → σ → Prop} (h : L.Alone exec Q p s) (hQ : ∀ a t, Q a t → R a t) :
    L.Alone exec R p s := by
  induction p generalizing s with
  | ret a => exact hQ a s h
  | call o k ih =>
    intro ch s' r hex
    obtain ⟨hinv, hle, hk⟩ := h ch s' r hex
    exact ⟨hinv, hle, ih r hk⟩

/-- **The rule of sequential composition**: what follows starts from a later state. -/
theorem Alone.bind {p : Prog Op Res β} {f : β → Prog Op Res α} (hp : L.Alone exec R p s) (hs : L.inv s)
    (hf : ∀ b t, L.le s t → L.inv t → R b t → L.Alone exec Q (f b) t) : L.Alone exec Q (p >>= f) s := by
  induction p generalizing s with
  | ret b => exact hf b s (L.refl s) hs hp
  | call o k ih =>
    intro ch s' r hex
    obtain ⟨hinv, hle, hk⟩ := hp ch s' r hex
    exact ⟨hinv, hle, ih r hk hinv (fun b t ht => hf b t (L.trans _ _ _ hle ht))⟩

/-- What a finer order knows at the end: that the end lies above the start. The invariant may be one of
the states above the start only. -/
theorem Alone.liftFrom (h : L.Alone exec Q p s) (L' : Logic σ Op)
    (hinv : ∀ t, L.inv t → L.le s t → L'.inv t) (hle : ∀ s t, L.le s t → L'.le s t) :
    L'.Alone exec (fun a t => Q a t ∧ L.le s t) p s := by
  -- the state moves along the program, and the start stays
  suffices hfrom : ∀ s₀, L.le s₀ s → (∀ t, L.inv t → L.le s₀ t → L'.inv t) →
      L'.Alone exec (fun a t => Q a t ∧ L.le s₀ t) p s from hfrom s (L.refl s) hinv
  clear hinv
  induction p generalizing s with
  | ret a => exact fun s₀ hs _ => ⟨h, hs⟩
  | call o k ih =>
    intro s₀ hs hinv ch s' r hex
    obtain ⟨hs', hup, hk⟩ := h ch s' r hex
    have hle' := L.trans _ _ _ hs hup
    exact ⟨hinv s' hs' hle', hle s s' hup, ih r hk s₀ hle' hinv⟩

theorem Alone.lift (h : L.Alone exec Q p s) (L' : Logic σ Op) (hinv : ∀ s, L.inv s → L'.inv s)
    (hle : ∀ s t, L.le s t → L'.le s t) : L'.Alone exec (fun a t => Q a t ∧ L.le s t) p s :=
  h.liftFrom L' (fun t ht _ => hinv t ht) hle

/-- The invariant and the order along a program, wherever it is cut off. -/
theorem Alone.follow {q : Prog Op Res α} {t : σ} (h : L.Alone exec Q p s) (hs : L.inv s)
    (hf : p.follow exec chs s = some (t, q)) : L.inv t ∧ L.le s t ∧ L.Alone exec Q q t := by
  induction chs generalizing p s with
  | nil =>
    obtain ⟨rfl, rfl⟩ := Prod.mk.inj (Option.some.inj hf)
    exact ⟨hs, L.refl s, h⟩
  | cons ch chs ih =>
    cases p with
    | ret a => cases hf
    | call o k =>
      obtain ⟨x, hx, hrest⟩ := Option.bind_eq_some_iff.mp hf
      obtain ⟨hinv, hle, hk⟩ := h ch x.1 x.2 hx
      obtain ⟨ht, hle', hq⟩ := ih hk hinv hrest
      exact ⟨ht, L.trans _ _ _ hle hle', hq⟩

section Except

variable {ε ε' : Type}

variable {E : ε → Prop} {p : ExceptT ε (Prog Op Res) α}

/-- Sequential composition of programs that may end in an error. -/
theorem Alone.andThen {p : ExceptT ε (Prog Op Res) β} {f : β → ExceptT ε (Prog Op Res) α}
    (hp : L.Alone exec (Returns E R) p.run s) (hs : L.inv s)
    (hf : ∀ b t, L.le s t → L.inv t → R b t → L.Alone exec (Returns E Q) (f b).run t) :
    L.Alone exec (Returns E Q) (p >>= f).run s := by
  refine Alone.bind hp hs (fun r t hle ht hr => ?_)
  cases r with
  | ok b => exact hf b t hle ht hr
  | error err => exact hr

/-- Sequential composition, where an error tells about the state. -/
theorem Alone.thenEnds {E : ε → σ → Prop} {p : ExceptT ε (Prog Op Res) β}
    {f : β → ExceptT ε (Prog Op Res) α} (hp : L.Alone exec (Ends E R) p.run s) (hs : L.inv s)
    (hf : ∀ b t, L.le s t → L.inv t → R b t → L.Alone exec (Ends E Q) (f b).run t) :
    L.Alone exec (Ends E Q) (p >>= f).run s := by
  refine Alone.bind hp hs (fun r t hle ht hr => ?_)
  cases r with
  | ok b => exact hf b t hle ht hr
  | error err => exact hr

theorem Alone.perform {o : Op} {R : Res o → σ → Prop}
    (h : ∀ ch s' r, exec o ch s = some (s', r) → L.inv s' ∧ L.le s s' ∧ R r s') :
    L.Alone exec (Returns E R) (Prog.perform o : ExceptT ε (Prog Op Res) (Res o)).run s := h

/-- A call, and what follows it, with any postcondition. -/
theorem Alone.performThen {Q : Except ε α → σ → Prop} {o : Op} {f : Res o → ExceptT ε (Prog Op Res) α}
    (h : ∀ ch s' r, exec o ch s = some (s', r) → L.inv s' ∧ L.le s s' ∧ L.Alone exec Q (f r).run s') :
    L.Alone exec Q (Prog.perform o >>= f).run s := h

/-- A reply that may be an error. -/
theorem Alone.ofReply {r : Except ε α} (h : Returns E Q r s) :
    L.Alone exec (Returns E Q) (Prog.ofResult r : ExceptT ε (Prog Op Res) α).run s := h

theorem Alone.ofResult {r : Except ε α} (h : ∀ a, r = .ok a → Q a s) :
    L.Alone exec (OnOk Q) (Prog.ofResult r : ExceptT ε (Prog Op Res) α).run s := by
  cases r with
  | ok a => exact h a rfl
  | error err => exact trivial

/-- A weaker postcondition, for results and for errors. -/
theorem Alone.returns {E' : ε → Prop} {R : α → σ → Prop} (h : L.Alone exec (Returns E Q) p.run s)
    (hE : ∀ err, E err → E' err) (hQ : ∀ a t, Q a t → R a t) : L.Alone exec (Returns E' R) p.run s := by
  refine h.weaken fun res t hres => ?_
  cases res with
  | ok a => exact hQ a t hres
  | error err => exact hE err hres

theorem Alone.ite {c : Prop} [Decidable c] {q : ExceptT ε (Prog Op Res) α} {Q : Except ε α → σ → Prop}
    (hp : c → L.Alone exec Q p.run s) (hq : ¬ c → L.Alone exec Q q.run s) :
    L.Alone exec Q (if c then p else q).run s := by
  split
  · exact hp ‹_›
  · exact hq ‹_›

/-- A program that is known in a finer order. -/
theorem Alone.liftOk (h : L.Alone exec (OnOk Q) p.run s) (L' : Logic σ Op)
    (hinv : ∀ s, L.inv s → L'.inv s) (hle : ∀ s t, L.le s t → L'.le s t) :
    L'.Alone exec (OnOk fun a t => Q a t ∧ L.le s t) p.run s := by
  refine (h.lift L' hinv hle).weaken fun res t hres => ?_
  cases res with
  | ok a => exact hres
  | error err => exact trivial

/-- An error that is wrapped. -/
theorem Alone.adapt {f : ε → ε'} (h : L.Alone exec (OnOk Q) p.run s) (hs : L.inv s) :
    L.Alone exec (OnOk Q) (ExceptT.adapt f p).run s := by
  refine Alone.bind h hs (fun r t _ _ hr => ?_)
  cases r with
  | ok a => exact hr
  | error err => exact trivial

/-- An error that is wrapped, and tells about the state. -/
theorem Alone.adaptEnds {E : ε' → σ → Prop} {f : ε → ε'}
    (h : L.Alone exec (Ends (fun err => E (f err)) Q) p.run s) (hs : L.inv s) :
    L.Alone exec (Ends E Q) (ExceptT.adapt f p).run s := by
  refine Alone.bind h hs (fun r t _ _ hr => ?_)
  cases r with
  | ok a => exact hr
  | error err => exact hr

/-- A handler starts where the program has failed. -/
theorem Alone.tryCatch {R Q : Except ε α → σ → Prop} {f : ε → ExceptT ε (Prog Op Res) α}
    (hp : L.Alone exec R p.run s) (hs : L.inv s) (hok : ∀ a t, R (.ok a) t → Q (.ok a) t)
    (hf : ∀ err t, L.le s t → L.inv t → R (.error err) t → L.Alone exec Q (f err).run t) :
    L.Alone exec Q (MonadExcept.tryCatch p f).run s := by
  refine Alone.bind hp hs (fun r t hle ht hr => ?_)
  cases r with
  | ok a => exact hok a t hr
  | error err => exact hf err t hle ht hr

end Except

end Logic

/-- A process over a state: its programs, when one can be started, what can happen between two of them,
and what a crash leaves. -/
structure Process (σ κ Op : Type) (Res : Op → Type) (α Ch Env : Type) where
  prog : κ → Prog Op Res α
  exec : (o : Op) → Ch → σ → Option (σ × Res o)
  accepts : κ → σ → Bool
  between : Env → σ → Option σ
  crash : Env → σ → Option σ

/-- The state, and the rest of the program that is running. -/
structure Running (σ Op : Type) (Res : Op → Type) (α : Type) where
  shared : σ
  program : Option (Prog Op Res α)

/-- What can happen to a process. -/
inductive ProcAction (κ Ch Env : Type) : Type where
  | start (c : κ)
  | step (ch : Ch)
  | between (e : Env)
  | crash (e : Env)

namespace Process

/-- A state in which nothing runs. -/
def rest (s : σ) : Running σ Op Res α := ⟨s, none⟩

/-- A program is over when it returns. -/
def put (s : σ) : Prog Op Res α → Running σ Op Res α
  | .ret _ => rest s
  | .call o k => ⟨s, some (.call o k)⟩

/-- One step of a process. -/
def step (S : Process σ κ Op Res α Ch Env) (P : Running σ Op Res α) :
    ProcAction κ Ch Env → Option (Running σ Op Res α)
  | .start c => if P.program.isNone && S.accepts c P.shared then some (put P.shared (S.prog c)) else none
  | .step ch =>
    match P.program with
    | some (.call o k) => (S.exec o ch P.shared).map (fun x => put x.1 (k x.2))
    | _ => none
  | .between e => if P.program.isNone then (S.between e P.shared).map rest else none
  | .crash e => (S.crash e P.shared).map rest

/-- The invariant holds, and what is left of the program keeps it. -/
structure Sound (S : Process σ κ Op Res α Ch Env) (L : Logic σ Op) (P : Running σ Op Res α) : Prop where
  inv : L.inv P.shared
  program : ∀ p, P.program = some p → L.Alone S.exec (fun _ _ => True) p P.shared

variable {S : Process σ κ Op Res α Ch Env} {L : Logic σ Op}

theorem sound_rest (h : L.inv s) : S.Sound L (rest s) := ⟨h, fun _ hp => nomatch hp⟩

theorem sound_put (hs : L.inv s) (hp : L.Alone S.exec (fun _ _ => True) p s) : S.Sound L (put s p) := by
  cases p with
  | ret a => exact sound_rest hs
  | call o k =>
    refine ⟨hs, fun p' h => ?_⟩
    cases h
    exact hp

/-- What every program and every other step has to keep. -/
structure Keeps (S : Process σ κ Op Res α Ch Env) (L : Logic σ Op) : Prop where
  prog : ∀ c s, L.inv s → S.accepts c s = true → L.Alone S.exec (fun _ _ => True) (S.prog c) s
  between : ∀ e s s', L.inv s → S.between e s = some s' → L.inv s'
  crash : ∀ e s s', L.inv s → S.crash e s = some s' → L.inv s'

theorem Sound.step (hS : S.Keeps L) {P P' : Running σ Op Res α} (hP : S.Sound L P)
    {a : ProcAction κ Ch Env} (h : S.step P a = some P') : S.Sound L P' := by
  cases a with
  | start c =>
    simp only [Process.step] at h
    split at h
    · rename_i hok
      cases h
      exact sound_put hP.inv (hS.prog c P.shared hP.inv (Bool.and_eq_true_iff.mp hok).2)
    · cases h
  | step ch =>
    simp only [Process.step] at h
    split at h
    · rename_i o k hprogram
      obtain ⟨⟨t, r⟩, hex, rfl⟩ := Option.map_eq_some_iff.mp h
      obtain ⟨hinv, -, hk⟩ := hP.program _ hprogram ch t r hex
      exact sound_put hinv hk
    · cases h
  | between e =>
    simp only [Process.step] at h
    split at h
    · obtain ⟨t, ht, rfl⟩ := Option.map_eq_some_iff.mp h
      exact sound_rest (hS.between e P.shared t hP.inv ht)
    · cases h
  | crash e =>
    obtain ⟨t, ht, rfl⟩ := Option.map_eq_some_iff.mp h
    exact sound_rest (hS.crash e P.shared t hP.inv ht)

/-- **The invariant rule**: the invariant holds in every state that a run goes through. -/
theorem run_inv (hS : S.Keeps L) (hs : L.inv s) {as : List (ProcAction κ Ch Env)}
    {P : Running σ Op Res α} (hrun : runActions S.step (rest s) as = some P) : L.inv P.shared := by
  have hsound : S.Sound L P :=
    invariant_of_run (fun _ _ _ hP h => Sound.step hS hP h) hrun (sound_rest hs)
  exact hsound.inv

end Process

end EsLite
