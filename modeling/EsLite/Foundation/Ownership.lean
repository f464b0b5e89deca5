import EsLite.Foundation.Interleaving

/-! # Names that programs own

Some calls hand out a name, such as that of a transaction, and later calls of the same program use it.
Nobody else knows the name, so what is kept under it changes only by the calls of its owner. The rely of
the monotone logic is not enough for such programs: what they keep under a name does change, just not by
others.

`Logic.Owns` is the weakest precondition of a program that owns names. Between two of its calls the
others leave alone what is kept under the names it was given, its calls use no other names, and each
call is made in a state that satisfies an obligation `M`. `OwnedPool.run` says that this carries over to
every interleaving; in particular every call of every program is made where its obligation holds
(`OwnedPool.must`). -/

namespace EsLite

/-- How calls hand out and use names. -/
structure Naming (σ Op : Type) (Res : Op → Type) (τ : Type) where
  /-- The call uses the name. -/
  uses : Op → τ → Prop
  /-- The reply hands out the name. -/
  gives : (o : Op) → Res o → τ → Prop
  /-- The name has been handed out. -/
  known : σ → τ → Prop
  /-- What is kept under the name is as it was, as far as its owner can tell. -/
  still : τ → σ → σ → Prop

namespace Naming

variable {σ κ Op τ : Type} {Res : Op → Type} {α β Ch Env : Type}

/-- What the calls of a system do with names: a name is handed out once, and what is kept under it
changes only by calls that use it. -/
structure Private (D : Naming σ Op Res τ) (L : Logic σ Op) (S : System σ κ Op Res β Ch Env) : Prop where
  refl : ∀ x s, D.still x s s
  trans : ∀ x s t u, D.still x s t → D.still x t u → D.still x s u
  known : ∀ x s t, L.le s t → D.known s x → D.known t x
  exec : ∀ o ch s s' r x, S.exec o ch s = some (s', r) → D.known s x → ¬ D.uses o x → D.still x s s'
  env : ∀ e s s' x, S.env e s = some s' → D.known s x → D.still x s s'
  fresh : ∀ o ch s s' r x, S.exec o ch s = some (s', r) → D.gives o r x →
    ¬ D.known s x ∧ D.known s' x

/-- The program uses only names of `T` and names that it is given. -/
def Confined (D : Naming σ Op Res τ) : Prog Op Res α → (τ → Prop) → Prop
  | .ret _, _ => True
  | .call o k, T => (∀ x, D.uses o x → T x) ∧ ∀ r, D.Confined (k r) (fun x => T x ∨ D.gives o r x)

variable {D : Naming σ Op Res τ} {T T' : τ → Prop}

variable {p : Prog Op Res α}

theorem Confined.widen (h : D.Confined p T) (hT : ∀ x, T x → T' x) : D.Confined p T' := by
  induction p generalizing T T' with
  | ret a => exact trivial
  | call o k ih =>
    exact ⟨fun x hx => hT x (h.1 x hx), fun r => ih r (h.2 r) (fun x hx => hx.imp_left (hT x))⟩

/-- A program all of whose calls use names of `T` only. -/
theorem Confined.of_issues (h : Prog.Issues (fun o => ∀ x, D.uses o x → T x) p) : D.Confined p T := by
  induction p with
  | ret a => exact trivial
  | call o k ih => exact ⟨h.1, fun r => (ih r (h.2 r)).widen (fun _ hx => .inl hx)⟩

theorem Confined.bind {f : α → Prog Op Res β} (hp : D.Confined p T) (hf : ∀ a, D.Confined (f a) T) :
    D.Confined (p >>= f) T := by
  induction p generalizing T with
  | ret a => exact hf a
  | call o k ih =>
    exact ⟨hp.1, fun r => ih r (hp.2 r) (fun a => (hf a).widen (fun _ hx => .inl hx))⟩

/-- Sequential composition for programs that may end in an error. -/
theorem Confined.bindExcept {ε : Type} {p : ExceptT ε (Prog Op Res) α}
    {f : α → ExceptT ε (Prog Op Res) β} (hp : D.Confined p.run T)
    (hf : ∀ a, D.Confined (f a).run T) : D.Confined (p >>= f).run T := by
  refine Confined.bind hp (fun r => ?_)
  cases r with
  | ok a => exact hf a
  | error e => exact trivial

end Naming

namespace Logic

variable {σ κ Op τ : Type} {Res : Op → Type} {α β Ch Env : Type}

/-- What the owner of the names `T` can rely on. -/
def Rely (L : Logic σ Op) (D : Naming σ Op Res τ) (T : τ → Prop) (s s' : σ) : Prop :=
  L.le s s' ∧ ∀ x, T x → D.still x s s'

/-- What holds from a state on, as far as the others are concerned. -/
def Stable (L : Logic σ Op) (D : Naming σ Op Res τ) (T : τ → Prop) (q : σ → Prop) (s : σ) : Prop :=
  ∀ t, L.Rely D T s t → L.inv t → q t

/-- **Weakest precondition with names.** The program owns the names `T`; each of its calls uses only
names it owns, meets the obligation `M`, keeps the invariant and goes up, and what it returns satisfies
`Q`. -/
def Owns (L : Logic σ Op) (S : System σ κ Op Res β Ch Env) (D : Naming σ Op Res τ)
    (M : Op → σ → Prop) (Q : α → σ → Prop) : Prog Op Res α → (τ → Prop) → σ → Prop
  | .ret a, T, s => L.Stable D T (Q a) s
  | .call o k, T, s => ∀ s', L.Rely D T s s' → L.inv s' → L.allowed o s' →
      (∀ x, D.uses o x → T x) ∧ M o s' ∧ ∀ ch s'' r, S.exec o ch s' = some (s'', r) →
        L.inv s'' ∧ L.le s' s'' ∧ Owns L S D M Q (k r) (fun x => T x ∨ D.gives o r x) s''

variable {L : Logic σ Op} {S : System σ κ Op Res β Ch Env} {D : Naming σ Op Res τ}
  {M M' : Op → σ → Prop} {Q Q' : α → σ → Prop} {T T' : τ → Prop} {p : Prog Op Res α} {s : σ}

theorem Rely.refl (hD : D.Private L S) (s : σ) : L.Rely D T s s :=
  ⟨L.refl s, fun x _ => hD.refl x s⟩

theorem Rely.trans (hD : D.Private L S) {t u : σ} (hst : L.Rely D T s t) (htu : L.Rely D T t u) :
    L.Rely D T s u :=
  ⟨L.trans _ _ _ hst.1 htu.1, fun x hx => hD.trans x s t u (hst.2 x hx) (htu.2 x hx)⟩

theorem Stable.mono (hD : D.Private L S) {q : σ → Prop} {t : σ} (h : L.Stable D T q s)
    (hle : L.Rely D T s t) : L.Stable D T q t :=
  fun u hu hi => h u (hle.trans hD hu) hi

/-- What others do keeps a weakest precondition. -/
theorem Owns.mono (hD : D.Private L S) {t : σ} (h : L.Owns S D M Q p T s)
    (hle : L.Rely D T s t) : L.Owns S D M Q p T t := by
  cases p with
  | ret a => exact h.mono hD hle
  | call o k => exact fun s' hs' hi => h s' (hle.trans hD hs') hi

/-- A program that owns more names can rely on more. -/
theorem Owns.widen (h : L.Owns S D M Q p T s) (hT : ∀ x, T x → T' x) : L.Owns S D M Q p T' s := by
  induction p generalizing T T' s with
  | ret a => exact fun t ht hi => h t ⟨ht.1, fun x hx => ht.2 x (hT x hx)⟩ hi
  | call o k ih =>
    intro s' hs' hi hal
    obtain ⟨huses, hM, hexec⟩ := h s' ⟨hs'.1, fun x hx => hs'.2 x (hT x hx)⟩ hi hal
    refine ⟨fun x hx => hT x (huses x hx), hM, fun ch s'' r hex => ?_⟩
    obtain ⟨hi', hle, hk⟩ := hexec ch s'' r hex
    exact ⟨hi', hle, ih r hk (fun x hx => hx.imp_left (hT x))⟩

/-- It is enough to establish it in every later state that satisfies the invariant. -/
theorem Owns.of_later (hD : D.Private L S)
    (h : ∀ t, L.Rely D T s t → L.inv t → L.Owns S D M Q p T t) : L.Owns S D M Q p T s := by
  cases p with
  | ret a => exact fun t ht hi => h t ht hi t (.refl hD t) hi
  | call o k => exact fun s' hs' hi => h s' hs' hi s' (.refl hD s') hi

/-- The rule of consequence, for obligations and results. -/
theorem Owns.weaken (h : L.Owns S D M Q p T s) (hM : ∀ o t, M o t → M' o t)
    (hQ : ∀ a t, L.inv t → Q a t → Q' a t) : L.Owns S D M' Q' p T s := by
  induction p generalizing T s with
  | ret a => exact fun t ht hi => hQ a t hi (h t ht hi)
  | call o k ih =>
    intro s' hs' hi hal
    obtain ⟨huses, hMs, hexec⟩ := h s' hs' hi hal
    refine ⟨huses, hM o s' hMs, fun ch s'' r hex => ?_⟩
    obtain ⟨hi', hle, hk⟩ := hexec ch s'' r hex
    exact ⟨hi', hle, ih r hk⟩

/-- The rule of sequential composition. -/
theorem Owns.bind (hD : D.Private L S) {γ : Type} {R : γ → σ → Prop} {p : Prog Op Res γ}
    {f : γ → Prog Op Res α} (hp : L.Owns S D M R p T s)
    (hf : ∀ a T' t, (∀ x, T x → T' x) → L.inv t → R a t → L.Owns S D M Q (f a) T' t) :
    L.Owns S D M Q (p >>= f) T s := by
  induction p generalizing T s with
  | ret a =>
    exact Owns.of_later hD (fun t ht hi => hf a T t (fun _ hx => hx) hi (hp t ht hi))
  | call o k ih =>
    intro s' hs' hi hal
    obtain ⟨huses, hM, hexec⟩ := hp s' hs' hi hal
    refine ⟨huses, hM, fun ch s'' r hex => ?_⟩
    obtain ⟨hi', hle, hk⟩ := hexec ch s'' r hex
    exact ⟨hi', hle, ih r hk (fun a T' t hT => hf a T' t (fun x hx => hT x (.inl hx)))⟩

/-- The rule of sequential composition for programs that may end in an error, which is passed on;
what it tells has to last. -/
theorem Owns.andThen (hD : D.Private L S) {γ ε : Type} {E : ε → σ → Prop} {R : γ → σ → Prop}
    {p : ExceptT ε (Prog Op Res) γ} {f : γ → ExceptT ε (Prog Op Res) α}
    (hE : ∀ e t u (T' : τ → Prop), (∀ x, T x → T' x) → L.Rely D T' t u → E e t → E e u)
    (hp : L.Owns S D M (Ends E R) p.run T s) (hf : ∀ a T' t, (∀ x, T x → T' x) → L.inv t → R a t →
      L.Owns S D M (Ends E Q) (f a).run T' t) : L.Owns S D M (Ends E Q) (p >>= f).run T s := by
  refine Owns.bind hD hp (fun r T' t hT hi hr => ?_)
  cases r with
  | ok a => exact hf a T' t hT hi hr
  | error e => exact fun u hu _ => hE e t u T' hT hu hr

/-- A program that is verified in the monotone logic, uses its own names and owes nothing. -/
theorem Owns.of_wp (h : L.WP S Q p s) (hM : Prog.Issues (fun o => ∀ t, M o t) p)
    (hT : D.Confined p T) : L.Owns S D M Q p T s := by
  induction p generalizing T s with
  | ret a => exact fun t ht hi => h t ht.1 hi
  | call o k ih =>
    refine fun s' hs' hi hal => ⟨hT.1, hM.1 s', fun ch s'' r hex => ?_⟩
    obtain ⟨hi', hle, hk⟩ := h s' hs'.1 hi hal ch s'' r hex
    exact ⟨hi', hle, ih r hk (hM.2 r) (hT.2 r)⟩

/-! ## Every interleaving -/

/-- What holds of a pool all of whose programs own the names they use: each name has one owner. -/
structure OwnedPool (L : Logic σ Op) (S : System σ κ Op Res α Ch Env) (D : Naming σ Op Res τ)
    (M : κ → Op → σ → Prop) (P : Pool σ κ Op Res α) : Prop where
  inv : L.inv P.shared
  owners : ∃ own : Nat → τ → Prop,
    (∀ i c p, P.thread i = some (c, p) →
      L.Owns S D (M c) (fun _ _ => True) p (own i) P.shared) ∧
    (∀ i j x, own i x → own j x → i = j) ∧ ∀ i x, own i x → D.known P.shared x

variable {U : System σ κ Op Res α Ch Env} {N : κ → Op → σ → Prop} {pre : κ → σ → Prop}

theorem OwnedPool.start (h : L.inv s) : L.OwnedPool U D N (Pool.start s) :=
  ⟨h, fun _ _ => False, fun _ _ _ hp => (by cases hp), fun _ _ _ hx => hx.elim,
    fun _ _ hx => hx.elim⟩

variable {P : Pool σ κ Op Res α}

/-- **Every call is made where its obligation holds.** -/
theorem OwnedPool.must (hD : D.Private L U) (h : L.OwnedPool U D N P) {i : Nat} {c : κ} {o : Op}
    {k : Res o → Prog Op Res α} (hi : P.thread i = some (c, .call o k))
    (hallowed : L.allowed o P.shared) : N c o P.shared := by
  obtain ⟨own, howns, -⟩ := h.owners
  exact ((howns i c _ hi) P.shared (.refl hD _) h.inv hallowed).2.1

/-- Recording what call `i` still has to do, with the names it owns then. -/
theorem OwnedPool.put (hD : D.Private L U) {own : Nat → τ → Prop} {i : Nat} {c : κ} {s : σ}
    {p : Prog Op Res α} {T : τ → Prop} (howns : ∀ j c p, j ≠ i → P.thread j = some (c, p) →
      L.Owns U D (N c) (fun _ _ => True) p (own j) P.shared) (hone : ∀ j k x, own j x → own k x → j = k)
    (hknown : ∀ j x, own j x → D.known P.shared x) (hi : L.inv s)
    (hrely : ∀ j, j ≠ i → L.Rely D (own j) P.shared s) (hle : L.le P.shared s)
    (hp : L.Owns U D (N c) (fun _ _ => True) p T s)
    (hT : ∀ x, T x → D.known s x ∧ ∀ j, j ≠ i → ¬ own j x) : L.OwnedPool U D N (P.put i c s p) := by
  refine ⟨by rwa [Pool.put_shared], Function.update own i T, ?_, ?_, ?_⟩
  · intro j c' p' hj
    rw [Pool.put_shared]
    rcases Pool.thread_put hj with ⟨rfl, rfl, rfl⟩ | ⟨hne, hj⟩
    · rwa [Function.update_self]
    · rw [Function.update_of_ne hne]
      exact (howns j c' p' hne hj).mono hD (hrely j hne)
  · intro j k x hj hk
    by_cases hji : j = i <;> by_cases hki : k = i
    · exact hji.trans hki.symm
    · rw [hji, Function.update_self] at hj
      rw [Function.update_of_ne hki] at hk
      exact absurd hk ((hT x hj).2 k hki)
    · rw [Function.update_of_ne hji] at hj
      rw [hki, Function.update_self] at hk
      exact absurd hj ((hT x hk).2 j hji)
    · rw [Function.update_of_ne hji] at hj
      rw [Function.update_of_ne hki] at hk
      exact hone j k x hj hk
  · intro j x hj
    rw [Pool.put_shared]
    by_cases hji : j = i
    · rw [hji, Function.update_self] at hj
      exact (hT x hj).1
    · rw [Function.update_of_ne hji] at hj
      exact hD.known x P.shared s hle (hknown j x hj)

/-- One allowed step. -/
theorem OwnedPool.step (hD : D.Private L U)
    (henv : ∀ e s s', L.inv s → U.env e s = some s' → L.inv s' ∧ L.le s s')
    (hprog : ∀ c s, L.inv s → pre c s →
      L.Owns U D (N c) (fun _ _ => True) (U.prog c) (fun _ => False) s) {P' : Pool σ κ Op Res α}
    {a : PoolAction κ Ch Env} (h : L.OwnedPool U D N P) (hok : System.Allows pre L.allowed P a)
    (hs : U.step P a = some P') : L.OwnedPool U D N P' := by
  obtain ⟨own, howns, hone, hknown⟩ := h.owners
  rcases System.step_cases hs with ⟨i, c, rfl, -, rfl⟩ |
    ⟨i, ch, c, o, k, s, r, rfl, hth, hex, rfl⟩ | ⟨e, s, rfl, he, rfl⟩
  · exact OwnedPool.put hD (fun j c p _ => howns j c p) hone hknown h.inv (fun _ _ => .refl hD _)
      (L.refl _) (hprog c _ h.inv hok) (fun _ hx => hx.elim)
  · obtain ⟨huses, -, hexec⟩ := howns i c _ hth P.shared (.refl hD _) h.inv (hok (c, .call o k) hth)
    obtain ⟨hi, hle, hk⟩ := hexec ch s r hex
    refine OwnedPool.put hD (fun j c p _ => howns j c p) hone hknown hi (fun j hj => ⟨hle, ?_⟩) hle hk
      (fun x hx => ?_)
    · -- the call uses names of its own program only
      intro x hx
      exact hD.exec o ch P.shared s r x hex (hknown j x hx)
        (fun hu => hj (hone j i x hx (huses x hu)))
    · rcases hx with hx | hx
      · exact ⟨hD.known x _ _ hle (hknown i x hx), fun j hj hjx => hj (hone j i x hjx hx)⟩
      · obtain ⟨hnew, hold⟩ := hD.fresh o ch P.shared s r x hex hx
        exact ⟨hold, fun j _ hjx => hnew (hknown j x hjx)⟩
  · obtain ⟨hi, hle⟩ := henv e P.shared s h.inv he
    refine ⟨hi, own, fun j c p hj => ?_, hone, fun j x hx => hD.known x _ _ hle (hknown j x hx)⟩
    exact (howns j c p hj).mono hD
      ⟨hle, fun x hx => hD.env e P.shared s x he (hknown j x hx)⟩

/-- **Every interleaving of programs that own their names** keeps each name with one owner. -/
theorem OwnedPool.run (hD : D.Private L U)
    (henv : ∀ e s s', L.inv s → U.env e s = some s' → L.inv s' ∧ L.le s s')
    (hprog : ∀ c s, L.inv s → pre c s →
      L.Owns U D (N c) (fun _ _ => True) (U.prog c) (fun _ => False) s) {P' : Pool σ κ Op Res α}
    {as : List (PoolAction κ Ch Env)} (hrun : GuardedRun U.step (System.Allows pre L.allowed) P as P')
    (h : L.OwnedPool U D N P) : L.OwnedPool U D N P' :=
  hrun.invariant (fun _ _ _ hP hok hs => hP.step hD henv hprog hok hs) h

end Logic

end EsLite
