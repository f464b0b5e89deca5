import EsLite.Foundation.Interleaving

/-! # Replies that decide what a program returns

After some replies the result of a program is settled, whatever else happens: a conflict that was found
is returned, a commit that was made is not undone. `Prog.Decides` says so of a program, case by case
along its calls, and `Logic.returns_decided` of a call in any interleaving: once it has got such a
reply, it returns what was decided. -/

namespace EsLite

namespace Prog

variable {Op : Type} {Res : Op → Type} {α β : Type} {O : Op → Prop}

/-- Everything the program can return satisfies `A`, whatever the replies are. -/
def Results (A : α → Prop) : Prog Op Res α → Prop
  | .ret a => A a
  | .call _ k => ∀ r, Results A (k r)

variable {p : Prog Op Res α} {trig : (o : Op) → Res o → Prop}

theorem Results.bind {A : β → Prop} {f : α → Prog Op Res β} (h : Results (fun a => Results A (f a)) p) :
    Results A (p >>= f) := by
  induction p with
  | ret a => exact h
  | call o k ih => exact fun r => ih r (h r)

theorem results_true (p : Prog Op Res α) : Results (fun _ => True) p := by
  induction p with
  | ret a => exact trivial
  | call o k ih => exact ih

/-- Once a call gets a reply in `trig`, whatever happens then, the program returns something that
satisfies `A`. -/
def Decides (trig : (o : Op) → Res o → Prop) (A : α → Prop) : Prog Op Res α → Prop
  | .ret _ => True
  | .call o k => ∀ r, (trig o r → Results A (k r)) ∧ Decides trig A (k r)

theorem Decides.bind {A : β → Prop} {f : α → Prog Op Res β}
    (hp : Decides trig (fun a => Results A (f a)) p) (hf : ∀ a, Decides trig A (f a)) :
    Decides trig A (p >>= f) := by
  induction p with
  | ret a => exact hf a
  | call o k ih => exact fun r => ⟨fun hr => ((hp r).1 hr).bind, ih r (hp r).2⟩

theorem Results.mono {A A' : α → Prop} (hA : ∀ a, A a → A' a) (h : Results A p) : Results A' p := by
  induction p with
  | ret a => exact hA a h
  | call o k ih => exact fun r => ih r (h r)

theorem Decides.mono {A A' : α → Prop} (hA : ∀ a, A a → A' a) (h : Decides trig A p) :
    Decides trig A' p := by
  induction p with
  | ret a => exact trivial
  | call o k ih => exact fun r => ⟨fun hr => ((h r).1 hr).mono hA, ih r (h r).2⟩

/-- The rule of sequential composition for programs that may end in an error, where the replies decide
on an error. -/
theorem Decides.bindExcept {ε : Type} {B : ε → Prop} {p : ExceptT ε (Prog Op Res) α}
    {f : α → ExceptT ε (Prog Op Res) β} (hp : Decides trig (fun r => ∃ e, r = .error e ∧ B e) p.run)
    (hf : ∀ a, Decides trig (fun r => ∃ e, r = .error e ∧ B e) (f a).run) :
    Decides trig (fun r => ∃ e, r = .error e ∧ B e) (p >>= f).run := by
  refine Decides.bind (hp.mono (fun r hr => ?_)) (fun r => ?_)
  · obtain ⟨e, rfl, he⟩ := hr
    exact ⟨e, rfl, he⟩
  · cases r with
    | ok a => exact hf a
    | error e => exact trivial

/-- A program none of whose calls gets such a reply. -/
theorem Decides.of_issues {A : α → Prop} (h : Issues (fun o => ∀ r, ¬ trig o r) p) :
    Decides trig A p := by
  induction p with
  | ret a => exact trivial
  | call o k ih => exact fun r => ⟨fun hr => absurd hr (h.1 r), ih r (h.2 r)⟩

/-- A program none of whose calls gets such a reply, and then another one. -/
theorem Decides.issues_then {ε : Type} {A : Except ε β → Prop} {p : ExceptT ε (Prog Op Res) α}
    {f : α → ExceptT ε (Prog Op Res) β} (hp : Issues (fun o => ∀ r, ¬ trig o r) p.run)
    (hf : ∀ a, Decides trig A (f a).run) : Decides trig A (p >>= f).run := by
  refine Decides.bind (of_issues hp) (fun r => ?_)
  cases r with
  | ok a => exact hf a
  | error e => exact trivial

end Prog

namespace Logic

variable {σ κ Op : Type} {Res : Op → Type} {α β Ch Env : Type} {S : System σ κ Op Res β Ch Env}
  {T : System σ κ Op Res α Ch Env}

/-- The logic in which nothing is known. -/
def blank (σ Op : Type) : Logic σ Op where
  inv _ := True
  le _ _ := True
  allowed _ _ := True
  refl _ := trivial
  trans _ _ _ _ _ := trivial

theorem wp_blank {A : α → Prop} {p : Prog Op Res α} (h : p.Results A) (s : σ) :
    (blank σ Op).WP S (fun a _ => A a) p s := by
  induction p generalizing s with
  | ret a => exact fun _ _ _ => h
  | call o k ih => exact fun _ _ _ _ _ s'' r _ => ⟨trivial, trivial, ih r (h r) s''⟩

/-- A running call has not returned, and its program decides. -/
structure Deciding (trig : κ → (o : Op) → Res o → Prop) (A : κ → α → Prop) (P : Pool σ κ Op Res α) :
    Prop where
  running : ∀ i c p, P.thread i = some (c, p) → ∀ x ∈ P.finished, x.1 ≠ i
  decides : ∀ i c p, P.thread i = some (c, p) → p.Decides (trig c) (A c)

variable {A : κ → α → Prop}

theorem Deciding.put {trig : κ → (o : Op) → Res o → Prop} {P : Pool σ κ Op Res α} (h : Deciding trig A P)
    {i : Nat} {c : κ} {s : σ} {p : Prog Op Res α} (hi : ∀ x ∈ P.finished, x.1 ≠ i)
    (hp : p.Decides (trig c) (A c)) : Deciding trig A (P.put i c s p) := by
  refine ⟨fun j c' p' hj x hx => ?_, fun j c' p' hj => ?_⟩
  · rcases Pool.mem_finished_put hx with hfin | ⟨a, rfl, rfl⟩
    · rcases Pool.thread_put hj with ⟨rfl, -⟩ | ⟨-, hj⟩
      · exact hi x hfin
      · exact h.running j c' p' hj x hfin
    · rcases Pool.thread_put hj with ⟨rfl, -, -⟩ | ⟨hne, -⟩
      · rw [Pool.thread_put_ret] at hj
        cases hj
      · exact Ne.symm hne
  · rcases Pool.thread_put hj with ⟨-, rfl, rfl⟩ | ⟨-, hj⟩
    · exact hp
    · exact h.decides j c' p' hj

theorem Deciding.run {trig : κ → (o : Op) → Res o → Prop}
    (hprog : ∀ c, (T.prog c).Decides (trig c) (A c)) {P P' : Pool σ κ Op Res α}
    {as : List (PoolAction κ Ch Env)} (hrun : runActions T.step P as = some P') (h : Deciding trig A P) :
    Deciding trig A P' := by
  refine invariant_of_run (fun P a P' hP hs => ?_) hrun h
  rcases System.step_cases hs with ⟨i, c, rfl, hu, rfl⟩ |
    ⟨i, ch, c, o, k, s, r, rfl, hth, hex, rfl⟩ | ⟨e, s, rfl, he, rfl⟩
  · refine hP.put (fun x hx => ?_) (hprog c)
    simp only [Pool.unused, Bool.and_eq_true, List.all_eq_true, decide_eq_true_eq] at hu
    exact hu.2 x hx
  · exact hP.put (hP.running i c _ hth) ((hP.decides i c _ hth r).2)
  · exact ⟨hP.running, hP.decides⟩

/-- **A deciding reply.** Once a call has got a reply that decides, it returns what was decided. -/
theorem returns_decided {trig : κ → (o : Op) → Res o → Prop}
    (hprog : ∀ c, (T.prog c).Decides (trig c) (A c)) {s₀ s : σ} {P P' : Pool σ κ Op Res α}
    {as bs : List (PoolAction κ Ch Env)} {i : Nat} {c : κ} {o : Op} {k : Res o → Prog Op Res α}
    {r : Res o} (hrun : runActions T.step (Pool.start s₀) as = some P)
    (hth : P.thread i = some (c, .call o k)) (htrig : trig c o r)
    (hlater : runActions T.step (P.put i c s (k r)) bs = some P') :
    ∀ x ∈ P'.finished, x.1 = i → A c x.2.2 := by
  have hP : Deciding trig A P := Deciding.run hprog hrun
    ⟨fun i c p hp => (by cases hp), fun i c p hp => (by cases hp)⟩
  have hfollows : (blank σ Op).Follows T i (fun a _ => A c a) (P.put i c s (k r)) := by
    refine ⟨Pool.unused_put (.inr rfl), fun c' p hp => ?_, fun x hx hxi => ?_⟩
    · rcases Pool.thread_put hp with ⟨-, -, rfl⟩ | ⟨hne, -⟩
      · exact wp_blank ((hP.decides i c _ hth r).1 htrig) _
      · exact absurd rfl hne
    · rcases Pool.mem_finished_put hx with hx | ⟨a, ha, rfl⟩
      · exact absurd hxi (hP.running i c _ hth x hx)
      · have hresult := (hP.decides i c _ hth r).1 htrig
        rw [ha] at hresult
        exact fun _ _ _ => hresult
  have hany : ∀ (p : Prog Op Res α) (s : σ), (blank σ Op).WP T (fun _ _ => True) p s := fun p s =>
    wp_blank (p.results_true) s
  have hguarded : GuardedRun T.step (System.Allows (fun _ _ => True) (blank σ Op).allowed)
      (P.put i c s (k r)) bs P' :=
    (guardedRun_of_run hlater).mono (fun Q a _ =>
      System.allows_of_forall (fun _ _ => trivial) (fun _ _ => trivial) Q a)
  have hsound : (blank σ Op).Sound T (fun _ _ _ => True) (P.put i c s (k r)) :=
    ⟨trivial, fun _ _ p _ => hany p _, fun _ _ _ _ _ => trivial⟩
  have hend := follows_run (fun _ _ _ _ _ => ⟨trivial, trivial⟩) (fun c s _ _ => hany (T.prog c) s)
    hguarded hsound hfollows
  exact fun x hx hxi => hend.finished x hx hxi P'.shared trivial trivial

end Logic

end EsLite
