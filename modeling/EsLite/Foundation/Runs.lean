import Mathlib.Logic.Function.Basic
import Mathlib.Data.List.Induction

/-! # Runs of a partial step function

A system is a partial step function `step : σ → α → Option σ`: `none` says that the action is not
enabled. A **run** is a list of actions taken one after another. The file gives the run function,
its composition laws, and the two rules every safety proof of the development goes through: an
invariant kept by each step is kept by each run, and a preorder that every step respects relates the
two ends of every run. Both come in a *guarded* form, in which only runs whose steps all meet a side
condition are considered.

A component that answers every request is a total step function with a reply, and `serve` its run;
two components whose states stay related answer alike (`serve_eq_of_simulation`). -/

namespace EsLite

variable {σ α : Type*}

/-- Take the actions of a list in order, from `s`; `none` as soon as one is not enabled. -/
def runActions (step : σ → α → Option σ) : σ → List α → Option σ
  | s, [] => some s
  | s, a :: as => (step s a).bind (fun s' => runActions step s' as)

@[simp] theorem runActions_nil (step : σ → α → Option σ) (s : σ) : runActions step s [] = some s := rfl

theorem runActions_cons (step : σ → α → Option σ) (s : σ) (a : α) (as : List α) :
    runActions step s (a :: as) = (step s a).bind (fun s' => runActions step s' as) := rfl

variable {step : σ → α → Option σ} {as : List α} {s t : σ} {q inv : σ → Prop} {ok : σ → α → Prop}
  {P : α → Prop}

/-- A run over `a :: as` is a step by `a` followed by a run over `as`. -/
theorem runActions_cons_eq_some {a : α} :
    runActions step s (a :: as) = some t ↔
      ∃ s', step s a = some s' ∧ runActions step s' as = some t := by
  rw [runActions_cons, Option.bind_eq_some_iff]

/-- A run to a state with a property, found by running it: a decidable one that it follows from is
checked of the end. -/
theorem exists_run_of (inv : σ → Prop) [DecidablePred inv]
    (h : (runActions step s as).any (fun t => inv t) = true)
    (hq : ∀ t, runActions step s as = some t → inv t → q t) : ∃ t, runActions step s as = some t ∧ q t := by
  cases ht : runActions step s as with
  | none =>
    rw [ht] at h
    cases h
  | some t =>
    rw [ht] at h
    exact ⟨t, rfl, hq t ht (of_decide_eq_true h)⟩

/-- A run to a state with a decidable property. -/
theorem exists_run [DecidablePred q] (h : (runActions step s as).any (fun t => q t) = true) :
    ∃ t, runActions step s as = some t ∧ q t :=
  exists_run_of _ h (fun _ _ hq => hq)

/-- Runs compose. -/
theorem runActions_append {bs : List α} :
    runActions step s (as ++ bs) = some t ↔
      ∃ m, runActions step s as = some m ∧ runActions step m bs = some t := by
  induction as generalizing s with
  | nil => simp
  | cons a as ih =>
    rw [List.cons_append, runActions_cons_eq_some]
    constructor
    · rintro ⟨s', hs, hrun⟩
      obtain ⟨m, hm, ht⟩ := ih.mp hrun
      exact ⟨m, runActions_cons_eq_some.mpr ⟨s', hs, hm⟩, ht⟩
    · rintro ⟨m, hm, ht⟩
      obtain ⟨s', hs, hrun⟩ := runActions_cons_eq_some.mp hm
      exact ⟨s', hs, ih.mpr ⟨m, hrun, ht⟩⟩

/-- **Guarded runs**: every step is taken in a state where the side condition `ok` allows it. -/
def GuardedRun (step : σ → α → Option σ) (ok : σ → α → Prop) : σ → List α → σ → Prop
  | s, [], t => s = t
  | s, a :: as, t => ok s a ∧ ∃ s', step s a = some s' ∧ GuardedRun step ok s' as t

/-- A guarded run is a run. -/
theorem GuardedRun.run (h : GuardedRun step ok s as t) : runActions step s as = some t := by
  induction as generalizing s with
  | nil => exact congrArg some h
  | cons a as ih =>
    obtain ⟨-, s', hs, hrun⟩ := h
    exact runActions_cons_eq_some.mpr ⟨s', hs, ih hrun⟩

/-- Every run is guarded by the condition that allows everything. -/
theorem guardedRun_of_run (h : runActions step s as = some t) :
    GuardedRun step (fun _ _ => True) s as t := by
  induction as generalizing s with
  | nil => exact Option.some.inj h
  | cons a as ih =>
    obtain ⟨s', hs, hrun⟩ := runActions_cons_eq_some.mp h
    exact ⟨trivial, s', hs, ih hrun⟩

/-- A weaker side condition allows more runs. -/
theorem GuardedRun.mono {ok' : σ → α → Prop} (hok : ∀ s a, ok s a → ok' s a)
    (h : GuardedRun step ok s as t) : GuardedRun step ok' s as t := by
  induction as generalizing s with
  | nil => exact h
  | cons a as ih =>
    obtain ⟨ha, s', hs, hrun⟩ := h
    exact ⟨hok s a ha, s', hs, ih hrun⟩

/-- Guarded runs compose. -/
theorem guardedRun_append {bs : List α} :
    GuardedRun step ok s (as ++ bs) t ↔ ∃ m, GuardedRun step ok s as m ∧ GuardedRun step ok m bs t := by
  induction as generalizing s with
  | nil =>
    constructor
    · exact fun h => ⟨s, rfl, h⟩
    · rintro ⟨m, rfl, h⟩
      exact h
  | cons a as ih =>
    constructor
    · rintro ⟨ha, s', hs, hrun⟩
      obtain ⟨m, hm, ht⟩ := ih.mp hrun
      exact ⟨m, ⟨ha, s', hs, hm⟩, ht⟩
    · rintro ⟨m, ⟨ha, s', hs, hm⟩, ht⟩
      exact ⟨ha, s', hs, ih.mpr ⟨m, hm, ht⟩⟩

/-- Take the actions of a list in order, checking the side condition before each. -/
def runGuarded (step : σ → α → Option σ) (ok : σ → α → Prop) [∀ s a, Decidable (ok s a)] :
    σ → List α → Option σ
  | s, [] => some s
  | s, a :: as => if ok s a then (step s a).bind (fun s' => runGuarded step ok s' as) else none

/-- A run that passes all its checks is a guarded run. -/
theorem guardedRun_of_runGuarded [∀ s a, Decidable (ok s a)] (h : runGuarded step ok s as = some t) :
    GuardedRun step ok s as t := by
  induction as generalizing s with
  | nil => exact Option.some.inj h
  | cons a as ih =>
    rw [runGuarded] at h
    split at h
    · rename_i hok
      obtain ⟨s', hs, hrun⟩ := Option.bind_eq_some_iff.mp h
      exact ⟨hok, s', hs, ih hrun⟩
    · cases h

/-- A guarded run to a state with a property, found by running it. -/
theorem exists_guardedRun_of [∀ s a, Decidable (ok s a)] (inv : σ → Prop) [DecidablePred inv]
    (h : (runGuarded step ok s as).any (fun t => inv t) = true)
    (hq : ∀ t, GuardedRun step ok s as t → inv t → q t) : ∃ t, GuardedRun step ok s as t ∧ q t := by
  cases ht : runGuarded step ok s as with
  | none =>
    rw [ht] at h
    cases h
  | some t =>
    rw [ht] at h
    have hrun := guardedRun_of_runGuarded ht
    exact ⟨t, hrun, hq t hrun (of_decide_eq_true h)⟩

/-- A guarded run to a state with a decidable property. -/
theorem exists_guardedRun [∀ s a, Decidable (ok s a)] [DecidablePred q]
    (h : (runGuarded step ok s as).any (fun t => q t) = true) : ∃ t, GuardedRun step ok s as t ∧ q t :=
  exists_guardedRun_of _ h (fun _ _ hq => hq)

/-- **The invariant rule.** What every allowed step keeps, every guarded run keeps. -/
theorem GuardedRun.invariant (hstep : ∀ s a s', inv s → ok s a → step s a = some s' → inv s') {s t : σ}
    {as : List α} (h : GuardedRun step ok s as t) (hs : inv s) : inv t := by
  induction as generalizing s with
  | nil =>
    obtain rfl : s = t := h
    exact hs
  | cons a as ih =>
    obtain ⟨hok, s', hs', hrun⟩ := h
    exact ih hrun (hstep s a s' hs hok hs')

/-- A condition that says of each step whether it keeps the invariant: a run meets it exactly if the
invariant holds in all states that it goes through. -/
theorem guardedRun_iff_forall_inv (hstep : ∀ s a s', inv s → step s a = some s' → (ok s a ↔ inv s'))
    (hs : inv s) (hrun : runActions step s as = some t) :
    GuardedRun step ok s as t ↔
      ∀ pre post u, as = pre ++ post → runActions step s pre = some u → inv u := by
  induction as generalizing s with
  | nil =>
    refine ⟨fun _ pre post u happ hu => ?_, fun _ => Option.some.inj hrun⟩
    obtain ⟨rfl, -⟩ := List.append_eq_nil_iff.mp happ.symm
    cases hu
    exact hs
  | cons a as ih =>
    obtain ⟨s', hs', hrest⟩ := runActions_cons_eq_some.mp hrun
    constructor
    · rintro ⟨hok, s'', hs'', hguarded⟩ pre post u happ hu
      cases hs'.symm.trans hs''
      have hinv : inv s' := (hstep s a s' hs hs').mp hok
      cases pre with
      | nil =>
        cases hu
        exact hs
      | cons b pre =>
        obtain ⟨rfl, hpost⟩ := List.cons_eq_cons.mp happ
        obtain ⟨v, hv, hu⟩ := runActions_cons_eq_some.mp hu
        cases hs'.symm.trans hv
        exact (ih hinv hrest).mp hguarded pre post u hpost hu
    · intro hall
      have hinv : inv s' := hall [a] as s' rfl (runActions_cons_eq_some.mpr ⟨s', hs', rfl⟩)
      refine ⟨(hstep s a s' hs hs').mpr hinv, s', hs', (ih hinv hrest).mpr fun pre post u happ hu => ?_⟩
      exact hall (a :: pre) post u (congrArg (a :: ·) happ) (runActions_cons_eq_some.mpr ⟨s', hs', hu⟩)

/-- What every allowed step keeps may be assumed of the states that a guarded run goes through. -/
theorem GuardedRun.strengthen (hstep : ∀ s a s', inv s → ok s a → step s a = some s' → inv s')
    (h : GuardedRun step ok s as t) (hs : inv s) : GuardedRun step (fun s _ => inv s) s as t := by
  induction as generalizing s with
  | nil => exact h
  | cons a as ih =>
    obtain ⟨hok, s', hs', hrun⟩ := h
    exact ⟨hs, s', hs', ih hrun (hstep s a s' hs hok hs')⟩

/-- **The ordering rule.** A preorder that every allowed step respects, in states satisfying an
invariant, relates the two ends of every guarded run. -/
theorem GuardedRun.relates {le : σ → σ → Prop} (hrefl : ∀ s, le s s)
    (htrans : ∀ s t u, le s t → le t u → le s u)
    (hstep : ∀ s a s', inv s → ok s a → step s a = some s' → inv s' ∧ le s s') {as : List α} {s t : σ}
    (h : GuardedRun step ok s as t) (hs : inv s) : le s t := by
  induction as generalizing s with
  | nil =>
    obtain rfl : s = t := h
    exact hrefl s
  | cons a as ih =>
    obtain ⟨hok, s', hs', hrun⟩ := h
    obtain ⟨hinv, hle⟩ := hstep s a s' hs hok hs'
    exact htrans s s' t hle (ih hrun hinv)

/-- What a step cannot bring about, it found: a property of the last state that every step carries
backwards holds along the whole run. -/
theorem GuardedRun.backwards
    (hstep : ∀ s a s', inv s → ok s a → step s a = some s' → inv s' ∧ (q s' → q s))
    (h : GuardedRun step ok s as t) (hs : inv s) (hq : q t) :
    q s ∧ GuardedRun step (fun s a => ok s a ∧ q s) s as t := by
  induction as generalizing s with
  | nil =>
    obtain rfl : s = t := h
    exact ⟨hq, rfl⟩
  | cons a as ih =>
    obtain ⟨hok, s', hs', hrun⟩ := h
    obtain ⟨hinv, hback⟩ := hstep s a s' hs hok hs'
    obtain ⟨hq', hrun'⟩ := ih hrun hinv
    exact ⟨hback hq', ⟨hok, hback hq'⟩, s', hs', hrun'⟩

/-- **The erasure rule.** If the kept actions can be taken alike in related states, and the other ones
lead to states that are still related, then what is left of a run is a run. -/
theorem GuardedRun.erase {keep : α → Bool} {R : σ → σ → Prop}
    (hkept : ∀ s t a s', R s t → ok s a → keep a = true → step s a = some s' →
      ∃ t', step t a = some t' ∧ R s' t')
    (hother : ∀ s t a s', R s t → ok s a → keep a = false → step s a = some s' → R s' t) {s' : σ}
    (h : GuardedRun step ok s as s') (hst : R s t) :
    ∃ t', runActions step t (as.filter keep) = some t' ∧ R s' t' := by
  induction as generalizing s t with
  | nil =>
    obtain rfl : s = s' := h
    exact ⟨t, rfl, hst⟩
  | cons a as ih =>
    obtain ⟨hok, s₁, hs₁, hrun⟩ := h
    cases ha : keep a with
    | true =>
      obtain ⟨t₁, ht₁, hR⟩ := hkept s t a s₁ hst hok ha hs₁
      obtain ⟨t', ht', hR'⟩ := ih hrun hR
      rw [List.filter_cons_of_pos ha]
      exact ⟨t', runActions_cons_eq_some.mpr ⟨t₁, ht₁, ht'⟩, hR'⟩
    | false =>
      rw [List.filter_cons_of_neg (by rw [ha]; exact Bool.false_ne_true)]
      exact ih hrun (hother s t a s₁ hst hok ha hs₁)

/-- A guarded run of one step function is one of another that takes its allowed steps. -/
theorem GuardedRun.of_step {step' : σ → α → Option σ}
    (hstep : ∀ s a s', ok s a → step s a = some s' → step' s a = some s')
    (h : GuardedRun step ok s as t) : GuardedRun step' ok s as t := by
  induction as generalizing s with
  | nil => exact h
  | cons a as ih =>
    obtain ⟨hok, s', hs', hrun⟩ := h
    exact ⟨hok, s', hstep s a s' hok hs', ih hrun⟩

/-- A step function that allows more has the runs of one that allows less. -/
theorem runActions_of_step {step' : σ → α → Option σ}
    (hstep : ∀ s a s', step s a = some s' → step' s a = some s') (h : runActions step s as = some t) :
    runActions step' s as = some t := by
  induction as generalizing s with
  | nil => exact h
  | cons a as ih =>
    obtain ⟨s', hs', hrun⟩ := runActions_cons_eq_some.mp h
    exact runActions_cons_eq_some.mpr ⟨s', hstep s a s' hs', ih hrun⟩

/-- The invariant rule for unrestricted runs. -/
theorem invariant_of_run (hstep : ∀ s a s', inv s → step s a = some s' → inv s') {s t : σ} {as : List α}
    (h : runActions step s as = some t) (hs : inv s) : inv t :=
  (guardedRun_of_run h).invariant (fun s a s' hi _ hst => hstep s a s' hi hst) hs

/-- **Induction along a guarded run**: what is known of the actions taken so far, and of the state that
they lead to. -/
theorem guardedRun_induction {I : List α → σ → Prop} (hnil : I [] s)
    (hstep : ∀ pre a u v, GuardedRun step ok s pre u → I pre u → ok u a → step u a = some v →
      I (pre ++ [a]) v) (hrun : GuardedRun step ok s as t) : I as t := by
  induction as using List.reverseRecOn generalizing t with
  | nil =>
    obtain rfl : s = t := hrun
    exact hnil
  | append_singleton pre a ih =>
    obtain ⟨u, hu, hok, v, hv, ht⟩ := guardedRun_append.mp hrun
    obtain rfl : v = t := ht
    exact hstep pre a u v hu (ih hu) hok hv

/-- **Induction along a run.** -/
theorem run_induction {I : List α → σ → Prop} (hnil : I [] s)
    (hstep : ∀ pre a u v, runActions step s pre = some u → I pre u → step u a = some v →
      I (pre ++ [a]) v) (hrun : runActions step s as = some t) : I as t :=
  guardedRun_induction hnil (fun pre a u v hu hI _ hv => hstep pre a u v hu.run hI hv)
    (guardedRun_of_run hrun)

/-! ## Components that answer requests -/

section Serve

variable {τ ρ : Type*}

/-- Answer the requests of a list in order, from `s`: the state they leave, and the replies. -/
def serve (step : σ → α → σ × ρ) : σ → List α → σ × List ρ
  | s, [] => (s, [])
  | s, a :: as => ((serve step (step s a).1 as).1, (step s a).2 :: (serve step (step s a).1 as).2)

@[simp] theorem serve_nil (step : σ → α → σ × ρ) (s : σ) : serve step s [] = (s, []) := rfl

theorem serve_cons (step : σ → α → σ × ρ) (s : σ) (a : α) (as : List α) :
    serve step s (a :: as) =
      ((serve step (step s a).1 as).1, (step s a).2 :: (serve step (step s a).1 as).2) := rfl

variable {step : σ → α → σ × ρ}

/-- **The invariant rule for requests and replies**: what every exchange allowed by `P` keeps, every
list of such exchanges keeps. -/
theorem serve_invariant {I : σ → Prop} {P : α × ρ → Prop}
    (hstep : ∀ s a, I s → P (a, (step s a).2) → I (step s a).1)
    (hok : ∀ x ∈ as.zip (serve step s as).2, P x) (hs : I s) : I (serve step s as).1 := by
  induction as generalizing s with
  | nil => exact hs
  | cons a as ih =>
    rw [serve_cons] at hok ⊢
    simp only [List.zip_cons_cons, List.forall_mem_cons] at hok
    exact ih hok.2 (hstep s a hs hok.1)

/-- **The simulation rule.** Components whose states stay related give the same replies, and end in
related states. -/
theorem serve_eq_of_simulation {step' : τ → α → τ × ρ} {R : σ → τ → Prop} (hstep : ∀ s t a, R s t → P a →
      R (step s a).1 (step' t a).1 ∧ (step s a).2 = (step' t a).2) {t : τ} (hok : ∀ a ∈ as, P a)
    (hst : R s t) :
    R (serve step s as).1 (serve step' t as).1 ∧ (serve step s as).2 = (serve step' t as).2 := by
  induction as generalizing s t with
  | nil => exact ⟨hst, rfl⟩
  | cons a as ih =>
    rw [List.forall_mem_cons] at hok
    obtain ⟨hR, hreply⟩ := hstep s t a hst hok.1
    obtain ⟨hR', hreplies⟩ := ih hok.2 hR
    rw [serve_cons, serve_cons, hreply, hreplies]
    exact ⟨hR', rfl⟩

/-- **The ledger rule.** A ledger kept from the exchanges alone stays related to the state. -/
theorem serve_ledger {β : Type*} {note : β → α × ρ → β} {R : σ → β → Prop}
    (hstep : ∀ s b a, R s b → P a → R (step s a).1 (note b (a, (step s a).2))) {b : β}
    (hok : ∀ a ∈ as, P a) (hsb : R s b) :
    R (serve step s as).1 ((as.zip (serve step s as).2).foldl note b) := by
  induction as generalizing s b with
  | nil => exact hsb
  | cons a as ih =>
    rw [List.forall_mem_cons] at hok
    exact ih hok.2 (hstep s b a hsb hok.1)

/-- **Independent requests.** If the requests outside `M` do not disturb a relation that makes the
requests in `M` be answered alike, then those are answered as if they were alone. -/
theorem serve_filter {R : σ → σ → Prop} {M : α → Bool} (hmine : ∀ s t a, R s t → M a = true → P a →
      R (step s a).1 (step t a).1 ∧ (step s a).2 = (step t a).2)
    (hother : ∀ s t a, R s t → M a = false → P a → R (step s a).1 t) (hok : ∀ a ∈ as, P a)
    (hst : R s t) :
    (as.zip (serve step s as).2).filter (fun x => M x.1) =
      (as.filter M).zip (serve step t (as.filter M)).2 := by
  induction as generalizing s t with
  | nil => rfl
  | cons a as ih =>
    rw [List.forall_mem_cons] at hok
    rw [serve_cons, List.zip_cons_cons]
    cases ha : M a with
    | true =>
      obtain ⟨hR, hreply⟩ := hmine s t a hst ha hok.1
      simp only [List.filter_cons, ha, if_true, serve_cons, List.zip_cons_cons, hreply,
        ih hok.2 hR]
    | false =>
      simp only [List.filter_cons, ha, Bool.false_eq_true, if_false]
      exact ih hok.2 (hother s t a hst ha hok.1)

end Serve

end EsLite
