import EsLite.Foundation.Interleaving

/-!
# The history of one call

A run of a pool interleaves the atomic calls of many programs. The *history* of one of them is the list of
the atomic calls that it performed, each with the states before and after it and its reply.

* `System.history` — the history of a call in a run.
* `Prog.Performs` — what a program does when its calls get the replies of a history.
* `Logic.Chain` — how the states of a history follow each other: between two calls the others go up in the
  preorder, and every call is performed in a state that satisfies the invariant.
* `Logic.history_of_run` — the history of a call in a run is performed by its program, and its states are a
  chain.

So what a call does among all others is read off the histories that its program performs, by induction over
the program.
-/

namespace EsLite

variable {σ κ Op : Type} {Res : Op → Type} {α β Ch Env : Type}

/-- **An atomic call that was performed**: the states before and after it, and its reply. -/
structure Performed (σ Op : Type) (Res : Op → Type) where
  op : Op
  before : σ
  after : σ
  reply : Res op

variable {es : List (Performed σ Op Res)} {p q : Prog Op Res α} {j : Nat} {P P' : Pool σ κ Op Res α}

namespace Prog

/-- The program `p` makes the calls of a history, and after their replies `q` is left of it. -/
def Performs : List (Performed σ Op Res) → Prog Op Res α → Prog Op Res α → Prop
  | [], p, q => p = q
  | e :: es, p, q => ∃ k, p = .call e.op k ∧ Performs es (k e.reply) q

/-- A program that has returned makes no calls. -/
theorem performs_ret {a : α} : Performs es (.ret a) q ↔ es = [] ∧ q = .ret a := by
  cases es with
  | nil => exact ⟨fun h => ⟨rfl, h.symm⟩, fun h => h.2.symm⟩
  | cons e es =>
    constructor
    · rintro ⟨k, hk, -⟩
      cases hk
    · rintro ⟨h, -⟩
      cases h

/-- A program that issues a call has made none, or that one first. -/
theorem performs_call {o : Op} {k : Res o → Prog Op Res α} : Performs es (.call o k) q ↔
      (es = [] ∧ q = .call o k) ∨
        ∃ s t r rest, es = ⟨o, s, t, r⟩ :: rest ∧ Performs rest (k r) q := by
  cases es with
  | nil =>
    constructor
    · exact fun h => .inl ⟨rfl, h.symm⟩
    · rintro (⟨-, rfl⟩ | ⟨s, t, r, rest, h, -⟩)
      · rfl
      · cases h
  | cons e es =>
    obtain ⟨o', s, t, r⟩ := e
    constructor
    · rintro ⟨k', hk, hrest⟩
      cases hk
      exact .inr ⟨s, t, r, es, rfl, hrest⟩
    · rintro (⟨h, -⟩ | ⟨s', t', r', rest, h, hrest⟩)
      · cases h
      · cases h
        exact ⟨k, rfl, hrest⟩

/-- Two histories, one after the other. -/
theorem Performs.append {es' : List (Performed σ Op Res)} {r : Prog Op Res α} (h : Performs es p q)
    (h' : Performs es' q r) : Performs (es ++ es') p r := by
  induction es generalizing p with
  | nil =>
    obtain rfl := h
    exact h'
  | cons e es ih =>
    obtain ⟨k, rfl, hrest⟩ := h
    exact ⟨k, rfl, ih hrest⟩

/-- The first program of a sequence makes its calls. -/
theorem Performs.bind (h : Performs es p q) (f : α → Prog Op Res β) :
    Performs es (p >>= f) (q >>= f) := by
  induction es generalizing p with
  | nil =>
    obtain rfl := h
    rfl
  | cons e es ih =>
    obtain ⟨k, rfl, hrest⟩ := h
    exact ⟨fun r => k r >>= f, rfl, ih hrest⟩

/-- **What a sequence of two programs performs**: the first one is still running, or it has returned and
the rest is performed by the second one. -/
theorem Performs.of_bind {f : α → Prog Op Res β} {q : Prog Op Res β} (h : Performs es (p >>= f) q) :
    (∃ o k, Performs es p (.call o k) ∧ q = .call o (fun r => k r >>= f)) ∨
      ∃ es₁ es₂ a, es = es₁ ++ es₂ ∧ Performs es₁ p (.ret a) ∧ Performs es₂ (f a) q := by
  induction p generalizing es with
  | ret a => exact .inr ⟨[], es, a, rfl, rfl, h⟩
  | call o k ih =>
    rcases performs_call.mp h with ⟨rfl, rfl⟩ | ⟨s, t, r, rest, rfl, hrest⟩
    · exact .inl ⟨o, k, rfl, rfl⟩
    · rcases ih r hrest with ⟨o', k', hk', rfl⟩ | ⟨es₁, es₂, a, rfl, ha, hf⟩
      · exact .inl ⟨o', k', ⟨k, rfl, hk'⟩, rfl⟩
      · exact .inr ⟨⟨o, s, t, r⟩ :: es₁, es₂, a, rfl, ⟨k, rfl, ha⟩, hf⟩

/-- A function applied to the result makes no calls. -/
theorem Performs.of_map {f : α → β} {q : Prog Op Res β} (h : Performs es (p >>= fun a => .ret (f a)) q) :
    ∃ p', Performs es p p' ∧ q = p' >>= fun a => .ret (f a) := by
  rcases h.of_bind with ⟨o, k, hk, rfl⟩ | ⟨es₁, es₂, a, rfl, ha, hf⟩
  · exact ⟨.call o k, hk, rfl⟩
  · obtain ⟨rfl, rfl⟩ := performs_ret.mp hf
    rw [List.append_nil]
    exact ⟨.ret a, ha, rfl⟩

/-- A program that moves like one that has returned has returned the same. -/
theorem eq_ret_of_move {a : α} (h : p.move = (Prog.ret a : Prog Op Res α).move) : p = .ret a := by
  cases p with
  | ret b => exact congrArg Prog.ret (Sum.inl.inj h)
  | call o k => cases h

/-- A program that moves like one that issues a call issues the same. -/
theorem eq_call_of_move {o : Op} {k : Res o → Prog Op Res α} (h : p.move = (Prog.call o k).move) :
    ∃ k', p = .call o k' := by
  cases p with
  | ret b => cases h
  | call o' k' =>
    cases h
    exact ⟨k', rfl⟩

/-- Programs that move alike do so when a function is applied to their results. -/
theorem move_map {p' : Prog Op Res α} {f : α → β} (h : p'.move = p.move) :
    (p' >>= fun a => (.ret (f a) : Prog Op Res β)).move = (p >>= fun a => .ret (f a)).move := by
  cases p with
  | ret a =>
    rw [eq_ret_of_move h]
  | call o k =>
    obtain ⟨k', rfl⟩ := eq_call_of_move h
    rfl

/-- The program returns after at most `n` calls, whatever their replies are. -/
def Within : Nat → Prog Op Res α → Prop
  | _, .ret _ => True
  | 0, .call _ _ => False
  | n + 1, .call _ k => ∀ r, Within n (k r)

theorem Within.mono {m n : Nat} (hmn : m ≤ n) (h : Within m p) : Within n p := by
  induction p generalizing m n with
  | ret a =>
    cases n <;> trivial
  | call o k ih =>
    cases m with
    | zero => exact h.elim
    | succ m =>
      obtain ⟨n, rfl⟩ := Nat.exists_eq_add_of_lt (Nat.lt_of_lt_of_le (Nat.succ_pos m) hmn)
      exact fun r => ih r (by omega) (h r)

/-- Sequences take the calls of both programs. -/
theorem Within.bind {m n : Nat} {f : α → Prog Op Res β} (hp : Within m p) (hf : ∀ a, Within n (f a)) :
    Within (m + n) (p >>= f) := by
  induction p generalizing m with
  | ret a => exact (hf a).mono (Nat.le_add_left n m)
  | call o k ih =>
    cases m with
    | zero => exact hp.elim
    | succ m =>
      rw [Nat.succ_add]
      exact fun r => ih r (hp r)

/-- A history is no longer than the calls that its program can make. -/
theorem Performs.length_le {n : Nat} (h : Performs es p q) (hp : Within n p) : es.length ≤ n := by
  induction es generalizing p n with
  | nil => exact Nat.zero_le n
  | cons e es ih =>
    obtain ⟨k, rfl, hrest⟩ := h
    cases n with
    | zero => exact hp.elim
    | succ n => exact Nat.succ_le_succ (ih hrest (hp e.reply))

end Prog

/-! ## The states of a history -/

namespace Logic

/-- **How the states of a history follow each other**, from `s` to `u`, among parties that go up in
`L.le`. -/
def Chain (L : Logic σ Op) (exec : (o : Op) → Ch → σ → Option (σ × Res o)) :
    σ → List (Performed σ Op Res) → σ → Prop
  | s, [], u => L.le s u
  | s, e :: es, u => L.le s e.before ∧ L.inv e.before ∧
      (∃ ch, exec e.op ch e.before = some (e.after, e.reply)) ∧ L.le e.before e.after ∧
      Chain L exec e.after es u

variable {L : Logic σ Op} {exec : (o : Op) → Ch → σ → Option (σ × Res o)}

theorem chain_cons {s t t' u : σ} {o : Op} {r : Res o} :
    L.Chain exec s (⟨o, t, t', r⟩ :: es) u ↔ L.le s t ∧ L.inv t ∧
      (∃ ch, exec o ch t = some (t', r)) ∧ L.le t t' ∧ L.Chain exec t' es u := Iff.rfl

/-- The end of a history is above its start. -/
theorem Chain.le {s u : σ} (h : L.Chain exec s es u) : L.le s u := by
  induction es generalizing s with
  | nil => exact h
  | cons e es ih => exact L.trans _ _ _ h.1 (L.trans _ _ _ h.2.2.2.1 (ih h.2.2.2.2))

/-- A history of two parts. -/
theorem chain_append {s u : σ} {es' : List (Performed σ Op Res)} :
    L.Chain exec s (es ++ es') u ↔ ∃ t, L.Chain exec s es t ∧ L.Chain exec t es' u := by
  induction es generalizing s with
  | nil =>
    constructor
    · exact fun h => ⟨s, L.refl s, h⟩
    · rintro ⟨t, hle, h⟩
      cases es' with
      | nil => exact L.trans _ _ _ hle h
      | cons e es' => exact ⟨L.trans _ _ _ hle h.1, h.2⟩
  | cons e es ih =>
    constructor
    · rintro ⟨hle, hinv, hex, hup, hrest⟩
      obtain ⟨t, ht, ht'⟩ := ih.mp hrest
      exact ⟨t, ⟨hle, hinv, hex, hup, ht⟩, ht'⟩
    · rintro ⟨t, ⟨hle, hinv, hex, hup, ht⟩, ht'⟩
      exact ⟨hle, hinv, hex, hup, ih.mpr ⟨t, ht, ht'⟩⟩

/-- A history also leads to a later state. -/
theorem Chain.mono {s t u : σ} (h : L.Chain exec s es t) (hle : L.le t u) : L.Chain exec s es u := by
  rw [← List.append_nil es]
  exact chain_append.mpr ⟨t, h, hle⟩

end Logic

/-! ## Histories of runs -/

/-- Where call `j` stands in a pool: it still has to do `p`, or it has returned. -/
def Pool.At (P : Pool σ κ Op Res α) (j : Nat) (c : κ) : Prog Op Res α → Prop
  | .ret a => P.thread j = none ∧ (j, c, a) ∈ P.finished
  | .call o k => P.thread j = some (c, .call o k)

namespace System

variable (S : System σ κ Op Res α Ch Env)

/-- What call `j` performs in one step of a pool. -/
def performed (j : Nat) (P : Pool σ κ Op Res α) : PoolAction κ Ch Env → List (Performed σ Op Res)
  | .step i ch =>
    match P.thread i with
    | some (_, .call o _) =>
      if i = j then (S.exec o ch P.shared).toList.map (fun x => ⟨o, P.shared, x.1, x.2⟩) else []
    | _ => []
  | _ => []

/-- **The history** of call `j` in a run. -/
def history (j : Nat) : Pool σ κ Op Res α → List (PoolAction κ Ch Env) → List (Performed σ Op Res)
  | _, [] => []
  | P, a :: as => S.performed j P a ++
      match S.step P a with
      | some P' => history j P' as
      | none => []

theorem history_cons {a : PoolAction κ Ch Env} (h : S.step P a = some P')
    (as : List (PoolAction κ Ch Env)) :
    S.history j P (a :: as) = S.performed j P a ++ S.history j P' as := by
  rw [history, h]

end System

/-- A name that stands somewhere is in use. -/
theorem Pool.At.used {c : κ} (h : P.At j c p) : P.unused j = false := by
  cases p with
  | ret a =>
    rw [Pool.unused, Bool.and_eq_false_iff]
    refine .inr (List.all_eq_false.mpr ⟨(j, c, a), h.2, ?_⟩)
    simp
  | call o k =>
    rw [Pool.unused, show P.thread j = some (c, .call o k) from h]
    rfl

/-- A call that is recorded stands where it was recorded. -/
theorem Pool.at_put (P : Pool σ κ Op Res α) (j : Nat) (c : κ) (s : σ) (p : Prog Op Res α) :
    (P.put j c s p).At j c p := by
  cases p with
  | ret a => exact ⟨Pool.thread_put_ret, List.mem_append_right _ (List.mem_singleton.mpr rfl)⟩
  | call o k => exact Function.update_self ..

/-- A call that is issued has everything to do. -/
theorem System.at_of_spawn {S : System σ κ Op Res α Ch Env} {c : κ}
    (h : S.step P (.spawn j c) = some P') : P'.At j c (S.prog c) := by
  rcases System.step_cases h with ⟨i, c', hspawn, -, rfl⟩ | ⟨_, _, _, _, _, _, _, hstep, -⟩ | ⟨_, _, henv, -⟩
  · cases hspawn
    exact Pool.at_put ..
  · cases hstep
  · cases henv

/-- Recording another call does not move it. -/
theorem Pool.At.put {i : Nat} {c c' : κ} {p' : Prog Op Res α} (h : P.At j c p) (hne : j ≠ i) (s : σ) :
    (P.put i c' s p').At j c p := by
  cases p with
  | ret a =>
    refine ⟨(Pool.thread_put_of_ne hne c' s p').trans h.1, ?_⟩
    cases p' with
    | ret b => exact List.mem_append_left _ h.2
    | call o k => exact h.2
  | call o k => exact (Pool.thread_put_of_ne hne c' s p').trans h

namespace Logic

variable {L : Logic σ Op} {T : System σ κ Op Res α Ch Env} {pre : κ → σ → Prop}
  {post : κ → α → σ → Prop}

/-- **One step** of a pool, seen from one of its calls. -/
theorem history_of_step {c : κ} {a : PoolAction κ Ch Env} (hP : L.Sound T post P)
    (hle : L.le P.shared P'.shared) (hs : T.step P a = some P') (hat : P.At j c p) :
    ∃ q, Prog.Performs (T.performed j P a) p q ∧ P'.At j c q ∧
      L.Chain T.exec P.shared (T.performed j P a) P'.shared := by
  rcases System.step_cases hs with ⟨i, c', rfl, hu, rfl⟩ |
    ⟨i, ch, c', o, k, s, r, rfl, hth, hex, rfl⟩ | ⟨e, s, rfl, he, rfl⟩
  · -- another call is issued: the name is in use
    refine ⟨p, rfl, hat.put (fun hji => ?_) P.shared, hle⟩
    rw [← hji, hat.used] at hu
    cases hu
  · rw [Pool.put_shared] at hle ⊢
    by_cases hij : i = j
    · subst hij
      -- the call itself: what it has to do is the call that is performed
      have hp : c' = c ∧ p = .call o k := by
        cases p with
        | ret b =>
          rw [hat.1] at hth
          cases hth
        | call o' k' =>
          have hboth := Option.some.inj ((show P.thread i = some (c, .call o' k') from hat).symm.trans hth)
          exact ⟨(congrArg Prod.fst hboth).symm, congrArg Prod.snd hboth⟩
      obtain ⟨rfl, rfl⟩ := hp
      have hperformed : T.performed i P (.step i ch) = [⟨o, P.shared, s, r⟩] := by
        simp only [System.performed, hth, hex, if_true, Option.toList_some, List.map_cons, List.map_nil]
      rw [hperformed]
      exact ⟨k r, ⟨k, rfl, rfl⟩, Pool.at_put P i c' s (k r),
        L.refl _, hP.inv, ⟨ch, hex⟩, hle, L.refl s⟩
    · have hperformed : T.performed j P (.step i ch) = [] := by
        simp only [System.performed, hth, if_neg hij]
      rw [hperformed]
      exact ⟨p, rfl, hat.put (fun h => hij h.symm) s, hle⟩
  · refine ⟨p, rfl, ?_, hle⟩
    cases p with
    | ret b => exact hat
    | call o k => exact hat

/-- **The history of a call in a run** is performed by its program, and its states are a chain. -/
theorem history_of_run (henv : ∀ e s s', L.inv s → T.env e s = some s' → L.inv s' ∧ L.le s s')
    (hprog : ∀ c s, L.inv s → pre c s → L.WP T (post c) (T.prog c) s) {c : κ}
    {as : List (PoolAction κ Ch Env)} (hrun : GuardedRun T.step (System.Allows pre L.allowed) P as P')
    (hP : L.Sound T post P) (hat : P.At j c p) :
    ∃ q, Prog.Performs (T.history j P as) p q ∧ P'.At j c q ∧
      L.Chain T.exec P.shared (T.history j P as) P'.shared := by
  induction as generalizing P p with
  | nil =>
    obtain rfl : P = P' := hrun
    exact ⟨p, rfl, hat, L.refl _⟩
  | cons a as ih =>
    obtain ⟨hok, Q, hs, hrest⟩ := hrun
    obtain ⟨hQ, hle⟩ := hP.step henv hprog hok hs
    obtain ⟨q, hperf, hatQ, hchain⟩ := history_of_step hP hle hs hat
    obtain ⟨r, hperf', hat', hchain'⟩ := ih hrest hQ hatQ
    rw [System.history_cons T hs]
    exact ⟨r, hperf.append hperf', hat', chain_append.mpr ⟨Q.shared, hchain, hchain'⟩⟩

end Logic

end EsLite
