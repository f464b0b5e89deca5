import EsLite.Aggregate.Snapshots
import EsLite.Foundation.Collecting

/-!
# Appends that are rolled back

`WithAppend` lets a caller append in a transaction of their own. The call saves the new state in the
snapshot cache as soon as the caller's function has returned, before the caller has committed; if the
transaction is rolled back, later loads start from events that are not in the log
(`rolled_back_snapshot`).

What a rolled-back call can leave behind is exactly that snapshot. If the caller's function fails, or
there are no events to append, the run without the call is a run with the same log in which every other
call returns the same (`rolled_back_leaves_no_trace`): two runs whose caches differ but are both right
go through the same decisions.

* `Shaped` — the only use of a snapshot in a program is to fold a read onto it.
* `Like` — programs that differ at most in where such a read starts.
* `Erases` — a pool, and the same pool without the erased calls.
-/

namespace EsLite.Aggregate

open Logic

variable {S C E ι σ κ α β : Type}

/-! ## The shape of the programs -/

/-- The calls other than a look into the cache that a program with the given options makes. -/
def Op.Plain (ho : HandleOptions) : Op → Prop
  | .loadSnapshot _ => False
  | .append _ => ho.append = false
  | .appendFunc _ => ho.append = true
  | _ => True

/-- **Programs of a runtime.** Whatever the cache returns, it is only used as the seed of a read. -/
inductive Shaped (Rt : Runtime S C E) (ho : HandleOptions) : Prog Op Res α → Prop where
  | ret (a : α) : Shaped Rt ho (.ret a)
  | call (o : Op) (k : Res o → Prog Op Res α) (hplain : o.Plain ho) (hk : ∀ r, Shaped Rt ho (k r)) :
      Shaped Rt ho (.call o k)
  | load (c : Snapshots S) (sid : StreamID)
      (rest : Except LoadError (S × UInt64) → Prog Op Res α) (hc : Rt.snapshots = some c)
      (hrest : ∀ x, Shaped Rt ho (rest x)) :
      Shaped Rt ho (.call (.loadSnapshot sid.canonical) (fun snap =>
        .call (.readStream sid (c.seed Rt.decider.initial snap).2 0) (fun r =>
          rest (Rt.foldRead sid 0 (c.seed Rt.decider.initial snap) r))))

variable {o : Op} {k : Res o → Prog Op Res α} {c : Request ι C} {sid : StreamID} {acc : S × UInt64}
  {P' P : Pool (Shared σ) (Request ι C) Op Res (Reply S C E)} {a : Answer κ} {s : Shared σ}
  {ho : HandleOptions}

section Shaped

variable {Rt : Runtime S C E} {ho : HandleOptions}

theorem Shaped.bind {p : Prog Op Res α} {f : α → Prog Op Res β} (hp : Shaped Rt ho p)
    (hf : ∀ a, Shaped Rt ho (f a)) : Shaped Rt ho (p >>= f) := by
  induction hp with
  | ret a => exact hf a
  | call o k hplain _ ih => exact .call o (fun r => k r >>= f) hplain ih
  | load c sid rest hc _ ih => exact .load c sid (fun x => rest x >>= f) hc ih

/-- The rule of sequential composition for programs that may end in an error. -/
theorem Shaped.bindExcept {ε : Type} {p : ExceptT ε (Prog Op Res) α} {f : α → ExceptT ε (Prog Op Res) β}
    (hp : Shaped Rt ho p.run) (hf : ∀ a, Shaped Rt ho (f a).run) : Shaped Rt ho (p >>= f).run := by
  refine Shaped.bind (p := p.run) (f := ExceptT.bindCont f) hp (fun r => ?_)
  cases r with
  | ok a => exact hf a
  | error e => exact .ret _

/-- After any reply, the rest of the program has the shape. -/
theorem Shaped.next (h : Shaped Rt ho (.call o k)) (r : Res o) : Shaped Rt ho (k r) := by
  cases h with
  | call _ _ _ hk => exact hk r
  | load c sid rest hc hrest => exact .call _ _ trivial (fun _ => hrest _)

theorem shaped_load (sid : StreamID) : Shaped Rt ho (Rt.load sid 0 .zero).run := by
  cases hc : Rt.snapshots with
  | none =>
    rw [load_uncached hc]
    exact .call _ _ trivial (fun _ => .ret _)
  | some c =>
    rw [load_cached hc]
    exact .load c sid .ret hc (fun x => .ret x)

theorem shaped_saveSnapshot (sid : StreamID) (state : S) (version : UInt64) :
    Shaped Rt ho (Rt.saveSnapshot sid state version).run := by
  unfold Runtime.saveSnapshot
  split
  · exact .ret _
  · split
    · exact .ret _
    · exact .call _ _ trivial (fun _ => .call _ _ trivial (fun _ => .ret _))

theorem shaped_appendFn (p : AppendParams) : Shaped Rt ho (Runtime.appendFn ho p).run := by
  unfold Runtime.appendFn
  split
  · rename_i happend
    exact .call _ _ happend (fun _ => .ret _)
  · rename_i happend
    exact .call _ _ happend (fun _ => .ret _)

theorem shaped_commit (sid : StreamID) (m : Meta) (occurredAt : Time) (state : S) (version : UInt64)
    (d : Runtime.Decision E) : Shaped Rt ho (Rt.commit sid m occurredAt ho state version d).run := by
  cases d with
  | noop => exact .ret _
  | append events encoded constraints =>
    exact (shaped_appendFn _).bindExcept (fun _ =>
      (shaped_saveSnapshot _ _ _).bindExcept (fun _ => .ret _))

theorem shaped_handleOnce (sid : StreamID) (cmd : C) (m : Meta) (occurredAt : Time)
    (expected : UInt64) : Shaped Rt ho (Rt.handleOnce sid cmd m occurredAt expected ho).run := by
  rw [Runtime.run_handleOnce]
  refine (shaped_load sid).bind (fun r => ?_)
  cases r with
  | error err => exact .ret _
  | ok acc =>
    exact Shaped.bindExcept (p := Prog.ofResult _) (.ret _) (fun d => shaped_commit _ _ _ _ _ d)

theorem shaped_attempts {once : Act HandleError (Result S E)} (honce : Shaped Rt ho once.run)
    (attempt left : Nat) : Shaped Rt ho (Runtime.attempts once attempt left) := by
  induction left generalizing attempt with
  | zero => exact honce.bind (fun _ => .ret _)
  | succ left ih =>
    refine honce.bind (fun r => ?_)
    cases r with
    | ok res => exact .ret _
    | error err =>
      dsimp only
      split
      · refine .call _ _ trivial (fun x => ?_)
        cases x with
        | some x => exact .ret _
        | none => exact ih (attempt + 1)
      · exact .ret _

theorem shaped_handleAt (sid : StreamID) (cmd : C) (m : Meta) (expected : UInt64) :
    Shaped Rt ho (Rt.handleAt sid cmd m expected ho).run := by
  refine Shaped.bindExcept (p := Prog.perform _) (.call _ _ trivial (fun _ => .ret _)) (fun now => ?_)
  refine Shaped.bindExcept (p := Prog.ofResult _) (.ret _) (fun cmd' => ?_)
  refine Shaped.bindExcept ?_ (fun m' => ?_)
  · unfold Runtime.fillMeta
    dsimp only
    split
    · exact .call _ _ trivial (fun _ => .ret _)
    · exact .ret _
  · exact Shaped.bindExcept (p := ExceptT.mk _)
      (shaped_attempts (shaped_handleOnce sid cmd' m' now expected) 0 Rt.retries) (fun _ => .ret _)

end Shaped

/-- The options of a call. -/
def Request.options (c : Request ι C) : HandleOptions :=
  match c.task with
  | .load => {}
  | .handle _ _ _ ho => ho

theorem Request.append_options (h : c.viaStore = false) : c.options.append = true := by
  obtain ⟨i, sid, task⟩ := c
  cases task with
  | load => cases h
  | handle cmd info expected ho =>
    have h : (!ho.append) = false := h
    show ho.append = true
    simpa using h

/-- **Every call** has the shape of its runtime and its options. -/
theorem shaped_program (R : ι → Runtime S C E) (c : Request ι C) :
    Shaped (R c.runtime) c.options (c.program R) := by
  obtain ⟨i, sid, task⟩ := c
  cases task with
  | load => exact (shaped_load sid).bind (fun _ => .ret _)
  | handle cmd info expected ho =>
    cases expected with
    | none => exact (shaped_handleAt sid cmd info 0).bind (fun _ => .ret _)
    | some v => exact (shaped_handleAt sid cmd info v).bind (fun _ => .ret _)

/-! ## Programs that differ in where a read starts -/

section Like

variable {St : EventStore σ κ} (K : St.Contract)

/-- **Programs that are alike**: the same program, or two reads of a stream from places to start, with
the same use of what is folded. -/
inductive Like (Rt : Runtime S C E) (ho : HandleOptions) (s : σ) :
    Prog Op Res α → Prog Op Res α → Prop where
  | same (p : Prog Op Res α) (hp : Shaped Rt ho p) : Like Rt ho s p p
  | read (sid : StreamID) (acc acc' : S × UInt64)
      (rest : Except LoadError (S × UInt64) → Prog Op Res α)
      (hacc : sid.Valid → Seeds K Rt.toModel sid acc s)
      (hacc' : sid.Valid → Seeds K Rt.toModel sid acc' s) (hrest : ∀ x, Shaped Rt ho (rest x)) :
      Like Rt ho s
        (.call (.readStream sid acc.2 0) (fun r => rest (Rt.foldRead sid 0 acc r)))
        (.call (.readStream sid acc'.2 0) (fun r => rest (Rt.foldRead sid 0 acc' r)))

variable {K} {Rt : Runtime S C E} {ho : HandleOptions} {s t : σ}

theorem Like.mono {p q : Prog Op Res α} (h : Like K Rt ho s p q) (hle : K.le s t) :
    Like K Rt ho t p q := by
  cases h with
  | same p hp => exact .same p hp
  | read sid acc acc' rest hacc hacc' hrest =>
    exact .read sid acc acc' rest (fun hv => (hacc hv).mono hle) (fun hv => (hacc' hv).mono hle) hrest

/-- Nothing but the read of a load fails with an error of the store. -/
theorem foldEnvelopes_ne_store {M : Model S C E} {checker : Option ChainChecker} {envs : List Envelope}
    {err : StoreError} : foldEnvelopes M sid checker acc envs ≠ .error (.store err) := by
  induction envs generalizing checker acc with
  | nil => exact fun h => by cases h
  | cons env envs ih =>
    intro h
    simp only [foldEnvelopes] at h
    split at h
    · rename_i hcheck
      cases h
      unfold checkNext at hcheck
      split at hcheck
      · cases hcheck
      · split at hcheck <;> cases hcheck
    split at h
    · rename_i hdecode
      cases h
      unfold decodeEvent at hdecode
      split at hdecode
      · cases hdecode
      · split at hdecode <;> cases hdecode
    · exact ih h

/-- A read that succeeds does not fail a load. -/
theorem not_readFailed {r : Except StoreError (List Envelope)} {envs : List Envelope}
    (h : r = .ok envs) : ¬ ReadFailed (Rt.foldRead sid 0 acc r) := by
  rintro ⟨err, herr⟩
  subst h
  rw [foldRead_eq Rt rfl] at herr
  exact foldEnvelopes_ne_store herr

/-- The only place to start in an empty stream is its beginning. -/
theorem Seeds.eq_initial {M : Model S C E} (h : Seeds K M sid acc s) (hrows : K.rows s sid = []) :
    acc = (M.decider.initial, 0) := by
  obtain ⟨hlen, evs, hevs, hstate⟩ := h
  rw [hrows] at hlen hevs
  rw [List.take_nil] at hevs
  cases hevs
  exact Prod.ext hstate (UInt64.toNat_inj.mp (Nat.le_zero.mp hlen))

/-- **Two loads of a stream** whose events can all be read, from places to start, end alike. -/
theorem foldRead_alike (hs : K.inv s) (hreadable : K.readable s) {acc' : S × UInt64}
    (hacc : sid.Valid → Seeds K Rt.toModel sid acc s) (hacc' : sid.Valid → Seeds K Rt.toModel sid acc' s)
    (k : κ) :
    Rt.foldRead sid 0 acc (St.readStream k sid acc.2 0 s) =
      Rt.foldRead sid 0 acc' (St.readStream k sid acc'.2 0 s) := by
  rcases K.reads k sid s hs hreadable with ⟨err, herr⟩ | hok
  · have hread := herr acc.2 (fun hv => (hacc hv).1)
    rw [hread, herr acc'.2 (fun hv => (hacc' hv).1)]
    by_cases hnotFound : err = .sentinel .streamNotFound
    · subst hnotFound
      obtain ⟨hvalid, hrows⟩ := K.notFound k sid acc.2 s hs hread
      rw [(hacc hvalid).eq_initial hrows, (hacc' hvalid).eq_initial hrows]
    · have hfails : envelopesOf (.error err) = .error (.store err) := by
        unfold envelopesOf
        split
        · rename_i h
          cases h
        · rename_i h
          exact absurd (Except.error.inj h) hnotFound
        · rename_i _ h
          rw [Except.error.inj h]
      simp only [Runtime.foldRead, hfails]
  · -- the stream can be read, so both are the load from its first event
    obtain ⟨whole, hwhole⟩ := hok 0 (Nat.zero_le _)
    have hvalid := (K.read k sid 0 s whole hs hwhole).1
    have hfull : ∀ x, (sid.Valid → Seeds K Rt.toModel sid x s) →
        Rt.foldRead sid 0 x (St.readStream k sid x.2 0 s) =
          Rt.foldRead sid 0 (Rt.decider.initial, 0) (St.readStream k sid 0 0 s) := by
      intro x hx
      obtain ⟨envs, henvs⟩ := hok x.2 (hx hvalid).1
      exact foldRead_seeded Rt hs hx (not_readFailed henvs) (not_readFailed hwhole)
    rw [hfull acc hacc, hfull acc' hacc']

end Like

/-! ## Runs in which rolled-back calls are harmless -/

/-- Whether a caller's own append fails, or has no events. -/
def harmless (St : EventStore σ κ) (a : Answer κ) (s : σ) : Op → Bool
  | .appendFunc p =>
    p.events.isEmpty || a.fault.isSome || (St.append a.store p s).2.toOption.isNone
  | _ => true

/-- **The condition on a step**: the calls of `own` have an append of their own, every such append is
harmless, and the cache does nothing by itself. -/
def Harmless (R : ι → Runtime S C E) (St : EventStore σ κ) (own : Nat → Bool)
    (P : Pool (Shared σ) (Request ι C) Op Res (Reply S C E)) :
    PoolAction (Request ι C) (Answer κ) (CacheStep R) → Prop
  | .spawn j c => own j = true → c.viaStore = false
  | .step j a => ∀ x ∈ P.thread j, x.2.Next (fun o => harmless St a P.shared.store o = true)
  | .env _ => False

/-- The system in which only harmless appends of callers are enabled. -/
def harmlessRuntimes (R : ι → Runtime S C E) (St : EventStore σ κ) :
    System (Shared σ) (Request ι C) Op Res (Reply S C E) (Answer κ) (CacheStep R) where
  prog := Request.program R
  exec o a s := if harmless St a s.store o then execShared St o a s else none
  env _ _ := none

section Harmless

variable {R : ι → Runtime S C E} {St : EventStore σ κ} {own : Nat → Bool}

theorem exec_harmlessRuntimes {x : Shared σ × Res o} (h : (harmlessRuntimes R St).exec o a s = some x) :
    harmless St a s.store o = true ∧ execShared St o a s = some x := by
  simp only [harmlessRuntimes] at h
  split at h
  · rename_i hharmless
    exact ⟨hharmless, h⟩
  · cases h

/-- A harmless append that goes through has no events. -/
theorem events_of_harmless {p : AppendParams} {s' : Shared σ} {res : AppendResult}
    (h : (harmlessRuntimes R St).exec (.appendFunc p) a s = some (s', .ok res)) : p.events = [] := by
  obtain ⟨hharmless, hexec⟩ := exec_harmlessRuntimes h
  have hres := execShared_appendFunc_ok hexec
  have hfault : a.fault = none := by
    cases hf : a.fault with
    | none => rfl
    | some err =>
      obtain ⟨-, hreply⟩ := Prod.mk.inj (Option.some.inj hexec)
      rw [hf] at hreply
      cases hreply
  simp only [harmless, hfault, hres, Option.isSome_none, Except.toOption, Option.isNone_some,
    Bool.or_false] at hharmless
  exact List.isEmpty_iff.mp hharmless

/-- A harmless step is a step of that system. -/
theorem step_harmlessRuntimes {a : PoolAction (Request ι C) (Answer κ) (CacheStep R)}
    (hok : Harmless R St own P a) (h : (cachedRuntimes R St).step P a = some P') :
    (harmlessRuntimes R St).step P a = some P' := by
  rcases System.step_cases h with ⟨j, c, rfl, hu, rfl⟩ |
    ⟨j, ans, c, o, k, s, r, rfl, hth, hex, rfl⟩ | ⟨e, s, rfl, he, rfl⟩
  · exact h
  · have hharmless : harmless St ans P.shared.store o = true := hok (c, .call o k) hth
    have hex' : (harmlessRuntimes R St).exec o ans P.shared = some (s, r) := by
      show (if harmless St ans P.shared.store o then execShared St o ans P.shared else none) = _
      rw [if_pos hharmless]
      exact hex
    simp only [System.step, hth, hex', Option.map_some]
  · exact hok.elim

/-- A step of that system is a step. -/
theorem step_cachedRuntimes {a : PoolAction (Request ι C) (Answer κ) (CacheStep R)}
    (h : (harmlessRuntimes R St).step P a = some P') : (cachedRuntimes R St).step P a = some P' := by
  rcases System.step_cases h with ⟨j, c, rfl, hu, rfl⟩ |
    ⟨j, ans, c, o, k, s, r, rfl, hth, hex, rfl⟩ | ⟨e, s, rfl, he, rfl⟩
  · exact h
  · have hex' : (cachedRuntimes R St).exec o ans P.shared = some (s, r) := (exec_harmlessRuntimes hex).2
    simp only [System.step, hth, hex', Option.map_some]
  · cases he

theorem exec_eq_of_harmless (h : harmless St a s.store o = true) :
    (harmlessRuntimes R St).exec o a s = execShared St o a s := if_pos h

/-- Nothing but a look into the cache depends on the cache. -/
theorem execShared_reply (hplain : o.Plain ho) {s' t : Shared σ} {r : Res o} (hstore : t.store = s.store)
    (h : execShared St o a s = some (s', r)) :
    ∃ t', execShared St o a t = some (t', r) ∧ t'.store = s'.store := by
  obtain ⟨store, cache, saved⟩ := t
  obtain rfl : store = s.store := hstore
  cases o with
  | loadSnapshot streamID => exact hplain.elim
  | _ =>
    cases h
    exact ⟨_, rfl, rfl⟩

/-- **Programs that are alike stay alike**: over the same store and right caches they make the same
call, or two reads that are folded to the same. -/
theorem Like.exec {K : St.Contract} {s' t : Shared σ} (hs : RightCache K R s) (ht : RightCache K R t)
    (hstore : t.store = s.store) (hreadable : K.readable s.store) {i : ι} {q : Prog Op Res α}
    (h : Like K (R i) ho s.store (.call o k) q) {r : Res o}
    (hex : (harmlessRuntimes R St).exec o a s = some (s', r)) :
    ∃ o' k' t' r', q = .call o' k' ∧ (harmlessRuntimes R St).exec o' a t = some (t', r') ∧
      t'.store = s'.store ∧ Like K (R i) ho s'.store (k r) (k' r') := by
  obtain ⟨hharmless, hexec⟩ := exec_harmlessRuntimes hex
  cases h with
  | same p hp =>
    cases hp with
    | call _ _ hplain hk =>
      obtain ⟨t', ht', hstore'⟩ := execShared_reply hplain hstore hexec
      rw [← hstore] at hharmless
      refine ⟨o, k, t', r, rfl, ?_, hstore', .same _ (hk r)⟩
      rw [exec_eq_of_harmless hharmless]
      exact ht'
    | load c sid rest hc hrest =>
      -- the caches may differ, but both give a place to start
      cases hexec
      refine ⟨_, _, t, _, rfl, rfl, hstore, .read sid _ _ rest (seeds_loaded hc hs.cache rfl)
        (fun hvalid => ?_) hrest⟩
      rw [← hstore]
      exact seeds_loaded hc ht.cache rfl hvalid
  | read sid acc acc' rest hacc hacc' hrest =>
    cases hexec
    refine ⟨_, _, t, _, rfl, rfl, hstore, ?_⟩
    rw [hstore]
    show Like K (R i) ho s.store
      (rest ((R i).foldRead sid 0 acc (St.readStream a.store sid acc.2 0 s.store))) _
    rw [foldRead_alike hs.store hreadable hacc hacc' a.store]
    exact .same _ (hrest _)

end Harmless

/-! ## Erasing the rolled-back calls -/

/-- **A pool and the same pool without the calls of `own`**: the same store, alike programs of the other
calls, and the same replies of those that have returned. -/
structure Erases {St : EventStore σ κ} (K : St.Contract) (R : ι → Runtime S C E) (own : Nat → Bool)
    (P Q : Pool (Shared σ) (Request ι C) Op Res (Reply S C E)) : Prop where
  store : Q.shared.store = P.shared.store
  kept : ∀ j, own j = false → Option.Rel (fun x y => x.1 = y.1 ∧
    Like K (R x.1.runtime) x.1.options P.shared.store x.2 y.2) (P.thread j) (Q.thread j)
  removed : ∀ j, own j = true → Q.thread j = none
  owned : ∀ j c p, own j = true → P.thread j = some (c, p) →
    c.viaStore = false ∧ Shaped (R c.runtime) c.options p
  finished : Q.finished = P.finished.filter (fun x => !own x.1)

section Erases

variable {St : EventStore σ κ} {K : St.Contract} {R : ι → Runtime S C E} {own : Nat → Bool}
  {P Q : Pool (Shared σ) (Request ι C) Op Res (Reply S C E)}
  {a : PoolAction (Request ι C) (Answer κ) (CacheStep R)}

/-- A call that is erased is none that is kept. -/
theorem ne_of_own {i j : Nat} (hi : own i = true) (hj : own j = false) : i ≠ j := by
  rintro rfl
  rw [hi] at hj
  cases hj

theorem erases_start (s : Shared σ) : Erases K R own (Pool.start s) (Pool.start s) where
  store := rfl
  kept _ _ := .none
  removed _ _ := rfl
  owned _ _ _ _ h := nomatch h
  finished := rfl

/-- A name is as fresh without the erased calls. -/
theorem Erases.unused (h : Erases K R own P Q) {j : Nat} (hj : own j = false)
    (hu : P.unused j = true) : Q.unused j = true := by
  simp only [Pool.unused, Bool.and_eq_true, List.all_eq_true, decide_eq_true_eq] at hu ⊢
  obtain ⟨hthread, hfinished⟩ := hu
  refine ⟨?_, fun x hx => hfinished x ?_⟩
  · have hrel := h.kept j hj
    rw [Option.isNone_iff_eq_none.mp hthread] at hrel
    generalize Q.thread j = y at hrel ⊢
    cases hrel
    rfl
  · rw [h.finished] at hx
    exact (List.mem_filter.mp hx).1

/-- Both pools record a step of a call that is kept. -/
theorem Erases.put (h : Erases K R own P Q) {j : Nat} (hj : own j = false) {t : Shared σ}
    {p q : Prog Op Res (Reply S C E)} (hstore : t.store = s.store) (hle : K.le P.shared.store s.store)
    (hlike : Like K (R c.runtime) c.options s.store p q) :
    Erases K R own (P.put j c s p) (Q.put j c t q) := by
  refine ⟨by rw [Pool.put_shared, Pool.put_shared, hstore], fun i hi => ?_, fun i hi => ?_,
    fun i c' p' hi hp' => ?_, ?_⟩
  · rw [Pool.put_shared]
    by_cases hij : i = j
    · subst hij
      cases hlike with
      | same p hp =>
        cases p with
        | ret a =>
          rw [Pool.thread_put_ret, Pool.thread_put_ret]
          exact .none
        | call o k =>
          simp only [Pool.put, Function.update_self]
          exact .some ⟨rfl, .same _ hp⟩
      | read sid acc acc' rest hacc hacc' hrest =>
        simp only [Pool.put, Function.update_self]
        exact .some ⟨rfl, .read sid acc acc' rest hacc hacc' hrest⟩
    · rw [Pool.thread_put_of_ne hij, Pool.thread_put_of_ne hij]
      have hrel := h.kept i hi
      generalize P.thread i = x at hrel ⊢
      generalize Q.thread i = y at hrel ⊢
      cases hrel with
      | none => exact .none
      | some hxy => exact .some ⟨hxy.1, hxy.2.mono hle⟩
  · rw [Pool.thread_put_of_ne (ne_of_own hi hj)]
    exact h.removed i hi
  · rw [Pool.thread_put_of_ne (ne_of_own hi hj)] at hp'
    exact h.owned i c' p' hi hp'
  · cases hlike with
    | same p hp =>
      cases p with
      | ret a =>
        simp only [Pool.put, List.filter_append, ← h.finished, List.append_cancel_left_eq]
        rw [List.filter_cons_of_pos (by simp [hj]), List.filter_nil]
      | call o k => exact h.finished
    | read sid acc acc' rest hacc hacc' hrest => exact h.finished

/-- A step of an erased call that leaves the store as it is. -/
theorem Erases.skip (h : Erases K R own P Q) {j : Nat} (hj : own j = true)
    {p : Prog Op Res (Reply S C E)} (hstore : s.store = P.shared.store) (hc : c.viaStore = false)
    (hp : Shaped (R c.runtime) c.options p) : Erases K R own (P.put j c s p) Q := by
  refine ⟨by rw [Pool.put_shared, hstore, h.store], fun i hi => ?_, h.removed,
    fun i c' p' hi hp' => ?_, ?_⟩
  · rw [Pool.put_shared, hstore, Pool.thread_put_of_ne (ne_of_own hj hi).symm]
    exact h.kept i hi
  · rcases Pool.thread_put hp' with ⟨-, rfl, rfl⟩ | ⟨-, hp'⟩
    · exact ⟨hc, hp⟩
    · exact h.owned i c' p' hi hp'
  · rw [h.finished]
    cases p with
    | ret a =>
      simp only [Pool.put, List.filter_append]
      rw [List.filter_cons_of_neg (by simp [hj]), List.filter_nil, List.append_nil]
    | call o k => rfl

/-- The snapshots in a pool of the harmless system are right. -/
abbrev RightPool (K : St.Contract) (R : ι → Runtime S C E)
    (P : Pool (Shared σ) (Request ι C) Op Res (Reply S C E)) : Prop :=
  (cacheLogic K R).Sound (harmlessRuntimes R St) (fun _ _ _ => True) P

variable {a : PoolAction (Request ι C) (Answer κ) (CacheStep R)}

/-- Harmless appends keep the snapshots right. -/
theorem rightPool_step (hsame : SameFold R) (hstates : StatesRoundTrip R)
    (hcodec : ∀ i, RoundTrips (R i).toModel) (hP : RightPool K R P)
    (hs : (harmlessRuntimes R St).step P a = some P') :
    RightPool K R P' ∧ K.le P.shared.store P'.shared.store := by
  have hallows : System.Allows (fun _ _ => True) (cacheLogic K R).allowed P a :=
    System.allows_of_forall (fun _ _ => trivial) (fun _ _ => trivial) P a
  refine Logic.Sound.step (fun _ _ _ _ h => by cases h) (fun c s _ _ => ?_) hP hallows hs
  exact wp_program (fun _ _ _ _ h => (exec_harmlessRuntimes h).2) hsame hstates hcodec c
    (fun _ p a s s' res h => events_of_harmless h) s

/-- A call of an erased call leaves the store as it is. -/
theorem store_of_shaped {Rt : Runtime S C E} (happend : ho.append = true) (h : Shaped Rt ho (.call o k))
    {a : Answer κ} {s' : Shared σ} {r : Res o} (hex : execShared St o a s = some (s', r)) :
    s'.store = s.store := by
  have hplain : ∀ p, o ≠ .append p := by
    rintro p rfl
    cases h with
    | call _ _ hplain _ =>
      rw [show ho.append = false from hplain] at happend
      cases happend
  cases o with
  | append p => exact absurd rfl (hplain p)
  | _ =>
    cases hex
    rfl

/-- The actions that are not of the calls of `own`. -/
def keeps (own : Nat → Bool) : PoolAction (Request ι C) (Answer κ) (CacheStep R) → Bool
  | .spawn j _ | .step j _ => !own j
  | .env _ => true

/-- **A kept step** can be taken without the erased calls. -/
theorem Erases.step_kept (h : Erases K R own P Q) (hP : RightPool K R P) (hQ : RightPool K R Q)
    (hreadable : K.readable P.shared.store) (ha : keeps own a = true)
    (hle : K.le P.shared.store P'.shared.store) (hs : (harmlessRuntimes R St).step P a = some P') :
    ∃ Q', (harmlessRuntimes R St).step Q a = some Q' ∧ Erases K R own P' Q' := by
  rcases System.step_cases hs with ⟨j, c, rfl, hu, rfl⟩ |
    ⟨j, ans, c, o, k, s, r, rfl, hth, hex, rfl⟩ | ⟨e, s, rfl, he, rfl⟩
  · have hj : own j = false := by simpa [keeps] using ha
    refine ⟨Q.put j c Q.shared (c.program R), if_pos (h.unused hj hu), ?_⟩
    exact h.put hj h.store ((cacheLogic K R).refl P.shared) (.same _ (shaped_program R c))
  · have hj : own j = false := by simpa [keeps] using ha
    rw [Pool.put_shared] at hle
    have hrel := h.kept j hj
    rw [hth] at hrel
    generalize hq : Q.thread j = y at hrel
    obtain _ | ⟨c', q⟩ := y
    · cases hrel
    obtain ⟨rfl, hlike⟩ : c = c' ∧ Like K (R c.runtime) c.options P.shared.store (.call o k) q := by
      cases hrel with
      | some hxy => exact hxy
    obtain ⟨o', k', t', r', rfl, hex', hstore, hlike'⟩ :=
      hlike.exec hP.inv hQ.inv h.store hreadable hex
    refine ⟨Q.put j c t' (k' r'), ?_, h.put hj hstore hle hlike'⟩
    simp only [System.step, hq, hex', Option.map_some]
  · cases he

/-- **A step of an erased call** changes nothing for the others. -/
theorem Erases.step_erased (h : Erases K R own P Q) (hok : Harmless R St own P a)
    (ha : keeps own a = false) (hs : (harmlessRuntimes R St).step P a = some P') :
    Erases K R own P' Q := by
  rcases System.step_cases hs with ⟨j, c, rfl, hu, rfl⟩ |
    ⟨j, ans, c, o, k, s, r, rfl, hth, hex, rfl⟩ | ⟨e, s, rfl, he, rfl⟩
  · have hj : own j = true := by simpa [keeps] using ha
    exact h.skip hj rfl (hok hj) (shaped_program R c)
  · have hj : own j = true := by simpa [keeps] using ha
    obtain ⟨hc, hshaped⟩ := h.owned j c _ hj hth
    exact h.skip hj (store_of_shaped (Request.append_options hc) hshaped (exec_harmlessRuntimes hex).2)
      hc (hshaped.next r)
  · cases he

/-- What can be read back after a step could be read back before it. -/
theorem readable_of_step (hs : (harmlessRuntimes R St).step P a = some Q)
    (hP : K.inv P.shared.store) (h : K.readable Q.shared.store) : K.readable P.shared.store := by
  rcases System.step_cases hs with ⟨j, c, rfl, hu, rfl⟩ |
    ⟨j, ans, c, o, k, s, r, rfl, hth, hex, rfl⟩ | ⟨e, s, rfl, he, rfl⟩
  · rwa [Pool.put_shared] at h
  · rw [Pool.put_shared] at h
    have hexec := (exec_harmlessRuntimes hex).2
    cases o with
    | append p =>
      cases hexec
      exact K.readable_append ans.store p P.shared.store hP h
    | _ =>
      cases hexec
      exact h
  · cases he

end Erases

/-- **A rolled-back append leaves no trace, if it fails or has no events.** Take any number of runtimes
over one store and one cache, as for `snapshots_pure_cache`, and any interleaving of loads and commands,
some of which append by a function of the caller in a transaction that is rolled back. Let every such
function fail, or be given no events, and let every event that is stored be readable. Take away any
number of these calls. What is left of the run is a run: with the same log at its end, and in which
every other call has returned exactly what it returned. -/
theorem rolled_back_leaves_no_trace {R : ι → Runtime S C E} {St : EventStore σ κ} (K : St.Contract)
    (hsame : SameFold R) (hcodec : ∀ i, RoundTrips (R i).toModel) (hstates : StatesRoundTrip R)
    {s₀ : σ} (hs₀ : K.inv s₀) {own : Nat → Bool}
    {as : List (PoolAction (Request ι C) (Answer κ) (CacheStep R))}
    {P : Pool (Shared σ) (Request ι C) Op Res (Reply S C E)}
    (hrun : GuardedRun (cachedRuntimes R St).step (Harmless R St own)
      (Pool.start ⟨s₀, fun _ => none, []⟩) as P)
    (hreadable : K.readable P.shared.store) :
    ∃ Q, runActions (cachedRuntimes R St).step (Pool.start ⟨s₀, fun _ => none, []⟩)
        (as.filter (keeps own)) = some Q ∧
      Q.shared.store = P.shared.store ∧ Q.finished = P.finished.filter (fun x => !own x.1) := by
  have hstart : RightPool K R (Pool.start ⟨s₀, fun _ => none, []⟩) :=
    Sound.start (rightCache_empty R hs₀)
  have hstep : ∀ P a P', RightPool K R P → (harmlessRuntimes R St).step P a = some P' →
      RightPool K R P' ∧ K.le P.shared.store P'.shared.store :=
    fun P a P' hP hs => rightPool_step hsame hstates hcodec hP hs
  have hharmless := hrun.of_step (fun P a P' hok hs => step_harmlessRuntimes hok hs)
  -- what can be read back at the end could be read back all along
  obtain ⟨-, hguarded⟩ := hharmless.backwards (q := fun P => K.readable P.shared.store)
    (fun P a P' hP _ hs => ⟨(hstep P a P' hP hs).1, readable_of_step hs hP.inv.store⟩)
    hstart hreadable
  obtain ⟨Q, hQ, herases, -⟩ := hguarded.erase
    (R := fun P Q => Erases K R own P Q ∧ RightPool K R P ∧ RightPool K R Q)
    (fun P Q a P' hPQ hok (ha : keeps own a = true) hs => by
      obtain ⟨herases, hP, hQ⟩ := hPQ
      obtain ⟨hP', hle⟩ := hstep P a P' hP hs
      obtain ⟨Q', hs', herases'⟩ := herases.step_kept hP hQ hok.2 ha hle hs
      exact ⟨Q', hs', herases', hP', (hstep Q a Q' hQ hs').1⟩)
    (fun P Q a P' hPQ hok ha hs =>
      ⟨hPQ.1.step_erased hok.1 ha hs, (hstep P a P' hPQ.2.1 hs).1, hPQ.2.2⟩)
    ⟨erases_start _, hstart, hstart⟩
  exact ⟨Q, runActions_of_step (fun P a P' hs => step_cachedRuntimes hs) hQ, herases.store,
    herases.finished⟩

instance (R : ι → Runtime S C E) (St : EventStore σ κ) (own : Nat → Bool)
    (P : Pool (Shared σ) (Request ι C) Op Res (Reply S C E)) :
    (a : PoolAction (Request ι C) (Answer κ) (CacheStep R)) → Decidable (Harmless R St own P a)
  | .spawn j c => inferInstanceAs (Decidable (own j = true → c.viaStore = false))
  | .step j a => inferInstanceAs (Decidable
      (∀ x ∈ P.thread j, x.2.Next (fun o => harmless St a P.shared.store o = true)))
  | .env _ => inferInstanceAs (Decidable False)

/-- A command on `counter:main` whose append is rolled back. -/
def rolledBackRequest : Request Unit Unit :=
  ⟨(), counterMain, .handle () increment.info none { append := true }⟩

/-- A load of `counter:main`. -/
def loadRequest : Request Unit Unit := ⟨(), counterMain, .load⟩

/-- The command, with as many steps as it makes, and then a load. -/
def rolledBackThenLoad (R : Unit → Runtime Nat Unit Unit) (steps : Nat)
    (answer : Answer Sqlite.StoreChoice) :
    List (PoolAction (Request Unit Unit) (Answer Sqlite.StoreChoice) (CacheStep R)) :=
  .spawn 0 rolledBackRequest :: List.replicate steps (.step 0 answer) ++
    .spawn 1 loadRequest :: List.replicate 2 (.step 1 (quietAnswer 0 true))

/-- Answers with an error of the cache and of a caller's own append. -/
def faultyAnswer : Answer Sqlite.StoreChoice :=
  { quietAnswer 1 true with fault := some ⟨[], [], false⟩ }

/-- The state and the version that a reply of a load has. -/
def Reply.loaded? : Reply S C E → Option (S × UInt64)
  | .loaded (.ok acc) => some acc
  | _ => none

/-- A command whose append is rolled back is overtaken by one that appends an event; then a load. -/
def rolledBackAmong (R : Unit → Runtime Nat Unit Unit) :
    List (PoolAction (Request Unit Unit) (Answer Sqlite.StoreChoice) (CacheStep R)) :=
  .spawn 0 rolledBackRequest :: List.replicate 2 (.step 0 faultyAnswer) ++
    .spawn 2 incrementRequest :: List.replicate 7 (.step 2 (quietAnswer 1 true)) ++
    List.replicate 3 (.step 0 faultyAnswer) ++
    .spawn 1 loadRequest :: List.replicate 2 (.step 1 (quietAnswer 0 true))

/-- The caller's function fails, and a load returns the event that the other command has appended. -/
theorem rolled_back_leaves_no_trace_failed :
    ∃ P Q, GuardedRun (cachedRuntimes (fun _ => cachedCounter) (Sqlite.sqliteStore storeText 0)).step
        (Harmless _ (Sqlite.sqliteStore storeText 0) (· == 0)) (Pool.start ⟨.empty, fun _ => none, []⟩)
        (rolledBackAmong _) P ∧
      P.finished.map (fun x => (x.1, x.2.2.loaded?)) = [(2, none), (0, none), (1, some (1, 1))] ∧
      P.shared.store.events.rows.length = 1 ∧
      Q.shared.store = P.shared.store ∧
      Q.finished = P.finished.filter (fun x => !(x.1 == 0)) ∧
      runActions (cachedRuntimes (fun _ => cachedCounter) (Sqlite.sqliteStore storeText 0)).step
        (Pool.start ⟨.empty, fun _ => none, []⟩) ((rolledBackAmong _).filter (keeps (· == 0))) = some Q := by
  obtain ⟨P, hrun, hloaded, hlen, hrows⟩ :
      ∃ P, GuardedRun (cachedRuntimes (fun _ => cachedCounter) (Sqlite.sqliteStore storeText 0)).step
          (Harmless _ (Sqlite.sqliteStore storeText 0) (· == 0)) (Pool.start ⟨.empty, fun _ => none, []⟩)
          (rolledBackAmong _) P ∧
        P.finished.map (fun x => (x.1, x.2.2.loaded?)) = [(2, none), (0, none), (1, some (1, 1))] ∧
        P.shared.store.events.rows.length = 1 ∧
        ∀ r ∈ P.shared.store.events.rows,
          (Sqlite.scanEnvelope storeText r).toOption.map (fun _ => ()) = some () :=
    exists_guardedRun (by decide +kernel)
  have hreadable : (Sqlite.sqliteContract documented_storeText 0).readable P.shared.store :=
    fun r hr => (exists_eq_ok (hrows r hr)).imp fun _ h => h.1
  obtain ⟨Q, hQ, hstore, hfinished⟩ := rolled_back_leaves_no_trace
    (Sqlite.sqliteContract documented_storeText 0) sameFold_cachedCounter
    (fun _ => roundTrips_counter) statesRoundTrip_cachedCounter ⟨[], Sqlite.written_empty storeText⟩
    hrun hreadable
  exact ⟨P, Q, hrun, hloaded, hlen, hstore, hfinished, hQ⟩

/-- **The snapshot outlives the rollback.** A command on an empty stream appends one event in a
transaction that is rolled back. The log is empty, but the next load returns the state and the version
of the event; without the command it returns the empty stream. -/
theorem rolled_back_snapshot :
    (∃ P, runActions (cachedRuntimes (fun _ => cachedCounter) (Sqlite.sqliteStore storeText 0)).step
        (Pool.start ⟨.empty, fun _ => none, []⟩) (rolledBackThenLoad _ 7 (quietAnswer 1 true)) = some P ∧
      P.shared.store.events.rows = [] ∧
      P.finished.map (fun x => x.2.2.loaded?) = [none, some (1, 1)]) ∧
    ∃ P, runActions (cachedRuntimes (fun _ => cachedCounter) (Sqlite.sqliteStore storeText 0)).step
        (Pool.start ⟨.empty, fun _ => none, []⟩)
        ((rolledBackThenLoad _ 7 (quietAnswer 1 true)).filter (keeps (· == 0))) = some P ∧
      P.finished.map (fun x => x.2.2.loaded?) = [some (0, 0)] :=
  ⟨exists_run (by decide +kernel), exists_run (by decide +kernel)⟩

end EsLite.Aggregate
