import EsLite.Aggregate.Asserted
import EsLite.Aggregate.DecidedAt

/-!
# Reads of bounded staleness

`LoadStale` returns a cached state without reading the store, if its snapshot is not older than the caller
tolerates. The age of a snapshot counts from its stamp, and a handler stamps a snapshot when it saves it,
some time after the append that led to the state. What the bound is worth therefore depends on what is
committed between the append and the stamp.

* `Runtime.loadStale` — the read.
* `CommittedAt` — when an event was committed in a run.
* `StampedCurrent` — the steps that stamp a snapshot only while its stream is at its version.
* `loadStale_bounded` — in runs of such steps, a fresh state contains every event that was committed before
  the tolerated age; `loadStale_misses_old_event` is a run that is not.
-/

namespace EsLite.Aggregate

open Logic Prog

variable {S C E ι σ κ : Type}

/-! ## The read -/

namespace Runtime

variable (R : Runtime S C E)

/-- Fall back to a load. -/
def loadStrong (sid : StreamID) : Act LoadError (S × UInt64 × Bool) := do
  let (state, version) ← R.load sid 0 .zero
  pure (state, version, false)

theorem run_loadStrong (sid : StreamID) : (R.loadStrong sid).run =
    (R.load sid 0 .zero).run >>= fun r => .ret (r.map fun x => (x.1, x.2, false)) := by
  unfold loadStrong
  show (R.load sid 0 .zero).run >>= ExceptT.bindCont _ = _
  congr 1
  funext r
  cases r <;> rfl

/-- Whether a snapshot is young enough: any is, for a bound that is not positive. -/
def withinAge (maxAge : Int64) (snap : Snapshot) : Act LoadError Bool :=
  if maxAge ≤ 0 then pure true
  else do
    let now ← perform Op.timeNow
    pure (decide (now.sub snap.recordedAt ≤ maxAge))

/-- The state of a snapshot that is young enough and decodes. -/
def cachedOrStrong (sid : StreamID) (c : Snapshots S) (snap : Snapshot) (within : Bool) :
    Act LoadError (S × UInt64 × Bool) :=
  match within, c.stateCodec.decode snap.state with
  | true, .ok state => pure (state, snap.version, true)
  | _, _ => R.loadStrong sid

/-- What a read does with the answer of the cache. -/
def onSnapshot (sid : StreamID) (maxAge : Int64) (c : Snapshots S) :
    Except Foreign (Option Snapshot) → Act LoadError (S × UInt64 × Bool)
  | .ok (some snap) =>
    if snap.foldVersion = c.foldVersion then do
      let within ← withinAge maxAge snap
      R.cachedOrStrong sid c snap within
    else R.loadStrong sid
  | _ => R.loadStrong sid

/-- `LoadStale`: a cached state that is young enough, or a load; and whether it is a cached state. -/
def loadStale (sid : StreamID) (maxAge : Int64) : Act LoadError (S × UInt64 × Bool) :=
  match R.snapshots with
  | none => R.loadStrong sid
  | some c => do
    let r ← perform (Op.loadSnapshot sid.canonical)
    R.onSnapshot sid maxAge c r

end Runtime

/-! ## Stamps -/

/-- The snapshot that a program is about to save. -/
def savingOf {α : Type} : Prog Op Res α → Option (Bytes × Snapshot)
  | .call (.saveSnapshot streamID snap) _ => some (streamID, snap)
  | _ => none

/-- The snapshot that a program is going to save with this reading of the clock as its stamp. -/
def stampOf {α : Type} (now : Time) : Prog Op Res α → Option (Bytes × Snapshot)
  | .call .timeNow k => savingOf (k now)
  | _ => none

/-- The clock, when it is read. -/
def clockReply : (o : Op) → Res o → Option Time
  | .timeNow, now => some now
  | _, _ => none

/-- A snapshot is saved right after the clock was read, with that reading as its stamp. -/
def SavesStamped {α : Type} (o : Op) (k : Res o → Prog Op Res α) : Prop :=
  ∀ r y, savingOf (k r) = some y → clockReply o r = some y.2.recordedAt

/-- Every snapshot that a program saves is stamped by it. -/
structure Stamps {α : Type} (p : Prog Op Res α) : Prop where
  first : savingOf p = none
  each : p.Each SavesStamped

section Stamps

variable {α β : Type}

theorem Stamps.ret (a : α) : Stamps (.ret a) := ⟨rfl, trivial⟩

theorem Stamps.call {o : Op} {k : Res o → Prog Op Res α} (hfirst : savingOf (.call o k) = none)
    (hk : ∀ r, Stamps (k r)) : Stamps (.call o k) := by
  refine ⟨hfirst, fun r y hy => ?_, fun r => (hk r).each⟩
  rw [(hk r).first] at hy
  cases hy

theorem Stamps.bind {p : Prog Op Res α} {f : α → Prog Op Res β} (hp : Stamps p)
    (hf : ∀ a, Stamps (f a)) : Stamps (p >>= f) := by
  have hsaving : ∀ q : Prog Op Res α, ∀ y, savingOf (q >>= f) = some y → savingOf q = some y := by
    intro q y hy
    cases q with
    | ret a =>
      rw [ret_bind, (hf a).first] at hy
      cases hy
    | call o k => cases o <;> exact hy
  refine ⟨?_, Each.bind (hp.each.mono fun o k h r y hy => h r y (hsaving _ y hy)) fun a => (hf a).each⟩
  cases h : savingOf (p >>= f) with
  | none => rfl
  | some y => cases (hsaving p y h).symm.trans hp.first

/-- Programs that may end in an error. -/
theorem Stamps.bindExcept {ε : Type} {p : Act ε α} {f : α → Act ε β} (hp : Stamps p.run)
    (hf : ∀ a, Stamps (f a).run) : Stamps (p >>= f).run := by
  refine Stamps.bind (p := p.run) (f := ExceptT.bindCont f) hp (fun r => ?_)
  cases r with
  | ok a => exact hf a
  | error err => exact .ret _

end Stamps

section Programs

variable (R : Runtime S C E) (sid : StreamID)

theorem stamps_load : Stamps (R.load sid 0 .zero).run := by
  cases hc : R.snapshots with
  | none =>
    rw [load_uncached hc]
    exact .call rfl (fun _ => .ret _)
  | some c =>
    rw [load_cached hc]
    exact .call rfl (fun _ => .call rfl (fun _ => .ret _))

/-- **The one place where a snapshot is saved.** -/
theorem stamps_saveSnapshot (state : S) (version : UInt64) (x : Result S E) :
    Stamps (R.saveSnapshot sid state version >>= fun _ => pure x).run := by
  rcases run_saveSnapshot_then R sid state version x with hrun | ⟨snap, hrun, hstamp⟩
  · rw [hrun]
    exact .ret _
  · rw [hrun]
    refine ⟨rfl, fun now y hy => ?_, fun now => ⟨fun r y hy => ?_, fun _ => trivial⟩⟩
    · cases hy
      exact congrArg some (hstamp now).symm
    · cases hy

theorem stamps_onLoaded (cmd : C) (m : Meta) (now : Time) (v : UInt64) (ho : HandleOptions)
    (r : Except LoadError (S × UInt64)) : Stamps (R.onLoaded sid cmd m now v ho r) := by
  cases r with
  | error err => exact .ret _
  | ok acc =>
    simp only [Runtime.onLoaded]
    refine Stamps.bindExcept (.ret _) (fun d => ?_)
    cases d with
    | noop => exact .ret _
    | append events encoded constraints =>
      refine Stamps.bindExcept ?_ (fun res => stamps_saveSnapshot R sid _ _ _)
      unfold Runtime.appendFn
      cases ho.append with
      | false => exact .call rfl (fun _ => .ret _)
      | true => exact .call rfl (fun _ => .ret _)

theorem stamps_handleOnce (cmd : C) (m : Meta) (now : Time) (v : UInt64) (ho : HandleOptions) :
    Stamps (R.handleOnce sid cmd m now v ho).run := by
  rw [Runtime.run_handleOnce]
  exact (stamps_load R sid).bind (stamps_onLoaded R sid cmd m now v ho)

/-- The retry loop saves what its attempts save. -/
theorem stamps_attempts {once : Act HandleError (Result S E)} (honce : Stamps once.run) (n left : Nat) :
    Stamps (Runtime.attempts once n left) := by
  induction left generalizing n with
  | zero => exact honce.bind (fun _ => .ret _)
  | succ left ih =>
    rw [attempts_succ]
    refine honce.bind (fun r => ?_)
    cases r with
    | ok res => exact .ret _
    | error err =>
      by_cases hretried : Retried err
      · rw [afterPass_retried hretried]
        refine .call rfl (fun x => ?_)
        cases x with
        | none => exact ih (n + 1)
        | some x => exact .ret _
      · rw [afterPass_ended hretried]
        exact .ret _

theorem stamps_handleAt (cmd : C) (m : Meta) (v : UInt64) (ho : HandleOptions) :
    Stamps (R.handleAt sid cmd m v ho).run := by
  rw [run_handleAt]
  refine .call rfl (fun now => ?_)
  show Stamps (stamped m _ (R.stampCommand now cmd))
  cases R.stampCommand now cmd with
  | error err => exact .ret _
  | ok cmd' =>
    have hattempts : ∀ m', Stamps (Runtime.attempts (R.handleOnce sid cmd' m' now v ho) 0 R.retries >>=
        fun r => .ret (withCommand cmd' r)) :=
      fun m' => (stamps_attempts (stamps_handleOnce R sid cmd' m' now v ho) 0 R.retries).bind
        (fun _ => .ret _)
    rw [stamped, filled]
    split
    · exact .call rfl (fun id => hattempts _)
    · exact hattempts _

end Programs

/-- **Every call** stamps the snapshots that it saves. -/
theorem stamps_program (R : ι → Runtime S C E) (c : Request ι C) : Stamps (c.program R) := by
  obtain ⟨i, sid, task⟩ := c
  cases task with
  | load => exact (stamps_load (R i) sid).bind (fun _ => .ret _)
  | handle cmd info expected ho =>
    cases expected with
    | none => exact (stamps_handleAt (R i) sid cmd info 0 ho).bind (fun _ => .ret _)
    | some v => exact (stamps_handleAt (R i) sid cmd info v ho).bind (fun _ => .ret _)

/-! ## Times in a run -/

/-- The actions of runtimes that share a store and a cache. -/
abbrev Action (R : ι → Runtime S C E) (κ : Type) := PoolAction (Request ι C) (Answer κ) (CacheStep R)

/-- The clock, when a call takes a step. -/
def reading {R : ι → Runtime S C E} : Action R κ → Option Time
  | .step _ a => some a.now
  | _ => none

/-- **One clock**: the steps of a run take place one after the other. -/
def OneClock {R : ι → Runtime S C E} (as : List (Action R κ)) : Prop :=
  as.Pairwise (fun x y => ∀ t ∈ reading x, ∀ t' ∈ reading y, t.ns < t'.ns)

instance {R : ι → Runtime S C E} (as : List (Action R κ)) : Decidable (OneClock as) :=
  inferInstanceAs (Decidable (as.Pairwise (fun x y => ∀ t ∈ reading x, ∀ t' ∈ reading y, t.ns < t'.ns)))

variable {P : Pool (Shared σ) (Request ι C) Op Res (Reply S C E)} {a : Answer κ} {s s' : Shared σ}
  {snap : Snapshot} {sid : StreamID}

section Times

variable {St : EventStore σ κ} (K : St.Contract) (R : ι → Runtime S C E)
  (start : Pool (Shared σ) (Request ι C) Op Res (Reply S C E))

/-- **When an event was committed**: the step of the run that brought the stream beyond `n` events was at
time `c`. -/
def CommittedAt (as : List (Action R κ)) (sid : StreamID) (n : Nat) (c : Time) : Prop :=
  ∃ m j a P P', as[m]? = some (.step j a) ∧
    runActions (cachedRuntimes R St).step start (as.take m) = some P ∧
    (cachedRuntimes R St).step P (.step j a) = some P' ∧
    (K.rows P.shared.store sid).length ≤ n ∧ n < (K.rows P'.shared.store sid).length ∧ c = a.now

/-- **A snapshot is stamped while its stream is at its version**: a condition on the step that reads the
clock for it. -/
def StampedCurrent (P : Pool (Shared σ) (Request ι C) Op Res (Reply S C E)) : Action R κ → Prop
  | .step j a => ∀ x ∈ P.thread j, ∀ y ∈ stampOf a.now x.2, ∀ sid : StreamID, sid.Valid →
      sid.canonical = y.1 → (K.rows P.shared.store sid).length = y.2.version.toNat
  | _ => True

/-- The snapshot was stamped in the run, while its stream was at its version. -/
def StampedIn (as : List (Action R κ)) (streamID : Bytes) (snap : Snapshot) : Prop :=
  ∃ m j a P, as[m]? = some (.step j a) ∧
    runActions (cachedRuntimes R St).step start (as.take m) = some P ∧ a.now = snap.recordedAt ∧
    (∀ P', (cachedRuntimes R St).step P (.step j a) = some P' → P'.shared.store = P.shared.store) ∧
    ∀ sid : StreamID, sid.Valid → sid.canonical = streamID →
      (K.rows P.shared.store sid).length = snap.version.toNat

/-- The snapshots that are or may come into use were stamped while their streams were at their
versions. -/
structure StampedCache (as : List (Action R κ)) (P : Pool (Shared σ) (Request ι C) Op Res (Reply S C E)) :
    Prop where
  cache : ∀ streamID snap, P.shared.cache streamID = some snap →
    Unusable R snap ∨ StampedIn K R start as streamID snap
  saved : ∀ x ∈ P.shared.saved, StampedIn K R start as x.1 x.2
  saving : ∀ j c p y, P.thread j = some (c, p) → savingOf p = some y → StampedIn K R start as y.1 y.2

variable {K R start}

variable {as : List (Action R κ)}

/-- A commit, found by running the actions before it. -/
theorem committedAt_of_run {m j n : Nat} (ha : as[m]? = some (.step j a))
    (h : (runActions (cachedRuntimes R St).step start (as.take m)).any (fun P =>
      ((cachedRuntimes R St).step P (.step j a)).any (fun P' =>
        (K.rows P.shared.store sid).length ≤ n ∧ n < (K.rows P'.shared.store sid).length)) = true) :
    CommittedAt K R start as sid n a.now := by
  obtain ⟨P, hP, h⟩ := (Option.any_eq_true _ _).mp h
  obtain ⟨P', hP', h⟩ := (Option.any_eq_true _ _).mp h
  exact ⟨m, j, a, P, P', ha, hP, hP', (of_decide_eq_true h).1, (of_decide_eq_true h).2, rfl⟩

/-- What was stamped in a run was stamped in a longer one. -/
theorem StampedIn.mono {streamID : Bytes} (h : StampedIn K R start as streamID snap)
    (bs : List (Action R κ)) : StampedIn K R start (as ++ bs) streamID snap := by
  obtain ⟨m, j, a, P, ha, hP, hrest⟩ := h
  have hm : m < as.length := (List.getElem?_eq_some_iff.mp ha).1
  refine ⟨m, j, a, P, ?_, ?_, hrest⟩
  · rw [List.getElem?_append_left hm]
    exact ha
  · rw [List.take_append_of_le_length hm.le]
    exact hP

theorem StampedCache.mono (h : StampedCache K R start as P) (bs : List (Action R κ)) :
    StampedCache K R start (as ++ bs) P where
  cache streamID snap hsnap := (h.cache streamID snap hsnap).imp_right (·.mono bs)
  saved x hx := (h.saved x hx).mono bs
  saving j c p y hp hy := (h.saving j c p y hp hy).mono bs

/-- A step of a call, and what it was about to save before and is about to save now. -/
theorem StampedCache.put (h : StampedCache K R start as P) {j : Nat} {c : Request ι C}
    {p : Prog Op Res (Reply S C E)} (hcache : ∀ streamID snap, s.cache streamID = some snap →
      Unusable R snap ∨ StampedIn K R start as streamID snap)
    (hsaved : ∀ x ∈ s.saved, StampedIn K R start as x.1 x.2)
    (hp : ∀ y, savingOf p = some y → StampedIn K R start as y.1 y.2) :
    StampedCache K R start as (P.put j c s p) := by
  refine ⟨?_, ?_, fun i c' p' y hp' hy => ?_⟩
  · rw [Pool.put_shared]
    exact hcache
  · rw [Pool.put_shared]
    exact hsaved
  · rcases Pool.thread_put hp' with ⟨-, -, rfl⟩ | ⟨-, hp'⟩
    · exact hp y hy
    · exact h.saving i c' p' y hp' hy

/-- The calls other than a save leave the cache as it is. -/
theorem execShared_cache {o : Op} {r : Res o} (ho : ∀ streamID snap, o ≠ .saveSnapshot streamID snap)
    (h : execShared St o a s = some (s', r)) : s'.cache = s.cache ∧ s'.saved = s.saved := by
  cases o with
  | saveSnapshot streamID snap => exact absurd rfl (ho streamID snap)
  | _ =>
    cases h
    exact ⟨rfl, rfl⟩

/-- Reading the clock leaves the store as it is. -/
theorem store_of_clockReply {o : Op} {r : Res o} {now : Time} (h : execShared St o a s = some (s', r))
    (hclock : clockReply o r = some now) : o = .timeNow ∧ now = a.now ∧ s' = s := by
  cases o with
  | timeNow =>
    cases h
    exact ⟨rfl, (Option.some.inj hclock).symm, rfl⟩
  | _ => cases hclock

/-- What happens to a cache by itself brings no new snapshots into use. -/
theorem StampedCache.env (h : StampedCache K R start as P) {e : CacheStep R}
    (he : cacheStep R e P.shared = some s) : StampedCache K R start as { P with shared := s } := by
  cases e with
  | deliver streamID snap =>
    simp only [cacheStep] at he
    split at he
    · rename_i hmem
      cases he
      refine ⟨cached_update h.cache (fun x hx => ?_), h.saved, h.saving⟩
      cases hx
      exact .inr (h.saved _ hmem)
    · cases he
  | evict streamID =>
    cases he
    refine ⟨cached_update h.cache (fun x hx => ?_), h.saved, h.saving⟩
    cases hx
  | corrupt streamID snap hunusable =>
    cases he
    refine ⟨cached_update h.cache (fun x hx => ?_), h.saved, h.saving⟩
    cases hx
    exact .inl hunusable

/-- A save puts a snapshot into use that was about to be saved. -/
theorem StampedCache.save {streamID : Bytes} {r : Res (.saveSnapshot streamID snap)}
    (hcache : ∀ streamID snap, s.cache streamID = some snap →
      Unusable R snap ∨ StampedIn K R start as streamID snap)
    (hstamped : StampedIn K R start as streamID snap)
    (hex : execShared St (.saveSnapshot streamID snap) a s = some (s', r)) :
    ∀ id snap, s'.cache id = some snap → Unusable R snap ∨ StampedIn K R start as id snap := by
  cases hex
  intro id x hx
  dsimp only at hx
  split at hx
  · refine cached_update hcache (fun y hy => ?_) id x hx
    cases hy
    exact .inr hstamped
  · exact hcache id x hx

/-- **A step of a call** keeps what is known about stamps. -/
theorem StampedCache.step (h : StampedCache K R start as P)
    (hrun : runActions (cachedRuntimes R St).step start as = some P) {j : Nat} {c : Request ι C} {o : Op}
    {k : Res o → Prog Op Res (Reply S C E)} {r : Res o} (hthread : P.thread j = some (c, .call o k))
    (heach : (Prog.call o k).Each SavesStamped) (hok : StampedCurrent K R P (.step j a))
    (hex : execShared St o a P.shared = some (s, r)) :
    StampedCache K R start (as ++ [.step j a]) (P.put j c s (k r)) := by
  have hlater := h.mono [.step j a]
  by_cases hsave : ∃ streamID snap, o = .saveSnapshot streamID snap
  · obtain ⟨streamID, snap, rfl⟩ := hsave
    have hstamped := hlater.saving j c _ _ hthread rfl
    refine hlater.put (StampedCache.save hlater.cache hstamped hex) ?_ (fun y hy => ?_)
    · cases hex
      exact List.forall_mem_cons.mpr ⟨hstamped, hlater.saved⟩
    · cases heach.1 r y hy
  · obtain ⟨hcache, hsaved⟩ :=
      execShared_cache (fun streamID snap heq => hsave ⟨streamID, snap, heq⟩) hex
    refine hlater.put (hcache ▸ hlater.cache) (hsaved ▸ hlater.saved) (fun y hy => ?_)
    obtain ⟨rfl, hnow, rfl⟩ := store_of_clockReply hex (heach.1 r y hy)
    -- the clock was read for the snapshot that is about to be saved
    have hr : r = a.now := ((Prod.mk.inj (Option.some.inj hex)).2).symm
    refine ⟨as.length, j, a, P, by simp, by simpa using hrun, hnow.symm, fun P' hP' => ?_,
      fun sid hvalid hid => hok _ hthread y ?_ sid hvalid hid⟩
    · simp only [System.step, hthread] at hP'
      obtain ⟨x, hx, rfl⟩ := Option.map_eq_some_iff.mp hP'
      rw [Pool.put_shared, ← show P.shared = x.1 from (Prod.mk.inj (Option.some.inj hx)).1]
    · rw [← hr]
      exact hy

end Times

/-- **In every run of steps that stamp snapshots in time**, the snapshots in use were. -/
theorem stampedCache_of_run {St : EventStore σ κ} {K : St.Contract} {R : ι → Runtime S C E} {s₀ : σ}
    {as : List (Action R κ)} (hrun : GuardedRun (cachedRuntimes R St).step (StampedCurrent K R)
      (Pool.start ⟨s₀, fun _ => none, []⟩) as P) :
    StampedCache K R (Pool.start ⟨s₀, fun _ => none, []⟩) as P := by
  refine guardedRun_induction ?_ (fun pre a u v hu h hok hv => ?_) hrun
  · refine ⟨fun _ _ hx => ?_, fun x hx => absurd hx List.not_mem_nil, fun _ _ _ _ hx => ?_⟩
    · cases hx
    · cases hx
  rcases System.step_cases hv with ⟨j, c, rfl, -, rfl⟩ | ⟨j, ch, c, o, k, s, r, rfl, hthread, hex, rfl⟩ |
    ⟨e, s, rfl, he, rfl⟩
  · have hlater := h.mono [.spawn j c]
    refine hlater.put hlater.cache hlater.saved (fun y hy => ?_)
    cases (stamps_program R c).first.symm.trans hy
  · refine h.step hu.run hthread ?_ hok hex
    exact System.each_of_run (Q := fun _ => SavesStamped) (fun c => (stamps_program R c).each) hu.run j c
      _ hthread
  · exact (h.mono [.env e]).env he

/-! ## A fresh state -/

/-- A difference that is not saturated at its upper end is not smaller than the distance. -/
theorem ns_sub_le {t u : Time} {maxAge : Int64} (hmax : maxAge < Int64.maxValue)
    (h : t.sub u ≤ maxAge) : t.ns - u.ns ≤ maxAge.toInt := by
  have hlow := Int64.le_toInt maxAge
  by_cases hhi : 2 ^ 63 ≤ t.ns - u.ns
  · rw [Time.sub_of_le hhi] at h
    exact absurd hmax (Int64.not_lt.mpr h)
  by_cases hlo : -2 ^ 63 ≤ t.ns - u.ns
  · rw [← Time.toInt_sub hlo (by omega)]
    exact Int64.le_iff_toInt_le.mp h
  · omega

/-- **What a fresh state is**: the decoded state of a snapshot of the cache, young enough. -/
theorem loadStale_fresh {St : EventStore σ κ} {R : Runtime S C E} {maxAge : Int64} (hpos : 0 < maxAge)
    {look clock : Answer κ} {state : S} {version : UInt64}
    (h : (R.loadStale sid maxAge).run.resume (execShared St) [(look, s), (clock, s')] =
      some (.ret (.ok (state, version, true)))) :
    ∃ c snap, R.snapshots = some c ∧ s.cache sid.canonical = some snap ∧
      snap.foldVersion = c.foldVersion ∧ c.stateCodec.decode snap.state = .ok state ∧
      version = snap.version ∧ clock.now.sub snap.recordedAt ≤ maxAge := by
  -- a load that was fallen back to does not return a fresh state
  have hstrong : ∀ xs, (R.loadStrong sid).run.resume (execShared St) xs ≠
      some (.ret (.ok (state, version, true))) := by
    intro xs hxs
    rw [Runtime.run_loadStrong] at hxs
    obtain ⟨r, -, hr⟩ := resume_map hxs
    cases r <;> cases hr
  unfold Runtime.loadStale at h
  cases hc : R.snapshots with
  | none =>
    rw [hc] at h
    exact absurd h (hstrong _)
  | some c =>
    rw [hc] at h
    -- what the cache answered
    obtain ⟨r, hcached, h⟩ : ∃ r : Except Foreign (Option Snapshot),
        (∀ snap, r = .ok (some snap) → s.cache sid.canonical = some snap) ∧
          (R.onSnapshot sid maxAge c r).run.resume (execShared St) [(clock, s')] =
            some (.ret (.ok (state, version, true))) := by
      refine ⟨_, fun snap hsnap => ?_, h⟩
      split at hsnap
      · cases hsnap
      · exact Except.ok.inj hsnap
    unfold Runtime.onSnapshot at h
    split at h
    · rename_i snap
      split at h
      · rename_i hfold
        unfold Runtime.withinAge at h
        rw [if_neg (Int64.not_le.mpr hpos)] at h
        replace h : (R.cachedOrStrong sid c snap (decide (clock.now.sub snap.recordedAt ≤ maxAge))).run.resume
          (execShared St) [] = some (.ret (.ok (state, version, true))) := h
        unfold Runtime.cachedOrStrong at h
        split at h
        · rename_i hage hdecode
          cases h
          exact ⟨c, snap, rfl, hcached snap rfl, hfold, hdecode, rfl, of_decide_eq_true hage⟩
        · exact absurd h (hstrong _)
      · exact absurd h (hstrong _)
    · exact absurd h (hstrong _)

/-! ## The bound -/

section Bound

variable {St : EventStore σ κ} {K : St.Contract} {R : ι → Runtime S C E} {s₀ : σ}

/-- The streams grow from one point of a run to a later one. -/
theorem le_of_take (hsame : SameFold R) (hstates : StatesRoundTrip R)
    (hcodec : ∀ i, RoundTrips (R i).toModel) (hs₀ : K.inv s₀) {as : List (Action R κ)}
    {Q Q' : Pool (Shared σ) (Request ι C) Op Res (Reply S C E)}
    (hrun : GuardedRun (cachedRuntimes R St).step ViaStore (Pool.start ⟨s₀, fun _ => none, []⟩) as P)
    {m m' : Nat} (hm : m ≤ m')
    (hQ : runActions (cachedRuntimes R St).step (Pool.start ⟨s₀, fun _ => none, []⟩) (as.take m) = some Q)
    (hQ' : runActions (cachedRuntimes R St).step (Pool.start ⟨s₀, fun _ => none, []⟩) (as.take m') =
      some Q') : K.le Q.shared.store Q'.shared.store := by
  rw [← List.take_append_drop m' as] at hrun
  obtain ⟨X, hX, -⟩ := guardedRun_append.mp hrun
  cases hX.run.symm.trans hQ'
  rw [← List.take_append_drop m (as.take m'), List.take_take, min_eq_left hm] at hX
  obtain ⟨Y, hY, hrest⟩ := guardedRun_append.mp hX
  cases hY.run.symm.trans hQ
  obtain ⟨hsound, -⟩ := right_run hsame hstates hcodec hY (Sound.start (rightCache_empty R hs₀))
  exact (right_run hsame hstates hcodec hrest hsound).2

/-- **What is committed by the time of a stamp is in the snapshot**: the commit was before the stamp in the
run, when the stream was at the version of the snapshot. -/
theorem StampedIn.contains (hsame : SameFold R) (hstates : StatesRoundTrip R)
    (hcodec : ∀ i, RoundTrips (R i).toModel) (hs₀ : K.inv s₀) {as : List (Action R κ)}
    (hrun : GuardedRun (cachedRuntimes R St).step ViaStore (Pool.start ⟨s₀, fun _ => none, []⟩) as P)
    (hclock : OneClock as) (hvalid : sid.Valid)
    (h : StampedIn K R (Pool.start ⟨s₀, fun _ => none, []⟩) as sid.canonical snap) {n : Nat} {c : Time}
    (hc : CommittedAt K R (Pool.start ⟨s₀, fun _ => none, []⟩) as sid n c)
    (hle : c.ns ≤ snap.recordedAt.ns) : n < snap.version.toNat := by
  obtain ⟨m, j, a, Q, ha, hQ, hstamp, hquiet, hlen⟩ := h
  obtain ⟨m', j', a', X, X', ha', hX, hstep, hbefore, hafter, rfl⟩ := hc
  rw [← hlen sid hvalid rfl]
  rcases Nat.lt_trichotomy m' m with hlt | rfl | hgt
  · -- the stream has only grown since
    have hX' : runActions (cachedRuntimes R St).step (Pool.start ⟨s₀, fun _ => none, []⟩)
        (as.take (m' + 1)) = some X' := by
      rw [List.take_add_one, ha']
      exact runActions_append.mpr ⟨X, hX, runActions_cons_eq_some.mpr ⟨X', hstep, rfl⟩⟩
    have hgrown := (le_of_take hsame hstates hcodec hs₀ hrun hlt hX' hQ sid).length_le
    omega
  · -- a step that reads the clock commits nothing
    cases hX.symm.trans hQ
    obtain ⟨rfl, rfl⟩ := PoolAction.step.inj (Option.some.inj (ha.symm.trans ha'))
    rw [hquiet X' hstep] at hafter
    omega
  · -- what is committed later has a later time
    obtain ⟨hm, ha⟩ := List.getElem?_eq_some_iff.mp ha
    obtain ⟨hm', ha'⟩ := List.getElem?_eq_some_iff.mp ha'
    have hlater := List.pairwise_iff_getElem.mp hclock m m' hm hm' hgt
    rw [ha, ha'] at hlater
    have hns := hlater a.now rfl a'.now rfl
    rw [hstamp] at hns
    omega

end Bound

/-- **Bounded staleness, when it is bounded.** Take any number of runtimes over one store, which keeps the
contract of a store, and one snapshot cache, which is empty at the start. Let any number of loads and of
commands, which append through the store, run interleaved by one clock, while what is in the cache is lost,
delayed, repeated or spoilt; and let every snapshot be stamped while its stream is at its version. Let
`LoadStale` look for a snapshot at one point of the run and compare its age with `maxAge > 0` at a later one.
If it returns a fresh state, then that state is folded from the events up to its version, and every event
that was committed at or before that time less `maxAge` is one of them. -/
theorem loadStale_bounded {R : ι → Runtime S C E} {St : EventStore σ κ} (K : St.Contract)
    (hsame : SameFold R) (hcodec : ∀ i, RoundTrips (R i).toModel) (hstates : StatesRoundTrip R)
    {s₀ : σ} (hs₀ : K.inv s₀) {as bs : List (Action R κ)}
    {P P' : Pool (Shared σ) (Request ι C) Op Res (Reply S C E)}
    (hrun : GuardedRun (cachedRuntimes R St).step (fun P a => ViaStore P a ∧ StampedCurrent K R P a)
      (Pool.start ⟨s₀, fun _ => none, []⟩) as P)
    (hrun' : GuardedRun (cachedRuntimes R St).step ViaStore P bs P') (hclock : OneClock (as ++ bs))
    (i : ι) {sid : StreamID} (hvalid : sid.Valid) {maxAge : Int64} (hpos : 0 < maxAge)
    (hmax : maxAge < Int64.maxValue) {look clock : Answer κ} {state : S} {version : UInt64}
    (hfresh : ((R i).loadStale sid maxAge).run.resume (execShared St)
      [(look, P.shared), (clock, P'.shared)] = some (.ret (.ok (state, version, true)))) :
    Seeds K (R i).toModel sid (state, version) P'.shared.store ∧
      ∀ n c, CommittedAt K R (Pool.start ⟨s₀, fun _ => none, []⟩) (as ++ bs) sid n c →
        c.ns ≤ clock.now.ns - maxAge.toInt → n < version.toNat := by
  obtain ⟨c, snap, hc, hcached, hfold, hdecode, rfl, hage⟩ := loadStale_fresh hpos hfresh
  have hvia := hrun.mono (fun _ _ h => h.1)
  obtain ⟨hP, -⟩ := right_run hsame hstates hcodec hvia (Sound.start (rightCache_empty R hs₀))
  obtain ⟨-, hgrown⟩ := right_run hsame hstates hcodec hrun' hP
  have hright := hP.inv.cache _ snap hcached i c state sid hc hfold hdecode hvalid rfl
  refine ⟨hright.mono hgrown, fun n t hcommitted ht => ?_⟩
  have hstamped : StampedIn K R (Pool.start ⟨s₀, fun _ => none, []⟩) as sid.canonical snap := by
    have hcache := stampedCache_of_run (hrun.mono fun _ _ h => h.2)
    rcases hcache.cache _ snap hcached with hunusable | hstamped
    · obtain ⟨err, herr⟩ := hunusable i c hc hfold
      rw [herr] at hdecode
      cases hdecode
    · exact hstamped
  have hns := ns_sub_le hmax hage
  exact (hstamped.mono bs).contains hsame hstates hcodec hs₀ (guardedRun_append.mpr ⟨P, hvia, hrun'⟩)
    hclock hvalid hcommitted (by omega)

/-! ## Two runs -/

/-- An answer without errors at a time, with the id of the event to append. -/
def answerAt (ns : Int) (b : UInt8) : Answer Sqlite.StoreChoice := { quietAnswer b true with now := ⟨ns⟩ }

/-- Steps of one call at the given times. -/
def stepsAt (R : Unit → Runtime Nat Unit Unit) (j : Nat) (b : UInt8) (times : List Int) :
    List (Action R Sqlite.StoreChoice) :=
  times.map (fun ns => .step j (answerAt ns b))

/-- The counter over the SQLite store, and its contract. -/
abbrev staleCounter :=
  cachedRuntimes (fun _ : Unit => cachedCounter) (Sqlite.sqliteStore storeText 0)

abbrev staleContract := Sqlite.sqliteContract documented_storeText 0

/-- A snapshot of `counter:main` is stamped while the stream is at its version. -/
def StampedMain (P : Pool (Shared Sqlite.Db) (Request Unit Unit) Op Res (Reply Nat Unit Unit)) :
    Action (fun _ : Unit => cachedCounter) Sqlite.StoreChoice → Prop
  | .step j a => ∀ x ∈ P.thread j, ∀ y ∈ stampOf a.now x.2, y.1 = counterMain.canonical ∧
      (staleContract.rows P.shared.store counterMain).length = y.2.version.toNat
  | _ => True

instance (P : Pool (Shared Sqlite.Db) (Request Unit Unit) Op Res (Reply Nat Unit Unit)) :
    (a : Action (fun _ : Unit => cachedCounter) Sqlite.StoreChoice) → Decidable (StampedMain P a)
  | .step j a => inferInstanceAs (Decidable (∀ x ∈ P.thread j, ∀ y ∈ stampOf a.now x.2,
      y.1 = counterMain.canonical ∧
        (staleContract.rows P.shared.store counterMain).length = y.2.version.toNat))
  | .spawn _ _ => isTrue trivial
  | .env _ => isTrue trivial

theorem StampedMain.current {P : Pool (Shared Sqlite.Db) (Request Unit Unit) Op Res (Reply Nat Unit Unit)}
    {a : Action (fun _ : Unit => cachedCounter) Sqlite.StoreChoice} (h : StampedMain P a) :
    StampedCurrent staleContract (fun _ => cachedCounter) P a := by
  cases a with
  | step j a =>
    intro x hx y hy sid hvalid hid
    obtain ⟨hkey, hlen⟩ := h x hx y hy
    obtain rfl : sid = counterMain := canonical_inj hvalid (by decide) (hid.trans hkey)
    exact hlen
  | _ => trivial

/-- One command, at times 1 to 7: the event is committed at 5, and the snapshot stamped at 6. -/
def incrementInTime : List (Action (fun _ : Unit => cachedCounter) Sqlite.StoreChoice) :=
  .spawn 0 incrementRequest :: stepsAt _ 0 1 [1, 2, 3, 4, 5, 6, 7]

/-- The states that reads have returned. -/
def freshOf : Option (Prog Op Res (Except LoadError (S × UInt64 × Bool))) → Option (S × UInt64 × Bool)
  | some (.ret (.ok x)) => some x
  | _ => none

theorem eq_of_freshOf {r : Option (Prog Op Res (Except LoadError (S × UInt64 × Bool)))}
    {x : S × UInt64 × Bool} (h : freshOf r = some x) : r = some (.ret (.ok x)) := by
  unfold freshOf at h
  split at h
  · cases h
    rfl
  · cases h

/-- The event is committed at 5, the snapshot is stamped at 6, and at 105 a state of at most 100 ns
contains the event. -/
theorem loadStale_bounded_in_time :
    ∃ P, GuardedRun staleCounter.step
        (fun P a => ViaStore P a ∧ StampedCurrent staleContract (fun _ => cachedCounter) P a)
        (Pool.start ⟨.empty, fun _ => none, []⟩) incrementInTime P ∧
      (cachedCounter.loadStale counterMain 100).run.resume (execShared (Sqlite.sqliteStore storeText 0))
        [(answerAt 8 0, P.shared), (answerAt 105 0, P.shared)] = some (.ret (.ok (1, 1, true))) ∧
      CommittedAt staleContract (fun _ => cachedCounter) (Pool.start ⟨.empty, fun _ => none, []⟩)
        (incrementInTime ++ []) counterMain 0 ⟨5⟩ ∧
      Seeds staleContract cachedCounter.toModel counterMain (1, 1) P.shared.store ∧ 0 < (1 : UInt64).toNat := by
  obtain ⟨P, hrun, hfresh⟩ : ∃ P, GuardedRun staleCounter.step (fun P a => ViaStore P a ∧ StampedMain P a)
        (Pool.start ⟨.empty, fun _ => none, []⟩) incrementInTime P ∧
      freshOf ((cachedCounter.loadStale counterMain 100).run.resume
        (execShared (Sqlite.sqliteStore storeText 0))
        [(answerAt 8 0, P.shared), (answerAt 105 0, P.shared)]) = some (1, 1, true) :=
    exists_guardedRun (by decide +kernel)
  have hcurrent : GuardedRun staleCounter.step
      (fun P a => ViaStore P a ∧ StampedCurrent staleContract (fun _ => cachedCounter) P a)
      (Pool.start ⟨.empty, fun _ => none, []⟩) incrementInTime P :=
    hrun.mono (fun P a h => ⟨h.1, h.2.current⟩)
  have hfresh := eq_of_freshOf hfresh
  have hcommitted : CommittedAt staleContract (fun _ => cachedCounter)
      (Pool.start ⟨.empty, fun _ => none, []⟩) (incrementInTime ++ []) counterMain 0 ⟨5⟩ :=
    committedAt_of_run (m := 5) (j := 0) (a := answerAt 5 1) rfl (by decide +kernel)
  obtain ⟨hseeds, hbound⟩ := loadStale_bounded staleContract sameFold_cachedCounter
    (fun _ => roundTrips_counter) statesRoundTrip_cachedCounter ⟨[], Sqlite.written_empty storeText⟩
    hcurrent (show GuardedRun _ _ P [] P from rfl) (by decide +kernel) () (by decide) (by decide)
    (by decide) hfresh
  exact ⟨P, hcurrent, hfresh, hcommitted, hseeds, hbound 0 ⟨5⟩ hcommitted (by decide)⟩

/-- Two commands. The first one has appended its event, at time 5, when the second one runs, from 11 to 17,
and commits its event at 15. Only then does the first one stamp its snapshot, at 1000, and save it over the
one of the second. -/
def stampedLate : List (Action (fun _ : Unit => cachedCounter) Sqlite.StoreChoice) :=
  .spawn 0 incrementRequest :: stepsAt _ 0 1 [1, 2, 3, 4, 5] ++
    .spawn 1 incrementRequest :: stepsAt _ 1 2 [11, 12, 13, 14, 15, 16, 17] ++
      stepsAt _ 0 1 [1000, 1001]

/-- **A fresh state that misses an old event.** At 1050, a state that may be 100 ns old does not contain the
event that was committed at 15. -/
theorem loadStale_misses_old_event :
    OneClock stampedLate ∧
    ∃ P, GuardedRun staleCounter.step ViaStore (Pool.start ⟨.empty, fun _ => none, []⟩) stampedLate P ∧
      (cachedCounter.loadStale counterMain 100).run.resume (execShared (Sqlite.sqliteStore storeText 0))
        [(answerAt 1040 0, P.shared), (answerAt 1050 0, P.shared)] = some (.ret (.ok (1, 1, true))) ∧
      CommittedAt staleContract (fun _ => cachedCounter) (Pool.start ⟨.empty, fun _ => none, []⟩)
        stampedLate counterMain 1 ⟨15⟩ ∧
      (15 : Int) ≤ 1050 - (100 : Int64).toInt ∧ ¬ 1 < (1 : UInt64).toNat := by
  refine ⟨by decide +kernel, exists_guardedRun_of (fun P => freshOf
    ((cachedCounter.loadStale counterMain 100).run.resume (execShared (Sqlite.sqliteStore storeText 0))
      [(answerAt 1040 0, P.shared), (answerAt 1050 0, P.shared)]) = some (1, 1, true)) (by decide +kernel)
    fun P _ hfresh => ⟨eq_of_freshOf hfresh, ?_, by decide, by decide⟩⟩
  exact committedAt_of_run (m := 11) (j := 1) (a := answerAt 15 2) rfl (by decide +kernel)

end EsLite.Aggregate
