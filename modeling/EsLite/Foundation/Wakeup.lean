import EsLite.Foundation.Interleaving

/-!
# A worker that is woken

A worker goes through a backlog, then waits to be woken, and so on. Producers put something into the
backlog first and wake the worker after it, through a channel of capacity one: a wake that finds another
one pending is dropped.

* `Worker` — which call of a system the worker's pass is, how its replies count, and when something is in
  the backlog.
* `Waking` — a pool of calls, the channel, and where the worker is. A worker may also start a pass by
  itself, at its start and at any tick.
* `Waking.caught_up` — **no wake is lost**: when the worker waits and no wake is pending, all is done that
  it was woken for. A pass has to do what was there when it began, and nothing more.
-/

namespace EsLite

/-- Where a worker is. -/
inductive WorkerPhase : Type where
  /-- It has not begun its first pass. -/
  | starting
  /-- Its pass is call `i` of the pool. -/
  | working (i : Nat)
  /-- It waits: for a wake, a tick, or its end. -/
  | selecting
  | returned
deriving DecidableEq

/-- What makes a worker begin a pass. -/
inductive WakeCause : Type where
  | first
  | wake
  | tick
deriving DecidableEq

/-- The calls of a system that a worker has to do with. -/
structure Worker (σ κ α β : Type) where
  /-- Its pass, for an amount of fuel. -/
  pass : Nat → κ
  /-- Whether the reply of a pass says that it went well; `none` when the pass has run out of fuel. -/
  ended : α → Option Bool
  /-- Whether something was put into the backlog, and may be done by now. -/
  there : β → σ → Bool

/-- A pool of calls, a channel of capacity one, and a worker. -/
structure Waking (σ κ Op : Type) (Res : Op → Type) (α β : Type) where
  pool : Pool σ κ Op Res α
  /-- Whether a wake is pending. -/
  pending : Bool
  /-- What the worker was woken for so far. -/
  noted : List β
  phase : WorkerPhase
  /-- Whether the worker's context has ended. -/
  cancelled : Bool

/-- What can happen next. -/
inductive WakeAction (κ β Ch Env : Type) : Type where
  | pool (a : PoolAction κ Ch Env)
  /-- The worker is woken for something that is in the backlog. -/
  | notify (b : β)
  /-- The worker begins a pass, as call `i`. -/
  | begin (cause : WakeCause) (i fuel : Nat)
  /-- The worker's pass has returned. -/
  | passed
  | cancel
  /-- The worker returns, as its context has ended. -/
  | stop

/-- A send that does not block, into a channel of capacity one. -/
def offer (pending : Bool) : Bool := if pending then pending else true

@[simp] theorem offer_eq (pending : Bool) : offer pending = true := by
  cases pending <;> rfl

namespace Waking

variable {σ κ Op : Type} {Res : Op → Type} {α β Ch Env : Type}

/-- Nothing was called yet. -/
def start (s : σ) : Waking σ κ Op Res α β := ⟨Pool.start s, false, [], .starting, false⟩

/-- Whether a pass may begin for this reason. -/
def ready (W : Waking σ κ Op Res α β) : WakeCause → Bool
  | .first => W.phase = .starting
  | .wake => W.phase = .selecting && W.pending
  | .tick => W.phase = .selecting

/-- Where the worker is after its pass has returned: an error ends it, unless its context has ended. -/
def after (W : Waking σ κ Op Res α β) (ok : Bool) : WorkerPhase :=
  if ok || W.cancelled then .selecting else .returned

/-- The reply of call `i`, with the call. -/
def reply (W : Waking σ κ Op Res α β) (i : Nat) : Option (Nat × κ × α) :=
  W.pool.finished.find? (fun x => x.1 = i)

/-- One step. -/
def step (S : System σ κ Op Res α Ch Env) (w : Worker σ κ α β) (W : Waking σ κ Op Res α β) :
    WakeAction κ β Ch Env → Option (Waking σ κ Op Res α β)
  | .pool a => (S.step W.pool a).map (fun P => { W with pool := P })
  | .notify b =>
    if w.there b W.pool.shared then
      some { W with pending := offer W.pending, noted := b :: W.noted }
    else none
  | .begin cause i fuel =>
    if W.ready cause then (S.step W.pool (.spawn i (w.pass fuel))).map fun P =>
      { W with
        pool := P
        phase := .working i
        pending := if cause = .wake then false else W.pending }
    else none
  | .passed =>
    match W.phase with
    | .working i => (W.reply i).bind fun x => (w.ended x.2.2).map fun ok => { W with phase := W.after ok }
    | _ => none
  | .cancel => some { W with cancelled := true }
  | .stop => if W.phase = .selecting && W.cancelled then some { W with phase := .returned } else none

open Logic

/-- What is asked of a worker: a pass that goes well does all that was there when it began, and what is
there and what is done stay so. -/
structure Works (L : Logic σ Op) (S : System σ κ Op Res α Ch Env) (w : Worker σ κ α β)
    (done : β → σ → Prop) : Prop where
  allowed : ∀ o s, L.allowed o s
  env : ∀ e s s', L.inv s → S.env e s = some s' → L.inv s' ∧ L.le s s'
  prog : ∀ c s, L.inv s → L.WP S (fun _ _ => True) (S.prog c) s
  pass : ∀ fuel s, L.inv s →
    L.WP S (fun a t => w.ended a = some true → ∀ b, w.there b s = true → done b t)
      (S.prog (w.pass fuel)) s
  there_mono : ∀ b s t, L.le s t → w.there b s = true → w.there b t = true
  done_mono : ∀ b s t, L.le s t → done b s → done b t

/-- **The invariant of a worker that is woken**: what it was woken for is done, or is about to be, as a
wake is pending or a pass runs that began after it. -/
structure Inv (L : Logic σ Op) (S : System σ κ Op Res α Ch Env) (w : Worker σ κ α β)
    (done : β → σ → Prop) (W : Waking σ κ Op Res α β) : Prop where
  sound : L.Sound S (fun _ _ _ => True) W.pool
  there : ∀ b ∈ W.noted, w.there b W.pool.shared = true
  /-- A pass aims at what was there when it began. -/
  working : ∀ i, W.phase = .working i → ∃ target : β → Prop,
    L.Follows S i (fun a t => w.ended a = some true → ∀ b, target b → done b t) W.pool ∧
      (W.pending = true ∨ ∀ b ∈ W.noted, target b)
  selecting : W.phase = .selecting → W.cancelled = true ∨ W.pending = true ∨
    ∀ b ∈ W.noted, done b W.pool.shared

variable {L : Logic σ Op} {S : System σ κ Op Res α Ch Env} {w : Worker σ κ α β}
  {done : β → σ → Prop} {W W' : Waking σ κ Op Res α β}

/-- A step of the pool keeps it sound, goes up, and keeps following the worker's pass. -/
theorem Works.pool_step (hw : Works L S w done) {P P' : Pool σ κ Op Res α} {a : PoolAction κ Ch Env}
    (hs : S.step P a = some P') (hP : L.Sound S (fun _ _ _ => True) P) :
    L.Sound S (fun _ _ _ => True) P' ∧ L.le P.shared P'.shared ∧
      ∀ i Q, L.Follows S i Q P → L.Follows S i Q P' := by
  have hrun : GuardedRun S.step (System.Allows (fun _ _ => True) L.allowed) P [a] P' :=
    ⟨System.allows_of_forall (fun _ _ => trivial) hw.allowed P a, P', hs, rfl⟩
  have hprog : ∀ c s, L.inv s → True → L.WP S (fun _ _ => True) (S.prog c) s :=
    fun c s hs _ => hw.prog c s hs
  obtain ⟨hsound, hle⟩ := run_sound hw.env hprog hrun hP
  exact ⟨hsound, hle, fun i Q hi => follows_run hw.env hprog hrun hP hi⟩

/-- Going up keeps what was noted and what was done. -/
theorem Inv.pool (hw : Works L S w done) (hW : Inv L S w done W) {a : PoolAction κ Ch Env}
    {P : Pool σ κ Op Res α} (hs : S.step W.pool a = some P) : Inv L S w done { W with pool := P } := by
  obtain ⟨hsound, hle, hfollows⟩ := hw.pool_step hs hW.sound
  refine ⟨hsound, fun b hb => hw.there_mono b _ _ hle (hW.there b hb), fun i hi => ?_, fun h => ?_⟩
  · obtain ⟨target, hfollow, hnoted⟩ := hW.working i hi
    exact ⟨target, hfollows i _ hfollow, hnoted⟩
  · exact (hW.selecting h).imp_right (Or.imp_right fun hdone b hb => hw.done_mono b _ _ hle (hdone b hb))

/-- A wake is pending after it was sent. -/
theorem Inv.notify (hW : Inv L S w done W) {b : β} (hb : w.there b W.pool.shared = true) :
    Inv L S w done { W with pending := offer W.pending, noted := b :: W.noted } := by
  refine ⟨hW.sound, List.forall_mem_cons.mpr ⟨hb, hW.there⟩, fun i hi => ?_, fun _ => ?_⟩
  · -- the pass that runs may have read the backlog before: the wake is left for the next one
    obtain ⟨target, hfollow, -⟩ := hW.working i hi
    exact ⟨target, hfollow, .inl (offer_eq _)⟩
  · exact .inr (.inl (offer_eq _))

/-- **A pass that begins** aims at all that was noted, and takes the wake with it. -/
theorem Inv.begin (hw : Works L S w done) (hW : Inv L S w done W) {i fuel : Nat}
    {P : Pool σ κ Op Res α} (hs : S.step W.pool (.spawn i (w.pass fuel)) = some P) (pending : Bool) :
    Inv L S w done { W with pool := P, phase := .working i, pending := pending } := by
  obtain ⟨hsound, hle, -⟩ := hw.pool_step hs hW.sound
  refine ⟨hsound, fun b hb => hw.there_mono b _ _ hle (hW.there b hb), fun j hj => ?_, fun h => by cases h⟩
  obtain rfl := WorkerPhase.working.inj hj
  -- whatever the wake stood for was put into the backlog before it, so the pass finds it
  refine ⟨fun b => w.there b W.pool.shared = true, ?_, .inr hW.there⟩
  rcases System.step_cases hs with ⟨_, _, hspawn, hunused, rfl⟩ | ⟨_, _, _, _, _, _, _, h, -⟩ |
    ⟨_, _, h, -⟩
  · cases hspawn
    exact follows_spawn hunused (hw.pass fuel _ hW.sound.inv)
  · cases h
  · cases h

/-- The worker waits again: its pass has done what it aimed at, or the worker is about to end. -/
theorem Inv.passed (hW : Inv L S w done W) {i : Nat} (hphase : W.phase = .working i)
    {x : Nat × κ × α} (hx : W.reply i = some x) {ok : Bool} (hok : w.ended x.2.2 = some ok) :
    Inv L S w done { W with phase := W.after ok } := by
  obtain ⟨target, hfollow, hnoted⟩ := hW.working i hphase
  have hxi := List.find?_some hx
  rw [decide_eq_true_eq] at hxi
  refine ⟨hW.sound, hW.there, fun j hj => ?_, fun hselecting => ?_⟩
  · change W.after ok = .working j at hj
    unfold Waking.after at hj
    split at hj <;> cases hj
  · change W.after ok = .selecting at hselecting
    unfold Waking.after at hselecting
    split at hselecting
    · rename_i hgoes
      rcases Bool.or_eq_true_iff.mp hgoes with rfl | hcancelled
      · -- no wake came during the pass, so it aimed at everything
        refine .inr (hnoted.imp_right fun htarget b hb => ?_)
        have hmem := List.mem_of_find?_eq_some hx
        exact hfollow.finished x hmem hxi _ (L.refl _) hW.sound.inv hok b (htarget b hb)
      · exact .inl hcancelled
    · cases hselecting

/-- The invariant holds before anything was called. -/
theorem inv_start {s : σ} (hs : L.inv s) : Inv L S w done (start s : Waking σ κ Op Res α β) :=
  ⟨Sound.start hs, fun _ hb => absurd hb List.not_mem_nil, fun _ h => (by cases h), fun h => by cases h⟩

/-- One step keeps the invariant. -/
theorem Inv.step (hw : Works L S w done) {a : WakeAction κ β Ch Env}
    (hW : Inv L S w done W) (hs : Waking.step S w W a = some W') : Inv L S w done W' := by
  cases a with
  | pool a =>
    obtain ⟨P, hP, rfl⟩ := Option.map_eq_some_iff.mp hs
    exact hW.pool hw hP
  | notify b =>
    obtain ⟨hb, hs⟩ := Option.ite_none_right_eq_some.mp hs
    cases hs
    exact hW.notify hb
  | begin cause i fuel =>
    obtain ⟨-, hs⟩ := Option.ite_none_right_eq_some.mp hs
    obtain ⟨P, hP, rfl⟩ := Option.map_eq_some_iff.mp hs
    exact hW.begin hw hP _
  | passed =>
    simp only [Waking.step] at hs
    split at hs
    · rename_i i hphase
      obtain ⟨x, hx, hs⟩ := Option.bind_eq_some_iff.mp hs
      obtain ⟨ok, hok, rfl⟩ := Option.map_eq_some_iff.mp hs
      exact hW.passed hphase hx hok
    · cases hs
  | cancel =>
    cases hs
    exact ⟨hW.sound, hW.there, hW.working, fun _ => .inl rfl⟩
  | stop =>
    obtain ⟨-, hs⟩ := Option.ite_none_right_eq_some.mp hs
    cases hs
    exact ⟨hW.sound, hW.there, fun _ h => (by cases h), fun h => by cases h⟩

/-- **No wake is lost.** When the worker waits, its context is live and no wake is pending, then all is
done that it was ever woken for. -/
theorem caught_up (hw : Works L S w done) {s : σ} (hs : L.inv s)
    {as : List (WakeAction κ β Ch Env)} (hrun : runActions (Waking.step S w) (start s) as = some W)
    (hphase : W.phase = .selecting) (hpending : W.pending = false) (hcancelled : W.cancelled = false) :
    ∀ b ∈ W.noted, done b W.pool.shared := by
  have hinv : Inv L S w done W :=
    invariant_of_run (fun _ _ _ hW h => hW.step hw h) hrun (inv_start hs)
  have hselecting := hinv.selecting hphase
  rw [hcancelled, hpending] at hselecting
  simpa only [Bool.false_eq_true, false_or] using hselecting

end Waking

end EsLite
