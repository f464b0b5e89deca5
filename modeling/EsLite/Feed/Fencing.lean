import EsLite.Feed.Server
import EsLite.Foundation.Runs

/-!
# Ack fencing

Any number of calls of the server run at once; each step performs one store call of one of them, and
time passes in between. An acknowledgement reads the holder and then saves, and nothing ties the two
together: a lease that runs out in between lets another owner in, and the save lands all the same.

`checkpoint_fenced` is what remains: as long as nothing takes the lease away from an owner while one
of its acknowledgements is between the check and the save, the row changes, and an acknowledgement is
accepted, only under the live holder.
-/

namespace EsLite.Feed

/-! ## Calls of the server -/

/-- The calls clients make. -/
inductive ServerCall where
  | checkpoint (ack : Ack)
  | subscribe (req : Request) (sink : Sink) (session fuel : Nat)
  | renewer (k : Key) (owner : Bytes) (fuel : Nat)
  | resetCheckpoint (req : Request) (position : Nat) (force : Bool)
  | skip (sr : SkipRequest)
  | deleteSubscription (k : Key)

/-- The method behind a call. -/
def ServerCall.method (cfg : Config) : ServerCall → Server Unit
  | .checkpoint ack => Feed.checkpoint ack
  | .subscribe req sink session fuel => Feed.subscribe cfg req sink session fuel
  | .renewer k owner fuel => renewLoop cfg k owner fuel
  | .resetCheckpoint req position force => Feed.resetCheckpoint req position force
  | .skip sr => Feed.skip cfg sr
  | .deleteSubscription k => Feed.deleteSubscription k

/-- The calls in progress, over one shared state. -/
abbrev ServerPool := Pool State ServerCall Op Res (Except FeedError Unit)

/-- The feed server under any number of concurrent calls. -/
def serverSystem (A : Adapter) (ever : Log) (cfg : Config) :
    System State ServerCall Op Res (Except FeedError Unit) Choice EnvStep :=
  feedSystem A ever (ServerCall.method cfg)

/-! ## Live holders -/

/-- `owner` holds the key: its row is there and has not expired. -/
def LiveHolder (A : Adapter) (s : State) (k : Key) (owner : Bytes) : Prop :=
  ∃ l, s.tables.holder A s.now k = some l ∧ l.owner = owner

/-- A store call that takes the lease of `owner` away, or lets it run out at once. -/
def Op.dropsLease (A : Adapter) (now : Int) (k : Key) (owner : Bytes) : Op → Prop
  | .release k' o => A.leaseKey k' = A.leaseKey k ∧ o = owner
  | .acquire k' o _ ttl => A.leaseKey k' = A.leaseKey k ∧ o = owner ∧ A.expiry now ttl ≤ A.clock now
  | .renew k' o ttl => A.leaseKey k' = A.leaseKey k ∧ o = owner ∧ A.expiry now ttl ≤ A.clock now
  | _ => False

section Live

variable {A : Adapter} {ever : Log} {k : Key} {owner : Bytes} {s : State}

theorem liveHolder_iff :
    LiveHolder A s k owner ↔
      ∃ l, s.tables.leases (A.leaseKey k) = some l ∧ A.clock s.now < l.expiresAt ∧
        l.owner = owner := by
  constructor
  · rintro ⟨l, hl, ho⟩
    obtain ⟨hrow, hlive⟩ := Tables.holder_eq_some.mp hl
    exact ⟨l, hrow, hlive, ho⟩
  · rintro ⟨l, hrow, hlive, ho⟩
    exact ⟨l, Tables.holder_eq_some.mpr ⟨hrow, hlive⟩, ho⟩

/-- Writing the row of another key leaves the holder alone; writing its own row with a live lease of
the same owner keeps it the holder. -/
theorem LiveHolder.putLease {k' : Key} {l' : Option Lease} (h : LiveHolder A s k owner)
    (hl' : A.leaseKey k' = A.leaseKey k →
      ∃ l, l' = some l ∧ A.clock s.now < l.expiresAt ∧ l.owner = owner) :
    LiveHolder A (s.withTables (s.tables.putLease A k' l')) k owner := by
  rw [liveHolder_iff] at h ⊢
  by_cases hk : A.leaseKey k' = A.leaseKey k
  · obtain ⟨l, rfl, hlive, ho⟩ := hl' hk
    refine ⟨l, ?_, hlive, ho⟩
    simp only [State.withTables, Tables.putLease, hk, Function.update_self]
  · obtain ⟨l, hrow, hlive, ho⟩ := h
    refine ⟨l, ?_, hlive, ho⟩
    simp only [State.withTables, Tables.putLease, Function.update_of_ne (Ne.symm hk)]
    exact hrow

theorem LiveHolder.acquire {k' : Key} {o consumer : Bytes} {ttl : Int} (h : LiveHolder A s k owner)
    (hd : ¬ (Op.acquire k' o consumer ttl).dropsLease A s.now k owner) :
    LiveHolder A (s.withTables (s.tables.acquire A s.now k' o consumer ttl).1) k owner := by
  obtain ⟨l, hrow, hlive, ho⟩ := liveHolder_iff.mp h
  rcases Tables.acquire_cases with ⟨hwon, hgranted⟩ | ⟨hrefused, -⟩
  · rw [hwon]
    apply h.putLease
    intro hk
    -- the row has not expired, so that the holder itself acquires again, and for a positive time
    have hoo : l.owner = o := by
      rcases hgranted l (hk ▸ hrow) with hoo | hexpired
      · exact hoo
      · omega
    have hlater : ¬ A.expiry s.now ttl ≤ A.clock s.now :=
      fun hle => hd ⟨hk, hoo.symm.trans ho, hle⟩
    refine ⟨_, rfl, ?_, hoo.symm.trans ho⟩
    simp only
    omega
  · rw [hrefused]
    exact h

theorem LiveHolder.renew {k' : Key} {o : Bytes} {ttl : Int} (h : LiveHolder A s k owner)
    (hd : ¬ (Op.renew k' o ttl).dropsLease A s.now k owner) :
    LiveHolder A (s.withTables (s.tables.renew A s.now k' o ttl).1) k owner := by
  obtain ⟨l, hrow, hlive, ho⟩ := liveHolder_iff.mp h
  rcases Tables.renew_cases with ⟨l', hl', hoo, hrenewed⟩ | ⟨-, hrefused⟩
  · rw [hrenewed]
    apply h.putLease
    intro hk
    rw [hk, hrow] at hl'
    cases hl'
    have hlater : ¬ A.expiry s.now ttl ≤ A.clock s.now :=
      fun hle => hd ⟨hk, hoo.symm.trans ho, hle⟩
    refine ⟨_, rfl, ?_, ho⟩
    simp only
    omega
  · rw [hrefused]
    exact h

theorem LiveHolder.release {k' : Key} {o : Bytes} (h : LiveHolder A s k owner)
    (hd : ¬ (Op.release k' o).dropsLease A s.now k owner) :
    LiveHolder A (s.withTables (s.tables.release A k' o)) k owner := by
  obtain ⟨l, hrow, hlive, ho⟩ := liveHolder_iff.mp h
  rcases Tables.release_cases with ⟨l', hl', hoo, hdropped⟩ | ⟨-, hleft⟩
  · rw [hdropped]
    apply h.putLease
    intro hk
    rw [hk, hrow] at hl'
    cases hl'
    exact absurd ⟨hk, hoo.symm.trans ho⟩ hd
  · rw [hleft]
    exact h

/-- **A live holder stays one** through every store call that does not drop its lease. -/
theorem LiveHolder.exec {o : Op} {c : Choice} {s' : State} {r : Res o}
    (h : LiveHolder A s k owner) (hd : ¬ o.dropsLease A s.now k owner)
    (hex : exec A ever o c s = some (s', r)) : LiveHolder A s' k owner := by
  cases hw : o.writesLease with
  | false =>
    have hf := exec_framed hex
    rw [liveHolder_iff] at h ⊢
    rw [hf.leases hw, hf.now]
    exact h
  | true =>
    cases o with
    | acquire k' o consumer ttl =>
      have ht := h.acquire hd
      simp only [Feed.exec] at hex
      cases hf : c.fault <;> rw [hf] at hex <;> cases hex
      · exact ht
      · exact h
      · exact ht
    | renew k' o ttl =>
      exact answer_preserves (I := fun t => LiveHolder A t k owner) hex h (h.renew hd)
    | release k' o =>
      exact answer_preserves (I := fun t => LiveHolder A t k owner) hex h (h.release hd)
    | _ => cases hw

end Live

/-! ## Between the check and the save -/

/-- An acknowledgement that passed the holder check: the save is next. -/
def saveCall (ack : Ack) : Prog Op Res (Except FeedError Unit) :=
  .call (.save ack.key ack.definition ack.position) (fun r => .ret (wrap .saveCheckpoint r))

/-- The side condition: while an acknowledgement is between its check and its save, the clock does not
reach the expiry of the lease, and no store call drops the lease of its owner. -/
def Undisturbed (A : Adapter) (P : ServerPool) (a : PoolAction ServerCall Choice EnvStep) : Prop :=
  ∀ j ack, P.thread j = some (.checkpoint ack, saveCall ack) →
    match a with
    | .env (.advance d) => ∀ l, P.shared.tables.leases (A.leaseKey ack.key) = some l →
        A.clock (P.shared.now + d) < l.expiresAt
    | .step i _ => ∀ c o k, P.thread i = some (c, .call o k) →
        ¬ o.dropsLease A P.shared.now ack.key ack.owner
    | _ => True

/-- Where the acknowledgements in progress stand: before the holder check, or past it with the owner
holding the key. -/
def Checked (A : Adapter) (P : ServerPool) : Prop :=
  ∀ j ack p, P.thread j = some (.checkpoint ack, p) →
    p = .call (.holder ack.key) (checkpointAfter ack) ∨
    p = saveCall ack ∧ LiveHolder A P.shared ack.key ack.owner

section Run

variable {A : Adapter} {ever : Log} {cfg : Config} {s s' : State} {ack : Ack} {c : Choice}

/-- What an acknowledgement does next after the holder check: it has been rejected, or its owner holds
the key in the state that was read, which the check did not change. -/
theorem checkpointAfter_cases {r : Res (.holder ack.key)}
    (hex : exec A ever (.holder ack.key) c s = some (s', r)) :
    s' = s ∧ ((∃ err, checkpointAfter ack r = .ret (.error err)) ∨
      checkpointAfter ack r = saveCall ack ∧ LiveHolder A s ack.key ack.owner) := by
  have hs : s' = s := answer_preserves (I := fun t => t = s) hex rfl rfl
  refine ⟨hs, ?_⟩
  match r, hex with
  | .error _, _ => exact .inl ⟨_, rfl⟩
  | .ok none, _ => exact .inl ⟨_, rfl⟩
  | .ok (some l), hex =>
    by_cases ho : l.owner ≠ ack.owner
    · exact .inl ⟨_, if_pos ho⟩
    · have hl := (answer_eq_ok (Option.some.inj hex)).2
      exact .inr ⟨if_neg ho, l, hl.symm, not_not.mp ho⟩

/-- What starts is before its holder check, or rejected at once. -/
theorem checkpoint_prog_cases (ack : Ack) :
    (checkpoint ack).run = .call (.holder ack.key) (checkpointAfter ack) ∨
    ∃ err, (checkpoint ack).run = .ret (.error err) := by
  rw [checkpoint_run]
  cases validateKey ack.key with
  | none => exact .inl rfl
  | some why => exact .inr ⟨_, rfl⟩

/-- An undisturbed step keeps every acknowledgement past its check under a live holder. -/
theorem checked_step {P P' : ServerPool} {a : PoolAction ServerCall Choice EnvStep} (h : Checked A P)
    (hok : Undisturbed A P a) (hs : (serverSystem A ever cfg).step P a = some P') : Checked A P' := by
  rcases System.step_cases hs with ⟨i, c, rfl, -, rfl⟩ |
    ⟨i, ch, c, o, k, s, r, rfl, hth, hex, rfl⟩ | ⟨e, s, rfl, he, rfl⟩
  · intro j ack p hj
    rw [Pool.put_shared]
    rcases Pool.thread_put hj with ⟨rfl, rfl, rfl⟩ | ⟨-, hj'⟩
    · -- the call just issued
      rcases checkpoint_prog_cases ack with hp | ⟨err, hp⟩
      · exact .inl hp
      · have hret : (serverSystem A ever cfg).prog (.checkpoint ack) = .ret (.error err) := hp
        rw [hret, Pool.thread_put_ret] at hj
        cases hj
    · exact h j ack p hj'
  · intro j ack p hj
    rw [Pool.put_shared]
    rcases Pool.thread_put hj with ⟨rfl, rfl, rfl⟩ | ⟨-, hj'⟩
    · -- the acknowledgement itself moves: it passes the check, or it returns
      rcases h j ack _ hth with hp | ⟨hp, -⟩
      · cases hp
        obtain ⟨rfl, ⟨err, hret⟩ | ⟨hsave, hlive⟩⟩ :=
          checkpointAfter_cases (show exec A ever _ ch _ = _ from hex)
        · rw [hret, Pool.thread_put_ret] at hj
          cases hj
        · exact .inr ⟨hsave, hlive⟩
      · cases hp
        rw [Pool.thread_put_ret] at hj
        cases hj
    · -- another call moves
      rcases h j ack p hj' with hp | ⟨rfl, hlive⟩
      · exact .inl hp
      · exact .inr ⟨rfl, hlive.exec (hok j ack hj' c o k hth) hex⟩
  · intro j ack p hj
    rcases h j ack p hj with hp | ⟨rfl, hlive⟩
    · exact .inl hp
    · refine .inr ⟨rfl, ?_⟩
      cases e with
      | advance d =>
        cases he
        obtain ⟨l, hrow, -, ho⟩ := liveHolder_iff.mp hlive
        exact liveHolder_iff.mpr ⟨l, hrow, hok j ack hj l hrow, ho⟩
      | commit scope e =>
        obtain ⟨-, rfl⟩ : _ ∧ _ = s := by
          simpa [serverSystem, feedSystem, envStep] using he
        exact hlive

/-- A step of an acknowledgement is taken under a live holder, or it changes nothing and ends in no
success. -/
theorem Checked.move {P : ServerPool} (h : Checked A P) {i : Nat} {o : Op}
    {k : Res o → Prog Op Res (Except FeedError Unit)} (hth : P.thread i = some (.checkpoint ack, .call o k))
    {r : Res o} (hex : exec A ever o c P.shared = some (s', r)) :
    LiveHolder A P.shared ack.key ack.owner ∨
      s' = P.shared ∧ ∀ r', k r = .ret r' → ∃ err, r' = .error err := by
  rcases h i ack _ hth with hq | ⟨-, hlive⟩
  · cases hq
    obtain ⟨hs, ⟨err, hret⟩ | ⟨hsave, -⟩⟩ := checkpointAfter_cases hex
    · refine .inr ⟨hs, fun r' hr' => ⟨err, ?_⟩⟩
      cases hret.symm.trans hr'
      rfl
    · exact .inr ⟨hs, fun r' hr' => by cases hsave.symm.trans hr'⟩
  · exact .inl hlive

/-- **Ack fencing.** In every run of concurrent calls in which nothing takes the lease away from an
owner while one of its acknowledgements is between the check and the save, a step of an
acknowledgement changes the checkpoint table only while the owner is the live holder, and an
acknowledgement is accepted only by such a step. -/
theorem checkpoint_fenced (A : Adapter) (ever : Log) (cfg : Config) (s : State)
    (as : List (PoolAction ServerCall Choice EnvStep)) (P P' : ServerPool)
    (a : PoolAction ServerCall Choice EnvStep) (i : Nat) (ack : Ack)
    (hrun : GuardedRun (serverSystem A ever cfg).step (Undisturbed A) (Pool.start s) as P)
    (hstep : (serverSystem A ever cfg).step P a = some P') :
    (∀ ch p, a = .step i ch → P.thread i = some (.checkpoint ack, p) →
      P'.shared.tables.checkpoints ≠ P.shared.tables.checkpoints →
        LiveHolder A P.shared ack.key ack.owner) ∧
    ((i, .checkpoint ack, .ok ()) ∈ P'.finished → (i, .checkpoint ack, .ok ()) ∉ P.finished →
        LiveHolder A P.shared ack.key ack.owner) := by
  have hchecked : Checked A P :=
    hrun.invariant (fun Q a Q' hQ hok hs => checked_step hQ hok hs)
      (fun j ack p hj => by cases hj)
  rcases System.step_cases hstep with ⟨i', c, rfl, -, rfl⟩ |
    ⟨i', ch, c, o, k, s', r, rfl, hth, hex, rfl⟩ | ⟨e, s', rfl, -, rfl⟩
  · refine ⟨fun ch p h => (by cases h), fun hfin hnew => ?_⟩
    obtain hmem | ⟨r, hret, hx⟩ := Pool.mem_finished_put hfin
    · exact absurd hmem hnew
    · -- what returns as soon as it is issued is a rejection
      cases hx
      rcases checkpoint_prog_cases ack with hp | ⟨err, hp⟩
      · cases hret.symm.trans hp
      · cases hret.symm.trans hp
  · constructor
    · intro ch' p h hp hne
      cases h
      cases hp.symm.trans hth
      rcases hchecked.move hth hex with hlive | ⟨rfl, -⟩
      · exact hlive
      · exact absurd (by rw [Pool.put_shared]) hne
    · intro hfin hnew
      obtain hmem | ⟨r', hret, hx⟩ := Pool.mem_finished_put hfin
      · exact absurd hmem hnew
      · cases hx
        rcases hchecked.move hth hex with hlive | ⟨-, herr⟩
        · exact hlive
        · obtain ⟨err, h⟩ := herr _ hret
          cases h
  · exact ⟨fun ch p h => (by cases h), fun hfin hnew => absurd hfin hnew⟩

end Run

/-! ## A save after a takeover -/

/-- A consumer of the subscription. -/
def ackRequest (owner : Bytes) : Request := ⟨ordersKey, owner, owner, ⟨str "orders", [str "t"]⟩, 0⟩

/-- Its acknowledgement of position `7`. -/
def ackOf (owner : Bytes) : Ack := ⟨ordersKey, owner, 7, []⟩

/-- A database in which `a` holds the subscription for thirty seconds. -/
def heldState : State :=
  (State.start 0 Log.empty).withTables
    (Tables.empty.putLease Sqlite.feedAdapter ordersKey (some ⟨str "a", [], 30000000000⟩))

/-- That is its only lease. -/
theorem expiresAt_heldState {x : List Bytes} {l : Lease} (h : heldState.tables.leases x = some l) :
    l.expiresAt = 30000000000 := by
  have h : Function.update Tables.empty.leases (Sqlite.feedAdapter.leaseKey ordersKey)
    (some ⟨str "a", [], 30000000000⟩) x = some l := h
  by_cases hx : x = Sqlite.feedAdapter.leaseKey ordersKey
  · rw [hx, Function.update_self] at h
    cases h
    rfl
  · rw [Function.update_of_ne hx] at h
    cases h

/-- The acknowledgement of `a` passes its check; `b` asks for the key, and a second passes. -/
def meanwhile : List (PoolAction ServerCall Choice EnvStep) :=
  [.spawn 0 (.checkpoint (ackOf (str "a"))), .step 0 {},
    .spawn 1 (.subscribe (ackRequest (str "b")) (fun _ => pure ()) 0 1), .step 1 {},
    .env (.advance 1000000000)]

/-- The acknowledgement of the holder is accepted after all that, under the lease that was checked. -/
theorem checkpoint_fenced_meanwhile :
    ∃ P P', GuardedRun (serverSystem Sqlite.feedAdapter Log.empty defaultConfig).step
        (Undisturbed Sqlite.feedAdapter) (Pool.start heldState) meanwhile P ∧
      (serverSystem Sqlite.feedAdapter Log.empty defaultConfig).step P (.step 0 {}) = some P' ∧
      (P'.shared.tables.checkpoints ordersKey).map (·.position) = some 7 ∧
      LiveHolder Sqlite.feedAdapter P.shared ordersKey (str "a") := by
  obtain ⟨P, hrun, P', hstep, hfin, hrow⟩ :
      ∃ P, GuardedRun (serverSystem Sqlite.feedAdapter Log.empty defaultConfig).step
        (Undisturbed Sqlite.feedAdapter) (Pool.start heldState) meanwhile P ∧
      ∃ P', (serverSystem Sqlite.feedAdapter Log.empty defaultConfig).step P (.step 0 {}) = some P' ∧
        (P.finished = [] ∧ P'.finished = [(0, .checkpoint (ackOf (str "a")), .ok ())]) ∧
        (P'.shared.tables.checkpoints ordersKey).map (·.position) = some 7 := by
    refine ⟨_, ⟨fun j ack hj => trivial, _, rfl, fun j ack hj c o k ho => ?_, _, rfl,
      fun j ack hj => trivial, _, rfl, fun j ack hj c o k ho => ?_, _, rfl, fun j ack hj l hl => ?_, _, rfl, rfl⟩,
      _, rfl, ⟨rfl, rfl⟩, rfl⟩
    · cases ho
      exact id
    · -- `b` would take the key for a while
      cases ho
      exact fun hdrops => absurd hdrops.2.2 (by decide)
    · rw [expiresAt_heldState hl]
      decide
  refine ⟨P, P', hrun, hstep, hrow, ?_⟩
  exact (checkpoint_fenced Sqlite.feedAdapter Log.empty defaultConfig heldState _ P P' _ 0
    (ackOf (str "a")) hrun hstep).2 (hfin.2 ▸ List.mem_singleton.mpr rfl) (hfin.1 ▸ List.not_mem_nil)

/-- The acknowledgement of `a` passes its check; the lease of `a` runs out and `b` takes the key. -/
def takeover : List (PoolAction ServerCall Choice EnvStep) :=
  [.spawn 0 (.subscribe (ackRequest (str "a")) (fun _ => pure ()) 0 1), .step 0 {},
    .spawn 1 (.checkpoint (ackOf (str "a"))), .step 1 {}, .env (.advance 31000000000),
    .spawn 2 (.subscribe (ackRequest (str "b")) (fun _ => pure ()) 0 1), .step 2 {}]

/-- Who holds the key, which position is stored, and which calls have been accepted. -/
def ackView (A : Adapter) (P : ServerPool) : Option Bytes × Option Nat × List Nat :=
  ((P.shared.tables.holder A P.shared.now ordersKey).map (·.owner),
    (P.shared.tables.checkpoints ordersKey).map (·.position),
    (P.finished.filter (fun x => x.2.2.toBool)).map (·.1))

/-- What is seen after a run from a fresh server. -/
def ackAfter (A : Adapter) (as : List (PoolAction ServerCall Choice EnvStep)) :
    Option (Option Bytes × Option Nat × List Nat) :=
  (runActions (serverSystem A Log.empty defaultConfig).step
    (Pool.start (State.start 0 Log.empty)) as).map (ackView A)

/-- **A late save lands under another holder.** With either store the acknowledgement of `a` is
accepted, and moves the checkpoint, while `b` holds the key. -/
theorem save_lands_after_takeover :
    (ackAfter Sqlite.feedAdapter takeover = some (some (str "b"), none, []) ∧
      ackAfter Sqlite.feedAdapter (takeover ++ [.step 1 {}]) = some (some (str "b"), some 7, [1])) ∧
    (ackAfter Postgres.feedAdapter takeover = some (some (str "b"), none, []) ∧
      ackAfter Postgres.feedAdapter (takeover ++ [.step 1 {}]) =
        some (some (str "b"), some 7, [1])) := by
  refine ⟨⟨?_, ?_⟩, ?_, ?_⟩ <;> decide +kernel

end EsLite.Feed
