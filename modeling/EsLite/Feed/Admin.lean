import EsLite.Feed.Server
import EsLite.Foundation.Runs

/-!
# Administrative moves and older streams

The lease calls of the stores and the methods of the server on one key, each taken as one atomic
step. An administrative move (an unforced reset or skip, or a delete) is refused while the key has a
live holder. What it does not do is fence the owner of an expired lease: `Renew` extends the row of
its owner whether or not it has expired, so an owner that lapsed before the move comes back to life
with its next renewal, and acknowledges over what the operator wrote.

`fenced_iff_not_owner` says exactly when an owner is fenced by such a move: when the lease row that
the move found, expired or not, was not its own.
-/

namespace EsLite.Feed

/-! ## Calls on one key -/

/-- The calls on one subscription key. -/
inductive KeyCall where
  | acquire (owner consumer : Bytes) (ttl : Int)
  | renew (owner : Bytes) (ttl : Int)
  | release (owner : Bytes)
  | checkpoint (owner : Bytes) (position : Nat) (definition : Bytes)
  | resetCheckpoint (definition : Definition) (position : Nat) (force : Bool)
  | skip (position : Nat) (actor reason : Bytes) (force : Bool)
  | deleteSubscription

/-- The method behind a call, with the verdict of the two lease calls that have one. -/
def KeyCall.method (cfg : Config) (k : Key) : KeyCall → Server Bool
  | .acquire owner consumer ttl => do
    match ← perform (.acquire k owner consumer ttl) with
    | (acquired, none) => pure acquired
    | (_, some _) => throw (.port .acquireLease)
  | .renew owner ttl => port .renewLease (Prog.op (Op.renew k owner ttl))
  | .release owner => do
    port .releaseLease (Prog.op (Op.release k owner))
    return true
  | .checkpoint owner position definition => do
    Feed.checkpoint ⟨k, owner, position, definition⟩
    return true
  | .resetCheckpoint definition position force => do
    Feed.resetCheckpoint ⟨k, [], [], definition, 0⟩ position force
    return true
  | .skip position actor reason force => do
    Feed.skip cfg ⟨k, position, actor, reason, force⟩
    return true
  | .deleteSubscription => do
    Feed.deleteSubscription k
    return true

/-- The administrative moves that respect the lease. -/
def KeyCall.unforcedMove : KeyCall → Bool
  | .resetCheckpoint _ _ force => !force
  | .skip _ _ _ force => !force
  | .deleteSubscription => true
  | _ => false

/-- A call that acquires the lease for `owner`. -/
def KeyCall.acquiresFor (owner : Bytes) : KeyCall → Prop
  | .acquire o _ _ => o = owner
  | _ => False

/-- What the model leaves open in each store call of a method, which makes none of them twice. -/
abbrev Choices := Op → Choice

/-- The effect of one of the store calls. -/
def execBy (A : Adapter) (ever : Log) (o : Op) (ch : Choices) (s : State) : Option (State × Res o) :=
  exec A ever o (ch o) s

/-- One whole call, uninterrupted. Any of its store calls may fail. -/
def callStep (A : Adapter) (ever : Log) (cfg : Config) (k : Key) (c : KeyCall) (ch : Choices)
    (s : State) : Option (State × Except FeedError Bool) :=
  Prog.atomically (execBy A ever) ch (c.method cfg k).run s

/-- What happens on a key: a call, or time passes. -/
inductive KeyAction where
  | call (c : KeyCall) (ch : Choices)
  | advance (d : Nat)

/-- An action that acquires the lease for `owner`. -/
def KeyAction.acquiresFor (owner : Bytes) : KeyAction → Prop
  | .call c _ => c.acquiresFor owner
  | .advance _ => False

/-- One step on a key. -/
def keyStep (A : Adapter) (ever : Log) (cfg : Config) (k : Key) (s : State) :
    KeyAction → Option State
  | .call c ch => (callStep A ever cfg k c ch s).map (·.1)
  | .advance d => envStep ever (.advance d) s

/-! ## Who owns the lease row -/

/-- The lease row of a key, expired or not, is not the owner's. -/
def NotOwner (A : Adapter) (k : Key) (owner : Bytes) (s : State) : Prop :=
  ∀ l, s.tables.leases (A.leaseKey k) = some l → l.owner ≠ owner

/-- A call that may give the lease to `owner`. -/
def Op.acquiresFor (owner : Bytes) : Op → Prop
  | .acquire _ o _ _ => o = owner
  | _ => False

section Fence

variable {A : Adapter} {ever : Log} {cfg : Config} {k : Key} {owner : Bytes}

/-- Only an acquire for the owner makes the row the owner's. -/
theorem exec_notOwner {o : Op} (ho : ¬ o.acquiresFor owner) {c : Choice} {s s' : State} {r : Res o}
    (h : exec A ever o c s = some (s', r)) (hs : NotOwner A k owner s) : NotOwner A k owner s' := by
  cases hw : o.writesLease with
  | false =>
    intro l hl
    rw [(exec_framed h).leases hw] at hl
    exact hs l hl
  | true =>
    cases o with
    | acquire k' o consumer ttl =>
      have ht : NotOwner A k owner (s.withTables (s.tables.acquire A s.now k' o consumer ttl).1) :=
        owner_ne_acquire ho hs
      simp only [exec] at h
      cases hf : c.fault <;> rw [hf] at h <;> cases h
      · exact ht
      · exact hs
      · exact ht
    | renew k' o ttl =>
      exact answer_preserves (I := NotOwner A k owner) h hs (owner_ne_renew hs)
    | release k' o =>
      exact answer_preserves (I := NotOwner A k owner) h hs (owner_ne_release hs)
    | _ => cases hw

/-- Every method on a key but an acquire for the owner keeps the row from the owner. -/
theorem method_issues_not_acquiresFor {c : KeyCall} (hc : ¬ c.acquiresFor owner) :
    Prog.Issues (fun o => ¬ o.acquiresFor owner) (c.method cfg k).run := by
  cases c with
  | acquire o consumer ttl =>
    apply Prog.Issues.bindExcept (perform_issues hc)
    rintro ⟨b, _ | _⟩ <;> exact trivial
  | renew o ttl => exact port_issues (.op id)
  | release o => exact (port_issues (.op id)).bindExcept fun _ => trivial
  | checkpoint o p d =>
    refine .bindExcept (checkpoint_issues id id) fun _ => trivial
  | resetCheckpoint d p force =>
    refine .bindExcept (resetCheckpoint_issues id id) fun _ => trivial
  | skip p actor reason force =>
    refine .bindExcept (skip_issues id id id (fun _ => id) fun _ => id) fun _ => trivial
  | deleteSubscription =>
    refine .bindExcept (deleteSubscription_issues id id) fun _ => trivial

/-- The administrative moves do not touch the leases. -/
theorem unforcedMove_leases {c : KeyCall} (hc : c.unforcedMove = true) {ch : Choices} {s s' : State}
    {r : Except FeedError Bool} (h : callStep A ever cfg k c ch s = some (s', r)) :
    s'.tables.leases = s.tables.leases := by
  have hissues : Prog.Issues (fun o => o.writesLease = false) (c.method cfg k).run := by
    cases c with
    | resetCheckpoint d p force =>
      refine .bindExcept (resetCheckpoint_issues ?_ ?_) fun _ => trivial <;> rfl
    | skip p actor reason force =>
      refine .bindExcept (skip_issues ?_ ?_ ?_ ?_ ?_) fun _ => trivial <;>
        (intros; rfl)
    | deleteSubscription =>
      refine .bindExcept (deleteSubscription_issues ?_ ?_) fun _ => trivial <;> rfl
    | _ => cases hc
  refine Prog.atomically_preserves (I := fun t => t.tables.leases = s.tables.leases) ?_ hissues h rfl
  intro o ho ch' t t' r' hex ht
  rw [(exec_framed hex).leases ho, ht]

/-- One step that does not acquire for the owner keeps the row from the owner. -/
theorem keyStep_notOwner {a : KeyAction} {s s' : State} (ha : ¬ a.acquiresFor owner)
    (h : keyStep A ever cfg k s a = some s') (hs : NotOwner A k owner s) : NotOwner A k owner s' := by
  cases a with
  | call c ch =>
    obtain ⟨⟨t, r⟩, ht, rfl⟩ := Option.map_eq_some_iff.mp h
    exact Prog.atomically_preserves (fun o ho ch' t t' r' hex => exec_notOwner ho hex)
      (method_issues_not_acquiresFor ha) ht hs
  | advance d =>
    cases h
    exact hs

/-- The owner neither renews nor moves the checkpoint: a renewal returns false and leaves the leases
as they are, and an acknowledgement leaves the checkpoint row as it is. -/
structure Shut (A : Adapter) (ever : Log) (cfg : Config) (k : Key) (owner : Bytes) (t : State) :
    Prop where
  renew : ∀ ttl ch t' r, callStep A ever cfg k (.renew owner ttl) ch t = some (t', r) →
    t'.tables.leases = t.tables.leases ∧ r ≠ .ok true
  ack : ∀ position definition ch t' r,
    callStep A ever cfg k (.checkpoint owner position definition) ch t = some (t', r) →
    t'.tables.checkpoints k = t.tables.checkpoints k

/-- The owner is shut out until it acquires the lease again, whatever else happens. -/
def Fenced (A : Adapter) (ever : Log) (cfg : Config) (k : Key) (owner : Bytes) (s : State) : Prop :=
  ∀ as t, GuardedRun (keyStep A ever cfg k) (fun _ a => ¬ a.acquiresFor owner) s as t →
    Shut A ever cfg k owner t

/-- Without the row a renewal does nothing. -/
theorem renew_of_notOwner {t : Tables} {now ttl : Int}
    (h : ∀ l, t.leases (A.leaseKey k) = some l → l.owner ≠ owner) :
    t.renew A now k owner ttl = (t, false) := by
  rcases Tables.renew_cases with ⟨l, hl, ho, -⟩ | ⟨-, hrefused⟩
  · exact absurd ho (h l hl)
  · exact hrefused

/-- An acknowledgement by anyone but the live holder is rejected and changes nothing. -/
theorem checkpoint_rejected {ack : Ack} {ch : Choices} {t t' : State} {r : Except FeedError Unit}
    (hl : ∀ l, t.tables.holder A t.now ack.key = some l → l.owner ≠ ack.owner)
    (h : Prog.atomically (execBy A ever) ch (checkpoint ack).run t = some (t', r)) :
    t' = t ∧ ∃ err, r = .error err := by
  rw [checkpoint_run] at h
  cases hv : validateKey ack.key with
  | some why =>
    rw [hv] at h
    cases h
    exact ⟨rfl, _, rfl⟩
  | none =>
    rw [hv] at h
    change Prog.atomically _ ch (checkpointAfter ack (answer (ch _) t t _).2) (answer (ch _) t t _).1 = _ at h
    unfold answer at h
    cases hf : (ch (.holder ack.key)).fault <;> rw [hf] at h
    · cases hh : t.tables.holder A t.now ack.key with
      | none =>
        rw [hh] at h
        cases h
        exact ⟨rfl, _, rfl⟩
      | some l =>
        simp only [hh, checkpointAfter, if_pos (hl l hh)] at h
        cases h
        exact ⟨rfl, _, rfl⟩
    · cases h
      exact ⟨rfl, _, rfl⟩
    · cases h
      exact ⟨rfl, _, rfl⟩

/-- Without the row the owner is shut out. -/
theorem shut_of_notOwner {t : State} (ht : NotOwner A k owner t) : Shut A ever cfg k owner t := by
  refine ⟨fun ttl ch t' r h => ?_, fun position definition ch t' r h => ?_⟩
  · -- the renewal finds no row to extend, whether or not its reply is lost
    change some (_, wrap .renewLease _) = some (t', r) at h
    rw [renew_of_notOwner ht] at h
    unfold answer at h
    cases hf : (ch (.renew k owner ttl)).fault <;> rw [hf] at h <;> cases h <;> exact ⟨rfl, nofun⟩
  · -- the holder check refuses: an expired row is no holder, and a live one is another's
    have hl : ∀ l, t.tables.holder A t.now k = some l → l.owner ≠ owner :=
      fun l hl => ht l (Tables.holder_eq_some.mp hl).1
    have hm : (KeyCall.method cfg k (.checkpoint owner position definition)).run =
        (Feed.checkpoint ⟨k, owner, position, definition⟩).run >>=
          ExceptT.bindCont (fun _ => (pure true : Server Bool)) := rfl
    rw [callStep, hm, Prog.atomically_bind] at h
    obtain ⟨⟨u, x⟩, hu, hx⟩ := Option.bind_eq_some_iff.mp h
    obtain ⟨rfl, err, rfl⟩ := checkpoint_rejected hl hu
    cases hx
    rfl

/-- The owner of the row can always renew. -/
theorem not_shut_of_owner {t : State} {l : Lease} (hl : t.tables.leases (A.leaseKey k) = some l) :
    ¬ Shut A ever cfg k l.owner t := by
  intro hshut
  have hren : callStep A ever cfg k (.renew l.owner 0) (fun _ => {}) t =
      some (t.withTables (t.tables.renew A t.now k l.owner 0).1,
        .ok (t.tables.renew A t.now k l.owner 0).2) := rfl
  have htrue : (t.tables.renew A t.now k l.owner 0).2 = true := by
    simp only [Tables.renew, hl, if_true]
  rw [htrue] at hren
  exact (hshut.renew 0 _ _ _ hren).2 rfl

/-- **When an administrative move fences an owner.** After an unforced reset or skip or a delete that
succeeded, an owner can neither renew nor acknowledge until it acquires again if and only if the lease
row the move found was not its own. An expired row of its own is enough to come back. -/
theorem fenced_iff_not_owner (A : Adapter) (ever : Log) (cfg : Config) (k : Key) (owner : Bytes)
    (c : KeyCall) (ch : Choices) (s s' : State) (hc : c.unforcedMove = true)
    (h : callStep A ever cfg k c ch s = some (s', .ok true)) :
    Fenced A ever cfg k owner s' ↔
      ∀ l, s.tables.leases (A.leaseKey k) = some l → l.owner ≠ owner := by
  have hleases := unforcedMove_leases hc h
  constructor
  · intro hfenced l hl ho
    rw [← hleases] at hl
    subst ho
    -- the shortest run is enough: the owner renews at once
    exact not_shut_of_owner hl (hfenced [] s' rfl)
  · intro hs as t hrun
    have hs' : NotOwner A k owner s' := by
      intro l hl
      rw [hleases] at hl
      exact hs l hl
    apply shut_of_notOwner
    exact hrun.invariant (fun u a u' hu ha hstep => keyStep_notOwner ha hstep hu) hs'

end Fence

/-! ## An expired lease comes back -/

/-- A database in which the lease of `b` ran out fifty nanoseconds ago. -/
def lapsedState : State :=
  (State.start 100 Log.empty).withTables
    (Tables.empty.putLease Sqlite.feedAdapter ordersKey (some ⟨str "b", [], 50⟩))

/-- After a delete that finds the lapsed lease of `b`, every other owner is fenced and `b` is not. -/
theorem fenced_after_lapsed_delete :
    Fenced Sqlite.feedAdapter Log.empty defaultConfig ordersKey (str "a")
      (lapsedState.withTables (lapsedState.tables.delete ordersKey)) ∧
    ¬ Fenced Sqlite.feedAdapter Log.empty defaultConfig ordersKey (str "b")
      (lapsedState.withTables (lapsedState.tables.delete ordersKey)) := by
  have h : callStep Sqlite.feedAdapter Log.empty defaultConfig ordersKey .deleteSubscription
      (fun _ => {}) lapsedState =
        some (lapsedState.withTables (lapsedState.tables.delete ordersKey), .ok true) := rfl
  have hrow : lapsedState.tables.leases (Sqlite.feedAdapter.leaseKey ordersKey) =
      some ⟨str "b", [], 50⟩ := rfl
  constructor
  · rw [fenced_iff_not_owner _ _ _ _ _ _ _ _ _ rfl h]
    intro l hl
    rw [hrow] at hl
    cases hl
    decide
  · rw [fenced_iff_not_owner _ _ _ _ _ _ _ _ _ rfl h]
    intro hne
    exact hne _ hrow rfl

/-- A lease of `a` for thirty seconds, then thirty-one seconds without a renewal. -/
def lapse : List KeyAction :=
  [.call (.acquire (str "a") (str "worker") 30000000000) (fun _ => {}), .advance 31000000000]

/-- What a lapsed owner gets after an administrative move: whether the move succeeded, whether its
renewal did, and the checkpoint before and after its acknowledgement of position `7`. -/
def comeback (A : Adapter) (move : KeyCall) :
    Option (Option Bool × Option Bool × Option Nat × Option Nat) := do
  let step := fun c s => callStep A Log.empty defaultConfig ordersKey c (fun _ => {}) s
  let s ← runActions (keyStep A Log.empty defaultConfig ordersKey) (.start 0 Log.empty) lapse
  let (s, moved) ← step move s
  let before := (s.tables.checkpoints ordersKey).map (·.position)
  let (s, renewed) ← step (.renew (str "a") 30000000000) s
  let (s, _) ← step (.checkpoint (str "a") 7 []) s
  return (moved.toOption, renewed.toOption, before,
    (s.tables.checkpoints ordersKey).map (·.position))

/-- What comes of the three unforced moves. -/
def comebacks (A : Adapter) : List (Option (Option Bool × Option Bool × Option Nat × Option Nat)) :=
  [comeback A (.resetCheckpoint ⟨str "orders", [str "t"]⟩ 3 false),
    comeback A (.skip 3 (str "ops") (str "poison") false), comeback A .deleteSubscription]

/-- **An older stream undoes an administrative move.** With either store, after an unforced reset to
position `3`, an unforced skip to it, or a delete, the lapsed owner renews without acquiring again and
moves the checkpoint to `7`. -/
theorem lapsed_owner_undoes_move :
    comebacks Sqlite.feedAdapter =
      [some (some true, some true, some 3, some 7), some (some true, some true, some 3, some 7),
        some (some true, some true, none, some 7)] ∧
    comebacks Postgres.feedAdapter = comebacks Sqlite.feedAdapter := by
  constructor <;> decide +kernel

end EsLite.Feed
