import EsLite.Foundation.Bytes
import Mathlib.Logic.Function.Basic

/-!
# The feed's state stores

Checkpoints, leases and dead letters: the tables behind the ports of the feed server, and what one
statement of an adapter does to them. The SQLite and the Postgres adapters run the same statements;
what differs is the stored lease key, the resolution of the clock a statement reads and the form of
an expiry. An `Adapter` is these, and `Sqlite.feedAdapter` and `Postgres.feedAdapter` are the two
that exist.

Positions are unbounded naturals: the stored columns are 64-bit, and nothing below depends on the
difference for positions under `2 ^ 63`. Instants are unbounded integers of nanoseconds; the expiry
SQLite stores is what `UnixNano` makes of one.
-/

namespace EsLite.Feed

/-! ## Rows -/

/-- The name of a subscription: scope, projection and instance. -/
structure Key where
  scope : Bytes
  projection : Bytes
  instanceName : Bytes
deriving DecidableEq

/-- A stored delivery cursor. -/
structure Checkpoint where
  /-- The highest position the consumer acknowledged. -/
  position : Nat
  /-- The fingerprint of the definition it was acknowledged under; empty when none is recorded. -/
  definitionHash : Bytes
  /-- When the row was last written. -/
  updatedAt : Int
deriving DecidableEq

/-- A stored lease, with its expiry in the unit of the adapter's clock. -/
structure Lease where
  owner : Bytes
  consumer : Bytes
  expiresAt : Int
deriving DecidableEq

/-- The audit row of a skipped position. -/
structure DeadLetter where
  key : Key
  position : Nat
  typeURL : Bytes
  sizeBytes : Nat
  reason : Bytes
  actor : Bytes
  createdAt : Int
deriving DecidableEq

/-- What differs between the adapters. -/
structure Adapter where
  /-- The columns a lease is stored under. -/
  leaseKey : Key → List Bytes
  /-- What the clock of a statement reads at an instant. -/
  clock : Int → Int
  /-- The stored expiry of a lease taken at an instant for a time to live. -/
  expiry : Int → Int → Int
  /-- The instant of a stored expiry. -/
  instant : Int → Int

/-- `Time.UnixNano`: the nanoseconds since the epoch in an `int64`, which wraps around outside the
years 1678 to 2262. -/
def unixNano (now : Int) : Int := now.bmod (2 ^ 64)

/-- SQLite: one text key joined by NUL bytes, and absolute nanoseconds. -/
def Sqlite.feedAdapter : Adapter where
  leaseKey k := [k.scope ++ [0] ++ k.projection ++ [0] ++ k.instanceName]
  clock now := unixNano now
  expiry now ttl := unixNano (now + ttl)
  instant ns := ns

/-- Postgres: three key columns, and timestamps and intervals of whole microseconds;
`Duration.Microseconds` truncates toward zero. The statement reads the clock once for the expiry and
once for its guard; both readings are taken at the same instant. -/
def Postgres.feedAdapter : Adapter where
  leaseKey k := [k.scope, k.projection, k.instanceName]
  clock now := now / 1000
  expiry now ttl := now / 1000 + ttl.tdiv 1000
  instant us := 1000 * us

/-- The tables of the feed. -/
structure Tables where
  leases : List Bytes → Option Lease
  checkpoints : Key → Option Checkpoint
  deadLetters : Key → Nat → Option DeadLetter

/-- A database on which the feed has never run. -/
def Tables.empty : Tables := ⟨fun _ => none, fun _ => none, fun _ _ => none⟩

namespace Tables

variable (A : Adapter) (now : Int) (t : Tables)

/-! ## Leases -/

/-- Write a lease row. -/
def putLease (k : Key) (l : Option Lease) : Tables :=
  { t with leases := Function.update t.leases (A.leaseKey k) l }

/-- The owner-guarded upsert: it wins when the key is free, already this owner's, or expired, and a
refused acquire changes nothing. -/
def acquire (k : Key) (owner consumer : Bytes) (ttl : Int) : Tables × Bool :=
  let won := t.putLease A k (some ⟨owner, consumer, A.expiry now ttl⟩)
  match t.leases (A.leaseKey k) with
  | none => (won, true)
  | some l => if l.owner = owner ∨ l.expiresAt ≤ A.clock now then (won, true) else (t, false)

/-- Extend the lease of its owner. The statement does not look at the expiry. -/
def renew (k : Key) (owner : Bytes) (ttl : Int) : Tables × Bool :=
  match t.leases (A.leaseKey k) with
  | none => (t, false)
  | some l =>
    if l.owner = owner then
      (t.putLease A k (some { l with expiresAt := A.expiry now ttl }), true)
    else (t, false)

/-- Drop the lease if it is the owner's. -/
def release (k : Key) (owner : Bytes) : Tables :=
  match t.leases (A.leaseKey k) with
  | none => t
  | some l => if l.owner = owner then t.putLease A k none else t

/-- The live holder: an expired row is not one. -/
def holder (k : Key) : Option Lease :=
  (t.leases (A.leaseKey k)).filter (fun l => A.clock now < l.expiresAt)

/-! ## Checkpoints -/

/-- The fingerprint a write leaves: an empty one keeps what is stored. -/
def keepDefinition (stored new : Bytes) : Bytes := if new = [] then stored else new

theorem keepDefinition_of_ne_nil (stored : Bytes) {new : Bytes} (h : new ≠ []) :
    keepDefinition stored new = new :=
  if_neg h

/-- The upsert of a checkpoint row; `merge` says which position it leaves on a row that is there. -/
def upsertCheckpoint (merge : Nat → Nat → Nat) (k : Key) (definition : Bytes) (position : Nat) :
    Tables :=
  let row : Checkpoint :=
    match t.checkpoints k with
    | none => ⟨position, definition, now⟩
    | some cp => ⟨merge cp.position position, keepDefinition cp.definitionHash definition, now⟩
  { t with checkpoints := Function.update t.checkpoints k (some row) }

/-- Advance a checkpoint: a lower position never rewinds a higher one. -/
def save (k : Key) (definition : Bytes) (position : Nat) : Tables :=
  t.upsertCheckpoint now max k definition position

/-- Overwrite a checkpoint, backwards included. -/
def reset (k : Key) (definition : Bytes) (position : Nat) : Tables :=
  t.upsertCheckpoint now (fun _ new => new) k definition position

/-- Remove one checkpoint row. -/
def delete (k : Key) : Tables :=
  { t with checkpoints := Function.update t.checkpoints k none }

/-! ## Dead letters -/

/-- Insert or replace the audit row of a position. -/
def record (dl : DeadLetter) : Tables :=
  { t with
    deadLetters := Function.update t.deadLetters dl.key
      (Function.update (t.deadLetters dl.key) dl.position (some dl)) }

/-! ## What the statements leave alone -/

section Frame

variable {A now t} {k k' : Key} {owner consumer d : Bytes} {ttl : Int} {p : Nat} {dl : DeadLetter}

@[simp] theorem putLease_checkpoints {l : Option Lease} :
    (t.putLease A k l).checkpoints = t.checkpoints := rfl

@[simp] theorem putLease_leases_self {l : Option Lease} :
    (t.putLease A k l).leases (A.leaseKey k) = l := by
  simp [putLease]

@[simp] theorem acquire_checkpoints :
    (t.acquire A now k owner consumer ttl).1.checkpoints = t.checkpoints := by
  unfold acquire
  cases t.leases (A.leaseKey k) with
  | none => rfl
  | some l => by_cases h : l.owner = owner ∨ l.expiresAt ≤ A.clock now <;> simp [h]

@[simp] theorem renew_checkpoints : (t.renew A now k owner ttl).1.checkpoints = t.checkpoints := by
  unfold renew
  cases t.leases (A.leaseKey k) with
  | none => rfl
  | some l => by_cases h : l.owner = owner <;> simp [h]

@[simp] theorem release_checkpoints : (t.release A k owner).checkpoints = t.checkpoints := by
  unfold release
  cases t.leases (A.leaseKey k) with
  | none => rfl
  | some l => by_cases h : l.owner = owner <;> simp [h]

@[simp] theorem save_leases : (t.save now k d p).leases = t.leases := rfl

@[simp] theorem reset_leases : (t.reset now k d p).leases = t.leases := rfl

@[simp] theorem delete_leases : (t.delete k).leases = t.leases := rfl

@[simp] theorem record_leases : (t.record dl).leases = t.leases := rfl

@[simp] theorem record_checkpoints : (t.record dl).checkpoints = t.checkpoints := rfl

/-- What a save leaves in its own row. -/
theorem save_checkpoints_self (t : Tables) (now : Int) (k : Key) (d : Bytes) (p : Nat) :
    (t.save now k d p).checkpoints k = some (match t.checkpoints k with
      | none => ⟨p, d, now⟩
      | some cp => ⟨max cp.position p, keepDefinition cp.definitionHash d, now⟩) := by
  simp only [save, upsertCheckpoint, Function.update_self]

/-- What a reset leaves in its own row. -/
theorem reset_checkpoints_self (t : Tables) (now : Int) (k : Key) (d : Bytes) (p : Nat) :
    (t.reset now k d p).checkpoints k = some (match t.checkpoints k with
      | none => ⟨p, d, now⟩
      | some cp => ⟨p, keepDefinition cp.definitionHash d, now⟩) := by
  simp only [reset, upsertCheckpoint, Function.update_self]

theorem save_checkpoints_of_ne (h : k' ≠ k) : (t.save now k d p).checkpoints k' = t.checkpoints k' := by
  simp [save, upsertCheckpoint, h]

theorem reset_checkpoints_of_ne (h : k' ≠ k) :
    (t.reset now k d p).checkpoints k' = t.checkpoints k' := by
  simp [reset, upsertCheckpoint, h]

theorem holder_eq_some {l : Lease} :
    t.holder A now k = some l ↔ t.leases (A.leaseKey k) = some l ∧ A.clock now < l.expiresAt := by
  simp [holder, Option.filter_eq_some_iff]

end Frame

end Tables

/-! ## What the statements on leases do -/

namespace Tables

variable {A : Adapter} {k : Key} {owner consumer : Bytes} {t : Tables} {now ttl : Int}

/-- An acquire is granted and writes its lease, or it is refused and changes nothing. -/
theorem acquire_cases :
    (t.acquire A now k owner consumer ttl =
        (t.putLease A k (some ⟨owner, consumer, A.expiry now ttl⟩), true) ∧
      ∀ l, t.leases (A.leaseKey k) = some l → l.owner = owner ∨ l.expiresAt ≤ A.clock now) ∨
    (t.acquire A now k owner consumer ttl = (t, false) ∧
      ∃ l, t.leases (A.leaseKey k) = some l ∧ ¬ (l.owner = owner ∨ l.expiresAt ≤ A.clock now)) := by
  unfold acquire
  cases t.leases (A.leaseKey k) with
  | none => exact .inl ⟨rfl, fun _ h => by cases h⟩
  | some l =>
    by_cases hwon : l.owner = owner ∨ l.expiresAt ≤ A.clock now
    · refine .inl ⟨if_pos hwon, ?_⟩
      rintro l' ⟨⟩
      exact hwon
    · exact .inr ⟨if_neg hwon, l, rfl, hwon⟩

/-- A renewal extends the owner's row, or there is none and it changes nothing. -/
theorem renew_cases :
    (∃ l, t.leases (A.leaseKey k) = some l ∧ l.owner = owner ∧ t.renew A now k owner ttl =
      (t.putLease A k (some { l with expiresAt := A.expiry now ttl }), true)) ∨
    ((∀ l, t.leases (A.leaseKey k) = some l → l.owner ≠ owner) ∧
      t.renew A now k owner ttl = (t, false)) := by
  unfold renew
  cases t.leases (A.leaseKey k) with
  | none => exact .inr ⟨fun _ h => (by cases h), rfl⟩
  | some l =>
    by_cases ho : l.owner = owner
    · exact .inl ⟨l, rfl, ho, if_pos ho⟩
    · refine .inr ⟨?_, if_neg ho⟩
      rintro l' ⟨⟩
      exact ho

/-- A release drops the owner's row, or there is none and it changes nothing. -/
theorem release_cases :
    (∃ l, t.leases (A.leaseKey k) = some l ∧ l.owner = owner ∧ t.release A k owner = t.putLease A k none) ∨
    ((∀ l, t.leases (A.leaseKey k) = some l → l.owner ≠ owner) ∧ t.release A k owner = t) := by
  unfold release
  cases t.leases (A.leaseKey k) with
  | none => exact .inr ⟨fun _ h => (by cases h), rfl⟩
  | some l =>
    by_cases ho : l.owner = owner
    · exact .inl ⟨l, rfl, ho, if_pos ho⟩
    · refine .inr ⟨?_, if_neg ho⟩
      rintro l' ⟨⟩
      exact ho

end Tables

/-! ## Whose row it is not -/

section Leases

variable {A : Adapter} {k : Key} {owner : Bytes} {t : Tables} {now ttl : Int}

/-- Writing a lease that is not the owner's keeps it away from every row that was not. -/
theorem owner_ne_putLease {k' : Key} {l' : Option Lease} (hl' : ∀ l, l' = some l → l.owner ≠ owner)
    (h : ∀ l, t.leases (A.leaseKey k) = some l → l.owner ≠ owner) :
    ∀ l, (t.putLease A k' l').leases (A.leaseKey k) = some l → l.owner ≠ owner := by
  intro l hl
  simp only [Tables.putLease] at hl
  by_cases hk : A.leaseKey k = A.leaseKey k'
  · rw [hk, Function.update_self] at hl
    exact hl' l hl
  · rw [Function.update_of_ne hk] at hl
    exact h l hl

theorem owner_ne_acquire {k' : Key} {o consumer : Bytes} (ho : o ≠ owner)
    (h : ∀ l, t.leases (A.leaseKey k) = some l → l.owner ≠ owner) :
    ∀ l, (t.acquire A now k' o consumer ttl).1.leases (A.leaseKey k) = some l → l.owner ≠ owner := by
  rcases Tables.acquire_cases with ⟨hwon, -⟩ | ⟨hrefused, -⟩
  · rw [hwon]
    refine owner_ne_putLease ?_ h
    rintro l ⟨⟩
    exact ho
  · rw [hrefused]
    exact h

theorem owner_ne_renew {k' : Key} {o : Bytes}
    (h : ∀ l, t.leases (A.leaseKey k) = some l → l.owner ≠ owner) :
    ∀ l, (t.renew A now k' o ttl).1.leases (A.leaseKey k) = some l → l.owner ≠ owner := by
  rcases Tables.renew_cases with ⟨l, hl, -, hrenewed⟩ | ⟨-, hrefused⟩
  · rw [hrenewed]
    by_cases hk : A.leaseKey k' = A.leaseKey k
    · -- the renewed row keeps its owner
      refine owner_ne_putLease ?_ h
      rintro l' ⟨⟩
      exact h l (hk ▸ hl)
    · intro l' hl'
      simp only [Tables.putLease, Function.update_of_ne (Ne.symm hk)] at hl'
      exact h l' hl'
  · rw [hrefused]
    exact h

theorem owner_ne_release {k' : Key} {o : Bytes}
    (h : ∀ l, t.leases (A.leaseKey k) = some l → l.owner ≠ owner) :
    ∀ l, (t.release A k' o).leases (A.leaseKey k) = some l → l.owner ≠ owner := by
  rcases Tables.release_cases with ⟨l, -, -, hdropped⟩ | ⟨-, hleft⟩
  · rw [hdropped]
    exact owner_ne_putLease (fun l hl => by cases hl) h
  · rw [hleft]
    exact h

end Leases

end EsLite.Feed
