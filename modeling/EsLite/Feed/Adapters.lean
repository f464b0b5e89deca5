import EsLite.Feed.Server
import EsLite.Foundation.Runs

/-!
# The checkpoint and lease stores

The two state ports of the feed as components that answer calls, one call after another, each at a
reading of the clock. `displaced_owner_fenced` is about what the answers promise: a lease is taken over
only when it has run out, for as long as the adapter stores the instants as they are, and then its
former owner stays out until it acquires again.
`adapters_agree` compares the two adapters: one joins the key with NUL bytes and counts nanoseconds in
an `int64`, the other has three key columns and counts microseconds, and for as long as both can
represent what they are given they answer alike.
-/

namespace EsLite.Feed

/-! ## Calls -/

/-- The calls of `CheckpointStore` and `LeaseStore`. -/
inductive StoreCall where
  | load (k : Key)
  | save (k : Key) (definition : Bytes) (position : Nat)
  | reset (k : Key) (definition : Bytes) (position : Nat)
  | delete (k : Key)
  | checkpoint (k : Key)
  | acquire (k : Key) (owner consumer : Bytes) (ttl : Int)
  | renew (k : Key) (owner : Bytes) (ttl : Int)
  | release (k : Key) (owner : Bytes)
  | holder (k : Key)
deriving DecidableEq

namespace StoreCall

/-- The key a call is about. -/
def key : StoreCall → Key
  | load k | save k _ _ | reset k _ _ | delete k | checkpoint k => k
  | acquire k _ _ _ | renew k _ _ | release k _ | holder k => k

/-- The text parameters of a call besides its key. -/
def words : StoreCall → List Bytes
  | save _ definition _ | reset _ definition _ => [definition]
  | acquire _ owner consumer _ => [owner, consumer]
  | renew _ owner _ | release _ owner => [owner]
  | _ => []

/-- All text parameters of a call. -/
def texts (c : StoreCall) : List Bytes :=
  [c.key.scope, c.key.projection, c.key.instanceName] ++ c.words

/-- The position a call writes. -/
def position : StoreCall → Nat
  | save _ _ position | reset _ _ position => position
  | _ => 0

/-- The time to live a call asks for. -/
def ttl : StoreCall → Int
  | acquire _ _ _ ttl | renew _ _ ttl => ttl
  | _ => 0

end StoreCall

/-- What a call returns. -/
inductive Reply where
  /-- The database refused the statement. -/
  | failed
  | done
  | position (position : Nat)
  /-- The stored position and fingerprint, `none` when no row was found. -/
  | row (found : Option (Nat × Bytes))
  | flag (granted : Bool)
  /-- The live lease with the instant of its expiry, `none` when nobody holds the key. -/
  | lease (holder : Option Lease)
deriving DecidableEq

/-- A call at a reading of the clock. -/
abbrev TimedCall := Int × StoreCall

namespace Adapter

variable (A : Adapter)

/-- A lease as it is returned. -/
def returned (l : Lease) : Lease := { l with expiresAt := A.instant l.expiresAt }

/-- The statement of a call. -/
def statement (now : Int) (t : Tables) : StoreCall → Tables × Reply
  | .load k => (t, .position (((t.checkpoints k).map (·.position)).getD 0))
  | .save k definition position => (t.save now k definition position, .done)
  | .reset k definition position => (t.reset now k definition position, .done)
  | .delete k => (t.delete k, .done)
  | .checkpoint k => (t, .row ((t.checkpoints k).map (fun cp => (cp.position, cp.definitionHash))))
  | .acquire k owner consumer ttl =>
    let r := t.acquire A now k owner consumer ttl
    (r.1, .flag r.2)
  | .renew k owner ttl =>
    let r := t.renew A now k owner ttl
    (r.1, .flag r.2)
  | .release k owner => (t.release A k owner, .done)
  | .holder k => (t, .lease ((t.holder A now k).map A.returned))

/-- One call. The text columns hold the texts that `enc` accepts; a statement with another one is an
error of the database and has no effect. -/
def call (enc : Bytes → Bool) (t : Tables) (c : TimedCall) : Tables × Reply :=
  if c.2.texts.all enc then A.statement c.1 t c.2 else (t, .failed)

end Adapter

/-! ## Instants -/

/-- An instant whose nanoseconds fit an `int64`. -/
def FitsInt64 (ns : Int) : Prop := -2 ^ 63 ≤ ns ∧ ns < 2 ^ 63

instance (ns : Int) : Decidable (FitsInt64 ns) := inferInstanceAs (Decidable (_ ∧ _))

theorem unixNano_eq {ns : Int} (h : FitsInt64 ns) : unixNano ns = ns := by
  obtain ⟨hlo, hhi⟩ := h
  unfold unixNano
  exact Int.bmod_eq_of_le (by omega) (by omega)

/-- The calls whose instants an adapter stores as they are: in SQLite those that fit the `int64` of
nanoseconds, in Postgres those of whole microseconds. -/
inductive Exact : Adapter → TimedCall → Prop
  | sqlite {c : TimedCall} :
    FitsInt64 c.1 → FitsInt64 (c.1 + c.2.ttl) → Exact Sqlite.feedAdapter c
  | postgres {c : TimedCall} : c.1 % 1000 = 0 → c.2.ttl % 1000 = 0 → Exact Postgres.feedAdapter c

namespace Exact

variable {A : Adapter} {c : TimedCall}

theorem instant_expiry (h : Exact A c) : A.instant (A.expiry c.1 c.2.ttl) = c.1 + c.2.ttl := by
  cases h with
  | sqlite _ hexpiry => exact unixNano_eq hexpiry
  | postgres hnow httl =>
    have hdiv : c.2.ttl.tdiv 1000 = c.2.ttl / 1000 :=
      (Int.tdiv_eq_ediv_of_dvd (Int.dvd_of_emod_eq_zero httl))
    simp only [Postgres.feedAdapter, hdiv]
    omega

theorem instant_clock (h : Exact A c) : A.instant (A.clock c.1) = c.1 := by
  cases h with
  | sqlite hnow _ => exact unixNano_eq hnow
  | postgres hnow _ =>
    simp only [Postgres.feedAdapter]
    omega

theorem instant_le (h : Exact A c) {x y : Int} (hxy : x ≤ y) : A.instant x ≤ A.instant y := by
  cases h with
  | sqlite => exact hxy
  | postgres =>
    simp only [Postgres.feedAdapter]
    omega

end Exact

variable {c : TimedCall} {calls : List TimedCall}

section Leases

variable {A : Adapter} {enc : Bytes → Bool} {t : Tables} {now ttl : Int} {k k' : Key}
  {owner consumer : Bytes} {l : Lease}

/-! ## One call -/

/-- A call that is answered ran its statement. -/
theorem call_eq_statement (h : (A.call enc t c).2 ≠ .failed) :
    A.call enc t c = A.statement c.1 t c.2 := by
  unfold Adapter.call at h ⊢
  split
  · rfl
  · rename_i henc
    rw [if_neg henc] at h
    exact absurd rfl h

/-- A call that fails has no effect. -/
theorem call_eq_self (h : A.call enc t c ≠ A.statement c.1 t c.2) : A.call enc t c = (t, .failed) := by
  unfold Adapter.call at h ⊢
  split
  · rename_i henc
    rw [if_pos henc] at h
    exact absurd rfl h
  · rfl

/-- When an acquire is granted. -/
theorem acquire_granted_iff :
    (t.acquire A now k owner consumer ttl).2 = true ↔
      ∀ l, t.leases (A.leaseKey k) = some l → l.owner = owner ∨ l.expiresAt ≤ A.clock now := by
  rcases Tables.acquire_cases with ⟨hwon, hgranted⟩ | ⟨hrefused, l, hl, hno⟩
  · rw [hwon]
    exact iff_of_true rfl hgranted
  · rw [hrefused]
    exact iff_of_false Bool.false_ne_true fun h => hno (h l hl)

/-- What an acquire leaves: its lease in the row when it is granted, everything as it was otherwise. -/
theorem acquire_tables :
    (t.acquire A now k owner consumer ttl).1 =
      if (t.acquire A now k owner consumer ttl).2 = true then
        t.putLease A k (some ⟨owner, consumer, A.expiry now ttl⟩) else t := by
  rcases Tables.acquire_cases with ⟨hwon, -⟩ | ⟨hrefused, -⟩
  · rw [hwon]
    rfl
  · rw [hrefused]
    rfl

/-- When a renewal is granted. -/
theorem renew_granted_iff :
    (t.renew A now k owner ttl).2 = true ↔ ∃ l, t.leases (A.leaseKey k) = some l ∧ l.owner = owner := by
  rcases Tables.renew_cases with ⟨l, hl, ho, hrenewed⟩ | ⟨hnone, hrefused⟩
  · rw [hrenewed]
    exact iff_of_true rfl ⟨l, hl, ho⟩
  · rw [hrefused]
    refine iff_of_false Bool.false_ne_true ?_
    rintro ⟨l, hl, ho⟩
    exact hnone l hl ho

/-- A refused renewal changes nothing. -/
theorem renew_refused (h : (t.renew A now k owner ttl).2 = false) :
    (t.renew A now k owner ttl).1 = t := by
  rcases Tables.renew_cases with ⟨l, -, -, hrenewed⟩ | ⟨-, hrefused⟩
  · rw [hrenewed] at h
    cases h
  · rw [hrefused]

/-- A release leaves every row of another owner as it is. -/
theorem release_leases (hl : t.leases (A.leaseKey k) = some l) (ho : l.owner ≠ owner) :
    (t.release A k' owner).leases (A.leaseKey k) = some l := by
  rcases Tables.release_cases with ⟨l', hl', ho', hdropped⟩ | ⟨-, hleft⟩
  · have hk : A.leaseKey k ≠ A.leaseKey k' := by
      intro hk
      rw [hk, hl'] at hl
      exact ho (Option.some.inj hl ▸ ho')
    rw [hdropped]
    simp only [Tables.putLease, Function.update_of_ne hk]
    exact hl
  · rw [hleft]
    exact hl

/-- A call keeps the row from an owner, unless it is an acquire that is granted to that owner. -/
theorem owner_ne_call (hc : ∀ k' consumer ttl, c.2 = .acquire k' owner consumer ttl →
      A.leaseKey k' = A.leaseKey k → (A.call enc t c).2 ≠ .flag true)
    (h : ∀ l, t.leases (A.leaseKey k) = some l → l.owner ≠ owner) :
    ∀ l, (A.call enc t c).1.leases (A.leaseKey k) = some l → l.owner ≠ owner := by
  by_cases hrun : A.call enc t c = A.statement c.1 t c.2
  · obtain ⟨now, call⟩ := c
    rw [hrun] at hc ⊢
    cases call with
    | load | save | reset | delete | checkpoint | holder => exact h
    | acquire k' o consumer ttl =>
      by_cases ho : o = owner
      · -- the owner itself acquires: another row, or a refusal
        subst ho
        simp only [Adapter.statement]
        rw [acquire_tables]
        split
        · rename_i hgranted
          have hk : A.leaseKey k ≠ A.leaseKey k' := fun hk =>
            hc k' consumer ttl rfl hk.symm (congrArg Reply.flag hgranted)
          simp only [Tables.putLease, Function.update_of_ne hk]
          exact h
        · exact h
      · exact owner_ne_acquire ho h
    | renew k' o ttl => exact owner_ne_renew h
    | release k' o => exact owner_ne_release h
  · rw [call_eq_self hrun]
    exact h

/-! ## What the callers were promised -/

/-- The lease of a key as an answer leaves it promised: an acquire or a renewal that is granted at an
instant gives the lease for the whole time to live. -/
def granted (now : Int) (l : Option Lease) : StoreCall → Reply → Option Lease
  | .acquire _ owner consumer ttl, .flag true => some ⟨owner, consumer, now + ttl⟩
  | .renew _ _ ttl, .flag true => l.map (fun l => { l with expiresAt := now + ttl })
  | .release _ owner, .done => l.filter (fun l => l.owner ≠ owner)
  | _, _ => l

/-- The promise on one key after an exchange on any key. -/
def promised (A : Adapter) (k : Key) (l : Option Lease) (x : TimedCall × Reply) : Option Lease :=
  if A.leaseKey x.1.2.key = A.leaseKey k then granted x.1.1 l x.1.2 x.2 else l

/-- The promised lease after some exchanges, from a table. -/
def promises (A : Adapter) (k : Key) (t : Tables) (xs : List (TimedCall × Reply)) : Option Lease :=
  xs.foldl (promised A k) ((t.leases (A.leaseKey k)).map A.returned)

/-- A stored row and a promised lease: the same owner, and expiries related by `P`. -/
inductive Tracks (P : Int → Int → Prop) : Option Lease → Option Lease → Prop
  | none : Tracks P none none
  | some {r l : Lease} : r.owner = l.owner → P r.expiresAt l.expiresAt → Tracks P (some r) (some l)

section Tracks

variable {P : Int → Int → Prop} {p : Option Lease}

/-- What a statement on another row leaves of the promise. -/
theorem promised_of_ne {call : StoreCall} {r : Reply} (hk : A.leaseKey call.key ≠ A.leaseKey k) :
    promised A k p ((now, call), r) = p := if_neg hk

theorem promised_of_eq {call : StoreCall} {r : Reply} (hk : A.leaseKey call.key = A.leaseKey k) :
    promised A k p ((now, call), r) = granted now p call r := if_pos hk

/-- A renewal that is refused promises nothing new. -/
theorem promised_renew_refused : promised A k p ((now, .renew k' owner ttl), .flag false) = p := by
  unfold promised
  split <;> rfl

/-- A statement that writes another row keeps the row and the promise. -/
theorem Tracks.putLease_of_ne (h : Tracks P (t.leases (A.leaseKey k)) p) {k' : Key} {l : Option Lease}
    (hk : A.leaseKey k' ≠ A.leaseKey k) : Tracks P ((t.putLease A k' l).leases (A.leaseKey k)) p := by
  simpa only [Tables.putLease, Function.update_of_ne (Ne.symm hk)] using h

/-- An acquire keeps the row in step with the promise. -/
theorem Tracks.acquire (h : Tracks P (t.leases (A.leaseKey k)) p)
    (hP : P (A.expiry now ttl) (now + ttl)) :
    Tracks P ((t.acquire A now k' owner consumer ttl).1.leases (A.leaseKey k))
      (promised A k p ((now, .acquire k' owner consumer ttl),
        .flag (t.acquire A now k' owner consumer ttl).2)) := by
  rw [acquire_tables]
  by_cases hk : A.leaseKey k' = A.leaseKey k
  · rw [promised_of_eq hk]
    cases (t.acquire A now k' owner consumer ttl).2 with
    | false => exact h
    | true =>
      rw [if_pos rfl, ← hk, Tables.putLease_leases_self]
      exact .some rfl hP
  · rw [promised_of_ne hk]
    split
    · exact h.putLease_of_ne hk
    · exact h

/-- A renewal keeps the row in step with the promise. -/
theorem Tracks.renew (h : Tracks P (t.leases (A.leaseKey k)) p) (hP : P (A.expiry now ttl) (now + ttl)) :
    Tracks P ((t.renew A now k' owner ttl).1.leases (A.leaseKey k))
      (promised A k p ((now, .renew k' owner ttl), .flag (t.renew A now k' owner ttl).2)) := by
  rcases Tables.renew_cases with ⟨r, hr, -, hrenewed⟩ | ⟨-, hrefused⟩
  · rw [hrenewed]
    by_cases hk : A.leaseKey k' = A.leaseKey k
    · rw [promised_of_eq hk, ← hk, Tables.putLease_leases_self]
      rw [← hk, hr] at h
      cases h with
      | some howner _ => exact .some howner hP
    · rw [promised_of_ne hk]
      exact h.putLease_of_ne hk
  · rw [hrefused, promised_renew_refused]
    exact h

/-- A release keeps the row in step with the promise. -/
theorem Tracks.release (h : Tracks P (t.leases (A.leaseKey k)) p) :
    Tracks P ((t.release A k' owner).leases (A.leaseKey k))
      (promised A k p ((now, .release k' owner), .done)) := by
  by_cases hk : A.leaseKey k' = A.leaseKey k
  · rw [promised_of_eq hk, granted]
    rcases Tables.release_cases with ⟨r, hr, ho, hdropped⟩ | ⟨hnone, hleft⟩
    · rw [hdropped, ← hk, Tables.putLease_leases_self]
      rw [← hk, hr] at h
      cases h with
      | some howner _ => simpa [Option.filter, ← howner, ho] using Tracks.none
    · rw [hleft]
      rw [← hk] at h ⊢
      generalize t.leases (A.leaseKey k') = row at h hnone ⊢
      cases h with
      | none => exact .none
      | some howner hexpiry =>
        simpa [Option.filter, ← howner, hnone _ rfl] using Tracks.some howner hexpiry
  · rw [promised_of_ne hk]
    rcases Tables.release_cases with ⟨_, -, -, hdropped⟩ | ⟨-, hleft⟩
    · rw [hdropped]
      exact h.putLease_of_ne hk
    · rw [hleft]
      exact h

/-- **One call** keeps the row in step with the promise. -/
theorem Tracks.call (h : Tracks P (t.leases (A.leaseKey k)) p)
    (hP : P (A.expiry c.1 c.2.ttl) (c.1 + c.2.ttl)) :
    Tracks P ((A.call enc t c).1.leases (A.leaseKey k)) (promised A k p (c, (A.call enc t c).2)) := by
  by_cases hrun : A.call enc t c = A.statement c.1 t c.2
  · obtain ⟨now, call⟩ := c
    rw [hrun]
    cases call with
    | load | checkpoint | holder =>
      simpa only [Adapter.statement, promised, granted, ite_self] using h
    | save | reset | delete =>
      simp only [promised, granted, ite_self, Adapter.statement]
      exact h
    | acquire k' o consumer ttl => exact h.acquire hP
    | renew k' o ttl => exact h.renew hP
    | release k' o => exact h.release
  · rw [call_eq_self hrun]
    obtain ⟨now, call⟩ := c
    cases call <;> simpa only [promised, granted, ite_self] using h

/-- **A run of calls** keeps the row in step with the promise. -/
theorem tracks_serve (hP : ∀ c ∈ calls, P (A.expiry c.1 c.2.ttl) (c.1 + c.2.ttl))
    (hstart : ∀ x, P x (A.instant x)) :
    Tracks P ((serve (A.call enc) t calls).1.leases (A.leaseKey k))
      (promises A k t (calls.zip (serve (A.call enc) t calls).2)) := by
  refine serve_ledger (R := fun (t : Tables) p => Tracks P (t.leases (A.leaseKey k)) p)
    (fun s p c h hc => h.call hc) hP ?_
  cases t.leases (A.leaseKey k) with
  | none => exact .none
  | some l => exact .some rfl (hstart l.expiresAt)

end Tracks

/-! ## Fencing -/

/-- A granted acquire of the key by an owner. -/
def Acquires (A : Adapter) (k : Key) (owner : Bytes) (x : TimedCall × Reply) : Prop :=
  x.2 = .flag true ∧ ∃ k' consumer ttl, x.1.2 = .acquire k' owner consumer ttl ∧
    A.leaseKey k' = A.leaseKey k

/-- A granted call ran its statement. -/
theorem statement_of_granted (h : (A.call enc t c).2 = .flag true) :
    A.call enc t c = A.statement c.1 t c.2 :=
  call_eq_statement (by rw [h]; exact nofun)

/-- **A displaced owner is refused** as long as it is not granted the key again. -/
theorem fenced_of_displaced {a : Bytes} (h : ∀ l, t.leases (A.leaseKey k) = some l → l.owner ≠ a)
    {later : List TimedCall}
    (hlater : ∀ x ∈ later.zip (serve (A.call enc) t later).2, ¬ Acquires A k a x) :
    ∀ now, (∀ ttl, (A.call enc (serve (A.call enc) t later).1 (now, .renew k a ttl)).2 ≠ .flag true) ∧
      ∀ l, (A.call enc (serve (A.call enc) t later).1 (now, .holder k)).2 = .lease (some l) →
        l.owner ≠ a := by
  have hinv : ∀ l, (serve (A.call enc) t later).1.leases (A.leaseKey k) = some l → l.owner ≠ a := by
    refine serve_invariant (I := fun t => ∀ l, t.leases (A.leaseKey k) = some l → l.owner ≠ a)
      (P := fun x => ¬ Acquires A k a x) (fun s c hs hc => ?_) hlater h
    refine owner_ne_call (fun k' consumer ttl hcall hk hflag => ?_) hs
    exact hc ⟨hflag, k', consumer, ttl, hcall, hk⟩
  intro now
  refine ⟨fun ttl hflag => ?_, fun l hl => ?_⟩
  · rw [statement_of_granted hflag] at hflag
    obtain ⟨l, hrow, ho⟩ := renew_granted_iff.mp (Reply.flag.inj hflag)
    exact hinv l hrow ho
  · rw [call_eq_statement (by rw [hl]; exact nofun)] at hl
    obtain ⟨l', hl', rfl⟩ := Option.map_eq_some_iff.mp (Reply.lease.inj hl)
    exact hinv l' (Tables.holder_eq_some.mp hl').1

/-- **A lease is taken over only when it has run out**, if the adapter stores the instants of the run
as they are. -/
theorem expired_of_takeover {b : Bytes}
    (hexact : ∀ c ∈ (now, .acquire k b consumer ttl) :: calls, Exact A c)
    (hl : promises A k t (calls.zip (serve (A.call enc) t calls).2) = some l) (hb : l.owner ≠ b)
    (hgranted : ((serve (A.call enc) t calls).1.acquire A now k b consumer ttl).2 = true) :
    l.expiresAt ≤ now := by
  rw [List.forall_mem_cons] at hexact
  obtain ⟨hnow, hcalls⟩ := hexact
  have htracks : Tracks (fun x y => A.instant x = y)
      ((serve (A.call enc) t calls).1.leases (A.leaseKey k))
      (promises A k t (calls.zip (serve (A.call enc) t calls).2)) :=
    tracks_serve (fun c hc => (hcalls c hc).instant_expiry) (fun _ => rfl)
  rw [hl] at htracks
  cases hrow : (serve (A.call enc) t calls).1.leases (A.leaseKey k) with
  | none =>
    rw [hrow] at htracks
    cases htracks
  | some r =>
    rw [hrow] at htracks
    cases htracks with
    | some howner hexpiry =>
      have hreached : r.expiresAt ≤ A.clock now :=
        (acquire_granted_iff.mp hgranted r hrow).resolve_left (howner ▸ hb)
      calc l.expiresAt = A.instant r.expiresAt := hexpiry.symm
        _ ≤ A.instant (A.clock now) := hnow.instant_le hreached
        _ = now := hnow.instant_clock

/-- **A displaced lease owner stays fenced.** With any adapter, after any calls on any keys:

* an acquire is granted over the lease of another owner only when that lease has run out, provided the
  adapter stores the instants of the run as they are; and from then on the former owner is refused
  every renewal and is never reported, until it is granted an acquire;
* a release leaves every other owner's lease as it is;
* a refused acquire and a refused renewal change nothing;
* whoever is reported as the holder, every acquire by another owner at that instant is refused. -/
theorem displaced_owner_fenced (A : Adapter) (enc : Bytes → Bool) (t₀ : Tables)
    (calls : List TimedCall) (now : Int) (k : Key) :
    let t := (serve (A.call enc) t₀ calls).1
    (∀ b consumer ttl l, promises A k t₀ (calls.zip (serve (A.call enc) t₀ calls).2) = some l →
      l.owner ≠ b → (A.call enc t (now, .acquire k b consumer ttl)).2 = .flag true →
      ((∀ c ∈ (now, .acquire k b consumer ttl) :: calls, Exact A c) → l.expiresAt ≤ now) ∧
      ∀ later, let t' := (A.call enc t (now, .acquire k b consumer ttl)).1
        (∀ x ∈ later.zip (serve (A.call enc) t' later).2, ¬ Acquires A k l.owner x) →
        ∀ now', (∀ ttl', (A.call enc (serve (A.call enc) t' later).1
            (now', .renew k l.owner ttl')).2 ≠ .flag true) ∧
          ∀ l', (A.call enc (serve (A.call enc) t' later).1 (now', .holder k)).2 = .lease (some l') →
            l'.owner ≠ l.owner) ∧
    (∀ a k' l, t.leases (A.leaseKey k) = some l → l.owner ≠ a →
      (A.call enc t (now, .release k' a)).1.leases (A.leaseKey k) = some l) ∧
    (∀ b consumer ttl, (A.call enc t (now, .acquire k b consumer ttl)).2 ≠ .flag true →
      (A.call enc t (now, .acquire k b consumer ttl)).1 = t) ∧
    (∀ a ttl, (A.call enc t (now, .renew k a ttl)).2 ≠ .flag true →
      (A.call enc t (now, .renew k a ttl)).1 = t) ∧
    ∀ l, (A.call enc t (now, .holder k)).2 = .lease (some l) → ∀ b consumer ttl, b ≠ l.owner →
      (A.call enc t (now, .acquire k b consumer ttl)).2 ≠ .flag true := by
  intro t
  refine ⟨fun b consumer ttl l hl hb hgranted => ?_, fun a k' l hrow ha => ?_,
    fun b consumer ttl hrefused => ?_, fun a ttl hrefused => ?_, fun l hl b consumer ttl hb hg => ?_⟩
  · have hrun := statement_of_granted hgranted
    rw [hrun] at hgranted ⊢
    have hwon : (t.acquire A now k b consumer ttl).2 = true := Reply.flag.inj hgranted
    refine ⟨fun hexact => expired_of_takeover hexact hl hb hwon, fun later => ?_⟩
    -- the row is now the new owner's
    refine fenced_of_displaced (fun l' hl' => ?_)
    have hput : (A.statement now t (.acquire k b consumer ttl)).1 =
        t.putLease A k (some ⟨b, consumer, A.expiry now ttl⟩) :=
      acquire_tables.trans (if_pos hwon)
    rw [hput, Tables.putLease_leases_self] at hl'
    cases hl'
    exact hb.symm
  · by_cases hrun : A.call enc t (now, .release k' a) = A.statement now t (.release k' a)
    · rw [hrun]
      exact release_leases hrow ha
    · rw [call_eq_self hrun]
      exact hrow
  · by_cases hrun : A.call enc t (now, .acquire k b consumer ttl) =
        A.statement now t (.acquire k b consumer ttl)
    · rw [hrun] at hrefused ⊢
      have hno : ¬ (t.acquire A now k b consumer ttl).2 = true :=
        fun h => hrefused (congrArg Reply.flag h)
      exact acquire_tables.trans (if_neg hno)
    · rw [call_eq_self hrun]
  · by_cases hrun : A.call enc t (now, .renew k a ttl) = A.statement now t (.renew k a ttl)
    · rw [hrun] at hrefused ⊢
      exact renew_refused (Bool.eq_false_iff.mpr (fun h => hrefused (congrArg Reply.flag h)))
    · rw [call_eq_self hrun]
  · rw [call_eq_statement (by rw [hl]; exact nofun)] at hl
    obtain ⟨l', hl', rfl⟩ := Option.map_eq_some_iff.mp (Reply.lease.inj hl)
    obtain ⟨hrow, hlive⟩ := Tables.holder_eq_some.mp hl'
    rw [statement_of_granted hg] at hg
    rcases acquire_granted_iff.mp (Reply.flag.inj hg) l' hrow with ho | hexpired
    · exact hb ho.symm
    · exact absurd hlive (not_lt.mpr hexpired)

/-- Owner `a` acquires a key in 2026 for thirty seconds and does not renew. Owner `b` is refused while the
lease runs and displaces `a` a second after it has run out; `a` releases the key, which is not its own any
more, and its renewal is refused. -/
theorem displaced_owner_fenced_after_expiry :
    let call := Sqlite.feedAdapter.call (fun _ => true)
    let t := (serve call .empty [(1790000000000000000, .acquire ordersKey (str "a") [] 30000000000)]).1
    let takeover (now : Int) : TimedCall := (now, .acquire ordersKey (str "b") [] 30000000000)
    let released := (serve call (call t (takeover 1790000031000000000)).1
      [(1790000032000000000, .release ordersKey (str "a"))]).1
    (call t (takeover 1790000029000000000)).2 ≠ .flag true ∧
    (call t (takeover 1790000031000000000)).2 = .flag true ∧
    (call released (1790000033000000000, .renew ordersKey (str "a") 30000000000)).2 ≠ .flag true := by
  intro call t takeover released
  have hfenced (now : Int) := (displaced_owner_fenced Sqlite.feedAdapter (fun _ => true) .empty
    [(1790000000000000000, .acquire ordersKey (str "a") [] 30000000000)] now ordersKey).1 (str "b") []
    30000000000 ⟨str "a", [], 1790000030000000000⟩ (by decide +kernel) (by decide)
  have hgranted : (call t (takeover 1790000031000000000)).2 = .flag true := by decide +kernel
  refine ⟨fun hearly => ?_, hgranted, ?_⟩
  · -- the lease had not run out
    refine absurd ((hfenced _ hearly).1 (fun c hc => ?_)) (by decide)
    simp only [List.mem_cons, List.not_mem_nil, or_false] at hc
    rcases hc with rfl | rfl <;> exact .sqlite (by decide) (by decide)
  · refine ((hfenced _ hgranted).2 [_] (fun x hx hacquires => ?_) _).1 _
    obtain ⟨-, k', consumer, ttl, hcall, -⟩ := hacquires
    rw [List.mem_singleton.mp hx] at hcall
    cases hcall

/-- **A lease of 250 years is taken over at once.** In SQLite the nanoseconds of its expiry wrap around:
owner `b` acquires the key a second after `a` did, and `a` is refused. -/
theorem long_lease_taken_over :
    let A := Sqlite.feedAdapter
    let lease : TimedCall :=
      (1790000000000000000, .acquire ordersKey (str "a") [] 7889400000000000000)
    let takeover : TimedCall :=
      (1790000001000000000, .acquire ordersKey (str "b") [] 30000000000)
    let renewal : TimedCall := (1790000002000000000, .renew ordersKey (str "a") 30000000000)
    (serve (A.call (fun _ => true)) .empty [lease, takeover, renewal]).2 =
      [.flag true, .flag true, .flag false] ∧
    promises A ordersKey .empty ([lease].zip (serve (A.call (fun _ => true)) .empty [lease]).2) =
      some ⟨str "a", [], 9679400000000000000⟩ ∧
    (takeover.1 < 9679400000000000000) := by
  refine ⟨by decide +kernel, by decide +kernel, by decide⟩

end Leases

/-! ## Two adapters -/

/-- The calls that are compared: an accepted key, a position below `2 ^ 63`, and a clock reading and a
time to live of whole microseconds. -/
structure InDomain (c : TimedCall) : Prop where
  key : validateKey c.2.key = none
  position : c.2.position < 2 ^ 63
  clock : c.1 % 1000 = 0
  ttl : c.2.ttl % 1000 = 0

/-- Both databases can represent what the call passes: the clock reading and the expiry fit the
`int64` of SQLite, and the texts the text columns of Postgres. -/
structure Representable (enc : Bytes → Bool) (c : TimedCall) : Prop where
  clock : FitsInt64 c.1
  expiry : FitsInt64 (c.1 + c.2.ttl)
  texts : c.2.texts.all enc = true

/-- No part of an accepted key holds the separator. -/
theorem nul_not_mem {k : Key} (h : validateKey k = none) :
    0 ∉ k.scope ∧ 0 ∉ k.projection ∧ 0 ∉ k.instanceName := by
  have hcontrol : ∀ s, containsControl s = false → (0 : UInt8) ∉ s := by
    intro s hs hmem
    have := List.any_eq_false.mp hs 0 hmem
    revert this
    decide
  have hparts : containsControl k.scope = false ∧ containsControl k.projection = false ∧
      containsControl k.instanceName = false := by
    simp only [validateKey] at h
    grind
  exact ⟨hcontrol _ hparts.1, hcontrol _ hparts.2.1, hcontrol _ hparts.2.2⟩

/-- Two joins with a separator that occurs in neither first part have the same parts. -/
theorem join_inj {x y x' y' : Bytes} {b : UInt8} (hx : b ∉ x) (hx' : b ∉ x')
    (h : x ++ [b] ++ y = x' ++ [b] ++ y') : x = x' ∧ y = y' := by
  have hlen : x.length = x'.length := by
    have hidx := congrArg (List.idxOf b) h
    simpa [List.idxOf_append, hx, hx'] using hidx
  rw [List.append_assoc, List.append_assoc] at h
  obtain ⟨rfl, htail⟩ := List.append_inj h hlen
  exact ⟨rfl, (List.cons.inj htail).2⟩

/-- **Accepted keys do not share a lease row**: the joined key determines its parts. -/
theorem Sqlite.leaseKey_inj {k k' : Key} (h : validateKey k = none) (h' : validateKey k' = none)
    (heq : Sqlite.feedAdapter.leaseKey k = Sqlite.feedAdapter.leaseKey k') : k = k' := by
  obtain ⟨hs, hp, -⟩ := nul_not_mem h
  obtain ⟨hs', hp', -⟩ := nul_not_mem h'
  obtain ⟨scope, projection, instanceName⟩ := k
  obtain ⟨scope', projection', instanceName'⟩ := k'
  have hjoin := (List.cons.inj heq).1
  simp only [List.append_assoc] at hjoin
  obtain ⟨rfl, hrest⟩ := join_inj hs hs' (by simpa only [List.append_assoc] using hjoin)
  obtain ⟨rfl, rfl⟩ := join_inj hp hp' (by simpa only [List.append_assoc] using hrest)
  rfl

theorem Postgres.leaseKey_inj {k k' : Key}
    (heq : Postgres.feedAdapter.leaseKey k = Postgres.feedAdapter.leaseKey k') : k = k' := by
  obtain ⟨scope, projection, instanceName⟩ := k
  obtain ⟨scope', projection', instanceName'⟩ := k'
  simp only [Postgres.feedAdapter, List.cons.injEq, and_true] at heq
  obtain ⟨rfl, rfl, rfl⟩ := heq
  rfl

/-- The two databases hold the same checkpoints, and under every accepted key the same lease. -/
structure Agree (s p : Tables) : Prop where
  checkpoints : s.checkpoints = p.checkpoints
  leases : ∀ k, validateKey k = none → s.leases (Sqlite.feedAdapter.leaseKey k) =
    (p.leases (Postgres.feedAdapter.leaseKey k)).map Postgres.feedAdapter.returned

section Agree

variable {s p : Tables} {now ttl : Int} {k : Key} {owner : Bytes}

theorem clock_agrees (hfit : FitsInt64 now) (hus : now % 1000 = 0) :
    Sqlite.feedAdapter.clock now = 1000 * Postgres.feedAdapter.clock now := by
  have hclock : Sqlite.feedAdapter.clock now = now := unixNano_eq hfit
  rw [hclock, show Postgres.feedAdapter.clock now = now / 1000 from rfl]
  omega

theorem expiry_agrees (hfit : FitsInt64 (now + ttl)) (hus : now % 1000 = 0) (httl : ttl % 1000 = 0) :
    Sqlite.feedAdapter.expiry now ttl = 1000 * Postgres.feedAdapter.expiry now ttl := by
  have hexpiry : Sqlite.feedAdapter.expiry now ttl = now + ttl := unixNano_eq hfit
  obtain ⟨q, rfl⟩ := Int.dvd_of_emod_eq_zero httl
  rw [hexpiry, show Postgres.feedAdapter.expiry now (1000 * q) = now / 1000 + (1000 * q).tdiv 1000
    from rfl, Int.mul_tdiv_cancel_left q (by decide)]
  omega

/-- Writing the same lease under an accepted key keeps the databases in step. -/
theorem Agree.putLease (h : Agree s p) (hk : validateKey k = none) (l : Option Lease) :
    Agree (s.putLease Sqlite.feedAdapter k (l.map Postgres.feedAdapter.returned))
      (p.putLease Postgres.feedAdapter k l) where
  checkpoints := h.checkpoints
  leases k' hk' := by
    by_cases hkk : k' = k
    · subst hkk
      rw [Tables.putLease_leases_self, Tables.putLease_leases_self]
    · have hs : Sqlite.feedAdapter.leaseKey k' ≠ Sqlite.feedAdapter.leaseKey k :=
        fun heq => hkk (Sqlite.leaseKey_inj hk' hk heq)
      have hp : Postgres.feedAdapter.leaseKey k' ≠ Postgres.feedAdapter.leaseKey k :=
        fun heq => hkk (Postgres.leaseKey_inj heq)
      simp only [Tables.putLease, Function.update_of_ne hs, Function.update_of_ne hp]
      exact h.leases k' hk'

theorem Agree.acquire (h : Agree s p) (hk : validateKey k = none) (owner consumer : Bytes)
    (hclock : Sqlite.feedAdapter.clock now = 1000 * Postgres.feedAdapter.clock now)
    (hexpiry : Sqlite.feedAdapter.expiry now ttl = 1000 * Postgres.feedAdapter.expiry now ttl) :
    Agree (s.acquire Sqlite.feedAdapter now k owner consumer ttl).1
        (p.acquire Postgres.feedAdapter now k owner consumer ttl).1 ∧
      (s.acquire Sqlite.feedAdapter now k owner consumer ttl).2 =
        (p.acquire Postgres.feedAdapter now k owner consumer ttl).2 := by
  have hwon := h.putLease hk (some ⟨owner, consumer, Postgres.feedAdapter.expiry now ttl⟩)
  have hrow : (some ⟨owner, consumer, Postgres.feedAdapter.expiry now ttl⟩ : Option Lease).map
      Postgres.feedAdapter.returned = some ⟨owner, consumer, Sqlite.feedAdapter.expiry now ttl⟩ := by
    rw [hexpiry]
    rfl
  rw [hrow] at hwon
  unfold Tables.acquire
  rw [h.leases k hk]
  cases p.leases (Postgres.feedAdapter.leaseKey k) with
  | none => exact ⟨hwon, rfl⟩
  | some l =>
    -- the two guards compare the same instants
    have hguard : (Postgres.feedAdapter.returned l).expiresAt ≤ Sqlite.feedAdapter.clock now ↔
        l.expiresAt ≤ Postgres.feedAdapter.clock now := by
      rw [hclock, show (Postgres.feedAdapter.returned l).expiresAt = 1000 * l.expiresAt from rfl]
      omega
    simp only [Option.map_some, hguard,
      show (Postgres.feedAdapter.returned l).owner = l.owner from rfl]
    split
    · exact ⟨hwon, rfl⟩
    · exact ⟨h, rfl⟩

theorem Agree.renew (h : Agree s p) (hk : validateKey k = none) (owner : Bytes)
    (hexpiry : Sqlite.feedAdapter.expiry now ttl = 1000 * Postgres.feedAdapter.expiry now ttl) :
    Agree (s.renew Sqlite.feedAdapter now k owner ttl).1
        (p.renew Postgres.feedAdapter now k owner ttl).1 ∧
      (s.renew Sqlite.feedAdapter now k owner ttl).2 =
        (p.renew Postgres.feedAdapter now k owner ttl).2 := by
  unfold Tables.renew
  rw [h.leases k hk]
  cases p.leases (Postgres.feedAdapter.leaseKey k) with
  | none => exact ⟨h, rfl⟩
  | some l =>
    have hput := h.putLease hk (some { l with expiresAt := Postgres.feedAdapter.expiry now ttl })
    have hrow : (some { l with expiresAt := Postgres.feedAdapter.expiry now ttl } : Option Lease).map
        Postgres.feedAdapter.returned =
        some { Postgres.feedAdapter.returned l with
          expiresAt := Sqlite.feedAdapter.expiry now ttl } := by
      rw [hexpiry]
      rfl
    rw [hrow] at hput
    simp only [Option.map_some, show (Postgres.feedAdapter.returned l).owner = l.owner from rfl]
    split
    · exact ⟨hput, rfl⟩
    · exact ⟨h, rfl⟩

theorem Agree.release (h : Agree s p) (hk : validateKey k = none) :
    Agree (s.release Sqlite.feedAdapter k owner) (p.release Postgres.feedAdapter k owner) := by
  unfold Tables.release
  rw [h.leases k hk]
  cases p.leases (Postgres.feedAdapter.leaseKey k) with
  | none => exact h
  | some l =>
    simp only [Option.map_some, show (Postgres.feedAdapter.returned l).owner = l.owner from rfl]
    split
    · exact h.putLease hk none
    · exact h

theorem Agree.holder (h : Agree s p) (hk : validateKey k = none)
    (hclock : Sqlite.feedAdapter.clock now = 1000 * Postgres.feedAdapter.clock now) :
    (s.holder Sqlite.feedAdapter now k).map Sqlite.feedAdapter.returned =
      (p.holder Postgres.feedAdapter now k).map Postgres.feedAdapter.returned := by
  unfold Tables.holder
  rw [h.leases k hk]
  cases p.leases (Postgres.feedAdapter.leaseKey k) with
  | none => rfl
  | some l =>
    have hlive : Sqlite.feedAdapter.clock now < (Postgres.feedAdapter.returned l).expiresAt ↔
        Postgres.feedAdapter.clock now < l.expiresAt := by
      rw [hclock, show (Postgres.feedAdapter.returned l).expiresAt = 1000 * l.expiresAt from rfl]
      omega
    simp only [Option.map_some, Option.filter_some, hlive]
    split <;> rfl

/-- **One call** gets the same answer from both adapters, and keeps them in step. -/
theorem Agree.call {enc : Bytes → Bool} (h : Agree s p) (hdom : InDomain c)
    (hrep : Representable enc c) :
    Agree (Sqlite.feedAdapter.call (fun _ => true) s c).1 (Postgres.feedAdapter.call enc p c).1 ∧
      (Sqlite.feedAdapter.call (fun _ => true) s c).2 = (Postgres.feedAdapter.call enc p c).2 := by
  obtain ⟨now, call⟩ := c
  have hclock := clock_agrees hrep.clock hdom.clock
  have hexpiry := expiry_agrees hrep.expiry hdom.clock hdom.ttl
  have hk := hdom.key
  have hs : Sqlite.feedAdapter.call (fun _ => true) s (now, call) =
      Sqlite.feedAdapter.statement now s call := if_pos (by simp)
  have hp : Postgres.feedAdapter.call enc p (now, call) =
      Postgres.feedAdapter.statement now p call := if_pos hrep.texts
  rw [hs, hp]
  cases call with
  | load k => exact ⟨h, by simp only [Adapter.statement, h.checkpoints]⟩
  | checkpoint k => exact ⟨h, by simp only [Adapter.statement, h.checkpoints]⟩
  | save k definition position =>
    refine ⟨⟨?_, h.leases⟩, rfl⟩
    simp only [Adapter.statement, Tables.save, Tables.upsertCheckpoint, h.checkpoints]
  | reset k definition position =>
    refine ⟨⟨?_, h.leases⟩, rfl⟩
    simp only [Adapter.statement, Tables.reset, Tables.upsertCheckpoint, h.checkpoints]
  | delete k =>
    refine ⟨⟨?_, h.leases⟩, rfl⟩
    simp only [Adapter.statement, Tables.delete, h.checkpoints]
  | acquire k owner consumer ttl =>
    obtain ⟨hagree, hflag⟩ := h.acquire hk owner consumer hclock hexpiry
    exact ⟨hagree, congrArg Reply.flag hflag⟩
  | renew k owner ttl =>
    obtain ⟨hagree, hflag⟩ := h.renew hk owner hexpiry
    exact ⟨hagree, congrArg Reply.flag hflag⟩
  | release k owner => exact ⟨h.release hk, rfl⟩
  | holder k => exact ⟨h, congrArg Reply.lease (h.holder hk hclock)⟩

end Agree

/-! ## Rows of different keys -/

/-- Two databases hold the same checkpoint and the same lease under a key. -/
structure SameAt (A : Adapter) (k : Key) (t t' : Tables) : Prop where
  checkpoint : t.checkpoints k = t'.checkpoints k
  lease : t.leases (A.leaseKey k) = t'.leases (A.leaseKey k)

section SameAt

variable {A : Adapter} {k : Key} {t t' : Tables} {now : Int}

theorem SameAt.putLease (h : SameAt A k t t') (l : Option Lease) :
    SameAt A k (t.putLease A k l) (t'.putLease A k l) :=
  ⟨h.checkpoint, by rw [Tables.putLease_leases_self, Tables.putLease_leases_self]⟩

/-- A statement on a key reads and writes the rows of that key. -/
theorem SameAt.statement {c : StoreCall} (h : SameAt A k t t') (hk : c.key = k) :
    SameAt A k (A.statement now t c).1 (A.statement now t' c).1 ∧
      (A.statement now t c).2 = (A.statement now t' c).2 := by
  subst hk
  obtain ⟨hcp, hlease⟩ := h
  cases c with
  | load k | checkpoint k =>
    refine ⟨⟨hcp, hlease⟩, ?_⟩
    simp only [StoreCall.key] at hcp
    simp only [Adapter.statement, hcp]
  | save k definition position =>
    refine ⟨⟨?_, hlease⟩, rfl⟩
    simp only [Adapter.statement, StoreCall.key] at hcp ⊢
    rw [Tables.save_checkpoints_self, Tables.save_checkpoints_self, hcp]
  | reset k definition position =>
    refine ⟨⟨?_, hlease⟩, rfl⟩
    simp only [Adapter.statement, StoreCall.key] at hcp ⊢
    rw [Tables.reset_checkpoints_self, Tables.reset_checkpoints_self, hcp]
  | delete k =>
    refine ⟨⟨?_, hlease⟩, rfl⟩
    simp only [Adapter.statement, StoreCall.key, Tables.delete, Function.update_self]
  | acquire k owner consumer ttl =>
    have hput := SameAt.putLease ⟨hcp, hlease⟩ (some ⟨owner, consumer, A.expiry now ttl⟩)
    simp only [StoreCall.key] at hcp hlease hput ⊢
    simp only [Adapter.statement, Tables.acquire, hlease]
    cases hl : t'.leases (A.leaseKey k) with
    | none => exact ⟨hput, rfl⟩
    | some l =>
      simp only
      split
      · exact ⟨hput, rfl⟩
      · exact ⟨⟨hcp, hlease⟩, rfl⟩
  | renew k owner ttl =>
    simp only [StoreCall.key] at hcp hlease ⊢
    simp only [Adapter.statement, Tables.renew, hlease]
    cases hl : t'.leases (A.leaseKey k) with
    | none => exact ⟨⟨hcp, hlease⟩, rfl⟩
    | some l =>
      simp only
      split
      · exact ⟨SameAt.putLease ⟨hcp, hlease⟩ _, rfl⟩
      · exact ⟨⟨hcp, hlease⟩, rfl⟩
  | release k owner =>
    simp only [StoreCall.key] at hcp hlease ⊢
    refine ⟨?_, rfl⟩
    simp only [Adapter.statement, Tables.release, hlease]
    cases hl : t'.leases (A.leaseKey k) with
    | none => exact ⟨hcp, hlease⟩
    | some l =>
      simp only
      split
      · exact SameAt.putLease ⟨hcp, hlease⟩ none
      · exact ⟨hcp, hlease⟩
  | holder k =>
    refine ⟨⟨hcp, hlease⟩, ?_⟩
    simp only [StoreCall.key] at hlease
    simp only [Adapter.statement, Tables.holder, hlease]

/-- A statement on another key leaves the rows of a key alone. -/
theorem SameAt.statement_other {c : StoreCall} (h : SameAt A k t t') (hk : k ≠ c.key)
    (hrow : A.leaseKey k ≠ A.leaseKey c.key) : SameAt A k (A.statement now t c).1 t' := by
  have hput : ∀ l, SameAt A k (t.putLease A c.key l) t' := fun l =>
    ⟨h.checkpoint, by rw [← h.lease]; simp only [Tables.putLease, Function.update_of_ne hrow]⟩
  cases c with
  | load | checkpoint | holder => exact h
  | save k' definition position =>
    exact ⟨by rw [← h.checkpoint]; exact Tables.save_checkpoints_of_ne hk, h.lease⟩
  | reset k' definition position =>
    exact ⟨by rw [← h.checkpoint]; exact Tables.reset_checkpoints_of_ne hk, h.lease⟩
  | delete k' =>
    refine ⟨?_, h.lease⟩
    rw [← h.checkpoint]
    exact Function.update_of_ne hk _ _
  | acquire k' owner consumer ttl =>
    simp only [Adapter.statement]
    rcases Tables.acquire_cases with ⟨hwon, -⟩ | ⟨hrefused, -⟩
    · rw [hwon]
      exact hput _
    · rw [hrefused]
      exact h
  | renew k' owner ttl =>
    simp only [Adapter.statement]
    rcases Tables.renew_cases with ⟨_, -, -, hrenewed⟩ | ⟨-, hrefused⟩
    · rw [hrenewed]
      exact hput _
    · rw [hrefused]
      exact h
  | release k' owner =>
    simp only [Adapter.statement]
    rcases Tables.release_cases with ⟨_, -, -, hdropped⟩ | ⟨-, hleft⟩
    · rw [hdropped]
      exact hput _
    · rw [hleft]
      exact h

/-- **Keys do not interfere.** The calls on one key are answered as if they were the only ones, when
no other key of the run is stored in its lease row. -/
theorem serve_key {enc : Bytes → Bool}
    (hinj : ∀ c ∈ calls, A.leaseKey k = A.leaseKey c.2.key → k = c.2.key) :
    (calls.zip (serve (A.call enc) .empty calls).2).filter (fun x => decide (x.1.2.key = k)) =
      (calls.filter (fun c => decide (c.2.key = k))).zip
        (serve (A.call enc) .empty (calls.filter (fun c => decide (c.2.key = k)))).2 := by
  refine serve_filter (R := SameAt A k) (M := fun c : TimedCall => decide (c.2.key = k))
    (P := fun c => A.leaseKey k = A.leaseKey c.2.key → k = c.2.key) (fun t t' c h hc _ => ?_)
    (fun t t' c h hc hrow => ?_) hinj ⟨rfl, rfl⟩
  · unfold Adapter.call
    split
    · exact h.statement (of_decide_eq_true hc)
    · exact ⟨h, rfl⟩
  · have hk : k ≠ c.2.key := fun heq => of_decide_eq_false hc heq.symm
    unfold Adapter.call
    split
    · exact h.statement_other hk (fun heq => hk (hrow heq))
    · exact h

end SameAt

/-! ## Agreement -/

/-- **The two adapters agree.** For every sequence of calls in the domain whose clock readings,
expiries and texts both databases can represent, the adapters return the same replies, and the calls
on one key are answered as if no other key had been used. -/
theorem adapters_agree (enc : Bytes → Bool) (calls : List TimedCall)
    (hdom : ∀ c ∈ calls, InDomain c) (hrep : ∀ c ∈ calls, Representable enc c) :
    (serve (Sqlite.feedAdapter.call (fun _ => true)) .empty calls).2 =
      (serve (Postgres.feedAdapter.call enc) .empty calls).2 ∧
    ∀ k, validateKey k = none →
      (calls.zip (serve (Sqlite.feedAdapter.call (fun _ => true)) .empty calls).2).filter
          (fun x => decide (x.1.2.key = k)) =
        (calls.filter (fun c => decide (c.2.key = k))).zip
          (serve (Sqlite.feedAdapter.call (fun _ => true)) .empty
            (calls.filter (fun c => decide (c.2.key = k)))).2 ∧
      (calls.zip (serve (Postgres.feedAdapter.call enc) .empty calls).2).filter
          (fun x => decide (x.1.2.key = k)) =
        (calls.filter (fun c => decide (c.2.key = k))).zip
          (serve (Postgres.feedAdapter.call enc) .empty
            (calls.filter (fun c => decide (c.2.key = k)))).2 := by
  have hempty : Agree .empty .empty := ⟨rfl, fun _ _ => rfl⟩
  refine ⟨?_, fun k hk => ⟨serve_key fun c hc heq => ?_, serve_key fun c hc heq => ?_⟩⟩
  · exact (serve_eq_of_simulation (P := fun c => InDomain c ∧ Representable enc c)
      (fun s p c h hc => h.call hc.1 hc.2) (fun c hc => ⟨hdom c hc, hrep c hc⟩) hempty).2
  · exact Sqlite.leaseKey_inj hk (hdom c hc).key heq
  · exact Postgres.leaseKey_inj heq

/-- Owner `a` acquires at an instant for a time to live; then the holder is read. -/
def acquireThenHolder (now ttl : Int) : List TimedCall :=
  [(now, .acquire ordersKey (str "a") [] ttl), (now, .holder ordersKey)]

/-- A lease of thirty seconds is reported alike. -/
theorem adapters_agree_thirty_seconds :
    (serve (Sqlite.feedAdapter.call (fun _ => true)) .empty
        (acquireThenHolder 1790000000000000000 30000000000)).2 =
      (serve (Postgres.feedAdapter.call (fun _ => true)) .empty
        (acquireThenHolder 1790000000000000000 30000000000)).2 ∧
    (serve (Postgres.feedAdapter.call (fun _ => true)) .empty
        (acquireThenHolder 1790000000000000000 30000000000)).2 =
      [.flag true, .lease (some ⟨str "a", [], 1790000030000000000⟩)] := by
  refine ⟨(adapters_agree (fun _ => true) _ (fun c hc => ?_) (fun c hc => ?_)).1, by decide +kernel⟩
  · rcases List.mem_pair.mp hc with rfl | rfl
    · exact ⟨by decide, by decide, by decide, by decide⟩
    · exact ⟨by decide, by decide, by decide, by decide⟩
  · rcases List.mem_pair.mp hc with rfl | rfl
    · exact ⟨by decide, by decide, by decide⟩
    · exact ⟨by decide, by decide, by decide⟩

/-- **A lease past the year 2262.** In 2026 owner `a` acquires a free key for 250 years, a positive
number of whole microseconds. In SQLite the nanoseconds of the expiry wrap around and nobody holds the
key; in Postgres `a` does. -/
theorem lease_past_2262 :
    (serve (Sqlite.feedAdapter.call (fun _ => true)) .empty
        (acquireThenHolder 1790000000000000000 7889400000000000000)).2 =
      [.flag true, .lease none] ∧
    (serve (Postgres.feedAdapter.call (fun _ => true)) .empty
        (acquireThenHolder 1790000000000000000 7889400000000000000)).2 =
      [.flag true, .lease (some ⟨str "a", [], 9679400000000000000⟩)] := by
  constructor <;> decide +kernel

end EsLite.Feed
