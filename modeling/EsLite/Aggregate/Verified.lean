import EsLite.Aggregate.TimeTravel

/-!
# Verified loads

A runtime with chain verification feeds what it folds to a checker that has seen nothing. The checker
refuses gaps and altered rows, but takes the first envelope as it comes: at any version, and without a
hash. So a load that succeeds has folded a gapless chain exactly when the first envelope after the seed
is the next version and carries a hash (`verified_load_gapless_iff`); nothing makes it so when the rows
after the seed were removed, or all hashes were.
-/

namespace EsLite.Aggregate

variable {S C E σ κ : Type}

/-! ## A load as a whole -/

/-- Where a load starts: a usable snapshot, or the initial state. -/
def Runtime.start (R : Runtime S C E) (a : Answer κ) (s : Shared σ) (sid : StreamID) : S × UInt64 :=
  match R.snapshots with
  | none => (R.decider.initial, 0)
  | some c =>
    c.seed R.decider.initial (match a.fault with
      | some err => .error err
      | none => .ok (s.cache sid.canonical))

/-- **A load** folds what is read after its start. -/
theorem atomically_load (R : Runtime S C E) (St : EventStore σ κ) (sid : StreamID) (a : Answer κ)
    (s : Shared σ) :
    (R.load sid 0 .zero).run.atomically (execShared St) a s =
      some (s, R.foldRead sid 0 (R.start a s sid)
        (St.readStream a.store sid (R.start a s sid).2 0 s.store)) := by
  cases hc : R.snapshots with
  | none =>
    rw [load_uncached hc]
    simp only [Prog.atomically, execShared, Runtime.start, hc, Option.bind_some]
  | some c =>
    rw [load_cached hc]
    simp only [Prog.atomically, execShared, Runtime.start, hc, Option.bind_some]
    rfl

/-- What a load that verifies has folded, the checker has accepted. -/
theorem feed_of_foldEnvelopes {M : Model S C E} {sid : StreamID} {c : ChainChecker}
    {acc acc' : S × UInt64} {envs : List Envelope} (hc : c.rep.err = none)
    (hok : foldEnvelopes M sid (some c) acc envs = .ok acc') : ∃ c', c.feed envs = (c', none) := by
  induction envs generalizing c acc with
  | nil => exact ⟨c, rfl⟩
  | cons env envs ih =>
    simp only [foldEnvelopes, checkNext] at hok
    cases hcheck : c.check env with
    | error cause =>
      simp only [ChainChecker.next, hc, hcheck] at hok
      cases hok
    | ok u =>
      simp only [ChainChecker.next_of_check hc hcheck] at hok
      split at hok
      · cases hok
      · obtain ⟨c', hfeed⟩ := ih (c := c.accept env) hc hok
        exact ⟨c', ChainChecker.feed_cons_eq_none.mpr ⟨hc, hcheck, hfeed⟩⟩

/-! ## Gapless chains -/

/-- **The envelopes are a gapless chain** from version `s` to version `n`: their versions are `s + 1` to
`n`, each is linked to the hash of the one before it (version 1 to the zero hash), and the hash stored
with each is the one its fields produce. -/
def Gapless (sid : StreamID) (s n : Nat) (envs : List Envelope) : Prop :=
  n = s + envs.length ∧ ∃ prev : Digest, (s = 0 → prev = zeroHash) ∧ ChainFrom sid s prev envs

/-- The first envelope, if there is one, is the version after `s` and carries a hash. -/
def StartsAfter (s : Nat) (envs : List Envelope) : Prop :=
  ∀ e ∈ envs.head?, e.versionNat = s + 1 ∧ e.hash.isSome

theorem Gapless.startsAfter {sid : StreamID} {s n : Nat} {envs : List Envelope}
    (h : Gapless sid s n envs) : StartsAfter s envs := by
  obtain ⟨-, prev, -, hchain⟩ := h
  intro e he
  obtain ⟨es, rfl⟩ := List.head?_eq_some_iff.mp he
  exact ⟨hchain.1.version, by rw [hchain.1.hashed]; rfl⟩

/-- Versions are read from a column of 64 bits with a sign. -/
def SignedVersions (St : EventStore σ κ) : Prop :=
  ∀ k sid v s envs, St.readStream k sid v 0 s = .ok envs → ∀ e ∈ envs, e.versionNat < 2 ^ 63

theorem signedVersions_sqlite (T : GoText) (cap : Int) : SignedVersions (Sqlite.sqliteStore T cap) := by
  intro k sid v s envs hread e he
  simp only [Sqlite.sqliteStore] at hread
  split at hread
  · cases hread
  unfold Sqlite.readStream at hread
  split at hread
  · cases hread
  split at hread
  · cases hread
  obtain ⟨r, -, hr⟩ := exists_row_of_scanAll hread he
  exact (Sqlite.scanUint64_eq_some (Sqlite.scanEnvelope_eq_ok hr).1).2

/-- **Verified loads fold a gapless chain** exactly when the first envelope after the seed is the next
version and carries a hash. The store and the cache hold anything. If a load that verifies succeeds and
returns version `n`, the read returned some envelopes, and these are a gapless chain from the seed to
`n` if and only if they start right after the seed. -/
theorem verified_load_gapless_iff {R : Runtime S C E} (hverify : R.verifyChain = true)
    {St : EventStore σ κ} (hsigned : SignedVersions St) {sid : StreamID} {a : Answer κ}
    {s s' : Shared σ} {state : S} {n : UInt64}
    (hload : (R.load sid 0 .zero).run.atomically (execShared St) a s = some (s', .ok (state, n))) :
    ∃ envs, envelopesOf (St.readStream a.store sid (R.start a s sid).2 0 s.store) = .ok envs ∧
      (Gapless sid (R.start a s sid).2.toNat n.toNat envs ↔
        StartsAfter (R.start a s sid).2.toNat envs) := by
  rw [atomically_load, Option.some.injEq, Prod.mk.injEq] at hload
  obtain ⟨-, hfold⟩ := hload
  generalize R.start a s sid = acc at hfold ⊢
  obtain ⟨envs, henvs⟩ := envelopesOf_eq_ok R (not_readFailed_of_ok hfold)
  refine ⟨envs, henvs, Gapless.startsAfter, fun hfirst => ?_⟩
  rw [foldRead_eq R henvs, if_pos hverify] at hfold
  have hbound : ∀ e ∈ envs, e.versionNat < 2 ^ 63 := by
    unfold envelopesOf at henvs
    split at henvs
    · rename_i hread
      cases henvs
      exact hsigned _ _ _ _ _ hread
    · cases henvs
      exact fun e he => nomatch he
    · cases henvs
  obtain ⟨c', hfeed⟩ := feed_of_foldEnvelopes rfl hfold
  obtain ⟨prev, hprev, hchain⟩ := ChainChecker.chainFrom_of_feed_fresh hfeed hfirst hbound
  refine ⟨?_, prev, hprev, hchain⟩
  -- the version of the load is that of the last envelope
  obtain ⟨evs, hevs⟩ := decodesTo_of_foldEnvelopes hfold
  have hn := congrArg Prod.snd (foldEnvelopes_eq_ok hevs hfold)
  simp only at hn
  rw [hn]
  exact getLastD_versions_after (by
    rw [List.map_map]
    exact hchain.versions)

/-- The table with only some of its rows. -/
def keepRows (t : Sqlite.EventsTable) (p : Sqlite.EventRow → Bool) : Sqlite.EventsTable where
  rows := t.rows.filter p
  positions := t.positions.sublist (List.filter_sublist.map _)
  versions := t.versions.sublist (List.filter_sublist.map _)
  eventIDs := t.eventIDs.sublist (List.filter_sublist.map _)

/-- A checker accepts the second of two events that one accepts. -/
theorem feed_second {e₁ e₂ : Envelope} (h : ((newChainChecker counterMain .zero).feed [e₁, e₂]).2 = none)
    (hv : e₂.version = 2) : ((newChainChecker counterMain .zero).feed [e₂]).2 = none := by
  refine @ChainChecker.feed_fresh (newChainChecker counterMain .zero) [e₁] [e₂] h fun e he => ?_
  rw [List.mem_singleton.mp he, Envelope.versionNat, hv]
  decide

/-- **A load from a snapshot** at the first of two events folds a gapless chain to the second. -/
theorem verified_load_gapless_cached :
    ((cachedCounter.load counterMain 0 .zero).run.atomically (execShared (Sqlite.sqliteStore storeText 0))
        (calmAnswer calmStore) (cachedAt 1 [0] twoEventsDb)).map (·.2.toOption) = some (some (2, 2)) ∧
    ∃ envs, Sqlite.readStream storeText twoEventsDb.events counterMain 1 0 = .ok envs ∧
      Gapless counterMain 1 2 envs := by
  obtain ⟨e₁, e₂, -, h₂, hhash, -, hread, hfeed⟩ := exists_twoEvents
  have hrest := feed_second hfeed h₂
  have hrun : (cachedCounter.load counterMain 0 .zero).run.atomically
      (execShared (Sqlite.sqliteStore storeText 0)) (calmAnswer calmStore) (cachedAt 1 [0] twoEventsDb) =
        some (cachedAt 1 [0] twoEventsDb, .ok (2, 2)) := by
    rw [atomically_load]
    -- the snapshot is of version 1
    show some (_, cachedCounter.foldRead counterMain 0 (1, 1)
      (Sqlite.readStream storeText twoEventsDb.events counterMain 1 0)) = _
    rw [hread, foldRead_checked (fun _ => hrest) (.cons rfl .nil), List.map_singleton, h₂]
    rfl
  refine ⟨by rw [hrun]; rfl, [e₂], hread, ?_⟩
  obtain ⟨envs, henvs, hiff⟩ := verified_load_gapless_iff (R := cachedCounter) rfl
    (signedVersions_sqlite storeText 0) hrun
  have henvs' : envelopesOf (Sqlite.readStream storeText twoEventsDb.events counterMain 1 0) = .ok envs :=
    henvs
  rw [hread] at henvs'
  cases henvs'
  refine hiff.mpr fun e he => ?_
  cases he
  exact ⟨congrArg UInt64.toNat h₂, hhash⟩

/-- With the first of two events removed, a load that verifies succeeds: it folds version 2 onto the
initial state, and returns version 2. -/
theorem verified_load_misses_first_row :
    (Sqlite.readStream storeText (keepRows twoEventsDb.events (fun r => r.version ≠ 1)) counterMain
        0 0).toOption.map (fun envs => envs.map Envelope.versionNat) = some [2] ∧
      ((counterRuntime.load counterMain 0 .zero).run.atomically
        (execShared (Sqlite.sqliteStore storeText 0)) (calmAnswer calmStore)
        ⟨{ twoEventsDb with events := keepRows twoEventsDb.events (fun r => r.version ≠ 1) },
          fun _ => none, []⟩).map (fun x => x.2.toOption) = some (some (1, 2)) := by
  obtain ⟨e₁, e₂, -, h₂, -, -, hread, hfeed⟩ := exists_twoEvents
  have hrows : (twoEventsDb.events.rows.filter (fun r => r.version ≠ 1)).filter (fun r =>
      r.streamID = counterMain.canonical && (0 : Int) < r.version && true) =
      twoEventsDb.events.rows.filter (fun r =>
        r.streamID = counterMain.canonical && (1 : Int) < r.version && true) := by
    rw [List.filter_filter]
    exact List.filter_congr (by decide +kernel)
  have hkeep : Sqlite.readStream storeText (keepRows twoEventsDb.events (fun r => r.version ≠ 1)) counterMain
      0 0 = .ok [e₂] := by
    rw [← hread]
    exact congrArg (fun rows => scanAll (Sqlite.scanEnvelope storeText) (Sqlite.orderByVersion rows)) hrows
  refine ⟨by rw [hkeep]; exact congrArg (fun v : UInt64 => some [v.toNat]) h₂, ?_⟩
  rw [atomically_load]
  show some (Except.toOption (counterRuntime.foldRead counterMain 0 (0, 0) (Sqlite.readStream storeText
    (keepRows twoEventsDb.events (fun r => r.version ≠ 1)) counterMain 0 0))) = _
  rw [hkeep, foldRead_checked (fun _ => feed_second hfeed h₂) (.cons rfl .nil), List.map_singleton, h₂]
  rfl

end EsLite.Aggregate
