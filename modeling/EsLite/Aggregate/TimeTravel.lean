import EsLite.Aggregate.Snapshots
import EsLite.Sqlite.AsOf

/-!
# Time travel

`LoadAsOfVersion` and `LoadAsOfTime` fold a stream from its first event up to a bound. Neither looks at
the snapshot cache, so both return the fold of the events up to the bound, whatever is cached
(`time_travel_by_version`, `time_travel_by_clock`).

Both bounds share the arguments of `load` with the absence of a bound. The zero time is a time as well
as the sign for none: at the zero time `LoadAsOfTime` is `Load` (`loadAsOfTime_zero`).
-/

namespace EsLite.Aggregate

variable {S C E σ κ : Type}

/-! ## The programs -/

variable {v : UInt64} {sid : StreamID} {evs : List E}

namespace Runtime

variable (R : Runtime S C E)

/-- The state of a load. -/
theorem run_state (r : Except LoadError (S × UInt64)) :
    ((Prog.ofResult r >>= fun acc => pure acc.1 : Act LoadError S)).run = .ret (r.map Prod.fst) := by
  cases r <;> rfl

/-- **Time travel by clock** is one read as of the time; the cache is not looked at. -/
theorem loadAsOfTime_eq (sid : StreamID) {t : Time} (ht : t ≠ .zero) :
    (R.loadAsOfTime sid t).run = .call (.readStreamAsOf sid t) (fun r =>
      .ret ((R.foldRead sid 0 (R.decider.initial, 0) r).map Prod.fst)) := by
  have hzero : t.isZero = false := beq_eq_false_iff_ne.mpr ht
  unfold loadAsOfTime load seed
  simp only [hzero, Bool.false_eq_true, and_false, if_false]
  cases R.snapshots <;> exact congrArg (Prog.call _) (funext (fun r => run_state _))

/-- At the zero time there is no bound: time travel is a load of the current state. -/
theorem loadAsOfTime_zero (sid : StreamID) :
    R.loadAsOfTime sid .zero = (do let (state, _) ← R.load sid 0 .zero; pure state) := rfl

/-- **Time travel by version** is one read up to the version; the cache is not looked at. -/
theorem loadAsOfVersion_eq (hsid : sid.Valid) (hv : v ≠ 0) :
    (R.loadAsOfVersion sid v).run = .call (.readStream sid 0 v) (fun r =>
      .ret ((R.foldRead sid v (R.decider.initial, 0) r).map Prod.fst)) := by
  have hvalid : sid.validate = .ok () := hsid
  unfold loadAsOfVersion load seed
  simp only [hvalid, hv, false_and, if_false]
  cases R.snapshots <;> exact congrArg (Prog.call _) (funext (fun r => run_state _))

/-- Before the first event a stream is in its initial state. -/
theorem loadAsOfVersion_zero (hsid : sid.Valid) :
    (R.loadAsOfVersion sid 0).run = .ret (.ok R.decider.initial) := by
  have hvalid : sid.validate = .ok () := hsid
  unfold loadAsOfVersion
  simp only [hvalid, if_true]
  rfl

end Runtime

/-! ## Folding up to a bound -/

section Fold

variable (R : Runtime S C E) {sid : StreamID} {envs : List Envelope}

/-- The chain of the events, if the runtime verifies it. -/
def Verifies (sid : StreamID) (envs : List Envelope) : Prop :=
  R.verifyChain = true → ((newChainChecker sid .zero).feed envs).2 = none

variable {R}

/-- A checker that accepts a list accepts its initial parts. -/
theorem Verifies.take (h : Verifies R sid envs) (n : Nat) : Verifies R sid (envs.take n) := by
  intro hverify
  have hfeed := h hverify
  rw [← List.take_append_drop n envs, ChainChecker.feed_append] at hfeed
  rcases hc : (newChainChecker sid .zero).feed (envs.take n) with ⟨c, _ | err⟩
  · rfl
  · rw [hc] at hfeed
    cases hfeed

/-- **The loop of a load** that decodes every event and verifies returns their fold, and the last
version. -/
theorem foldEnvelopes_checked {acc : S × UInt64} (hchain : Verifies R sid envs)
    (hdecodes : DecodesTo R.toModel sid envs evs) :
    foldEnvelopes R.toModel sid (if R.verifyChain then some (newChainChecker sid .zero) else none) acc
        envs =
      .ok (evs.foldl R.decider.evolve acc.1, (envs.map (·.version)).getLastD acc.2) := by
  have hplain : foldEnvelopes R.toModel sid none acc envs =
      .ok (evs.foldl R.decider.evolve acc.1, (envs.map (·.version)).getLastD acc.2) := by
    rw [← List.append_nil envs, foldEnvelopes_append hdecodes, List.append_nil]
    rfl
  by_cases hverify : R.verifyChain = true
  · rw [if_pos hverify, foldEnvelopes_verified (hchain hverify), hplain]
  · rw [if_neg hverify, hplain]

/-- A load up to a version of what was read. -/
theorem foldRead_checked {acc : S × UInt64} (hchain : Verifies R sid envs)
    (hdecodes : DecodesTo R.toModel sid envs evs) :
    R.foldRead sid v acc (.ok envs) =
      if 0 < v ∧ (envs.map (·.version)).getLastD acc.2 ≠ v then
        .error (.versionOutOfRange sid ((envs.map (·.version)).getLastD acc.2) v)
      else .ok (evs.foldl R.decider.evolve acc.1, (envs.map (·.version)).getLastD acc.2) := by
  simp only [Runtime.foldRead, envelopesOf, foldEnvelopes_checked hchain hdecodes]

/-- A load that succeeds decoded what was read. -/
theorem decodesTo_of_foldRead {acc acc' : S × UInt64}
    (hok : R.foldRead sid v acc (.ok envs) = .ok acc') : ∃ evs, DecodesTo R.toModel sid envs evs := by
  simp only [Runtime.foldRead, envelopesOf] at hok
  split at hok
  · cases hok
  · rename_i hfold
    exact decodesTo_of_foldEnvelopes hfold

end Fold

/-! ## By version -/

/-- What a load as of version `v` of a stream with `n` events returns, if the events up to it are
`evs`. -/
def asOfVersion (M : Model S C E) (sid : StreamID) (n : Nat) (v : UInt64) (evs : List E) :
    Except LoadError S :=
  if v.toNat ≤ n then .ok (M.fold evs) else .error (.versionOutOfRange sid (UInt64.ofNat n) v)

/-- The version of the last of the first `v` of `n` events. -/
theorem getLastD_take_versions {envs : List Envelope}
    (hversions : envs.map Envelope.versionNat = List.range' 1 envs.length) (v : Nat) :
    (((envs.take v).map Envelope.version).getLastD 0).toNat = min v envs.length := by
  have htake : ((envs.take v).map Envelope.version).map (·.toNat) = List.range' 1 (min v envs.length) := by
    rw [List.map_map, List.map_take]
    show (envs.map Envelope.versionNat).take v = _
    rw [hversions]
    rcases le_total v envs.length with hle | hle
    · rw [min_eq_left hle, List.take_range'_of_length_ge hle]
    · rw [min_eq_right hle, List.take_of_length_le (by rw [List.length_range']; exact hle)]
  exact getLastD_versions htake

section Version

variable {R : Runtime S C E} {T : GoText} {cap : Int} {db : Sqlite.Db} {sid : StreamID}
  {envs : List Envelope} (hread : Sqlite.readStream T db.events sid 0 0 = .ok envs)
  (hversions : envs.map Envelope.versionNat = List.range' 1 envs.length)
include hread

theorem valid_of_readStream : sid.Valid := by
  unfold Sqlite.readStream at hread
  split at hread
  · cases hread
  · assumption

/-- A load as of a version reads and folds; nothing else happens. -/
theorem atomically_loadAsOfVersion (hv : v ≠ 0) {s : Shared Sqlite.Db} {a : Answer Sqlite.StoreChoice}
    (hs : s.store = db) (ha : a.store.fault = none) :
    (R.loadAsOfVersion sid v).run.atomically (execShared (Sqlite.sqliteStore T cap)) a s =
      some (s, (R.foldRead sid v (R.decider.initial, 0)
        (Sqlite.readStream T db.events sid 0 v)).map Prod.fst) := by
  rw [R.loadAsOfVersion_eq (valid_of_readStream hread) hv]
  simp only [Prog.atomically, execShared, Sqlite.sqliteStore, ha, hs, Option.bind_some]

include hversions

/-- The stream has fewer events than a column can hold versions. -/
theorem length_lt_of_readStream : envs.length < 2 ^ 63 := by
  cases hlen : envs.length with
  | zero => decide
  | succ n =>
    have hmem : n + 1 ∈ envs.map Envelope.versionNat := by
      rw [hversions, List.mem_range'_1]
      omega
    obtain ⟨e, he, hev⟩ := List.mem_map.mp hmem
    have hscan := hread
    unfold Sqlite.readStream at hscan
    split at hscan
    · cases hscan
    split at hscan
    · cases hscan
    obtain ⟨r, -, hr⟩ := exists_row_of_scanAll hscan he
    rw [← hev]
    exact (Sqlite.scanUint64_eq_some (Sqlite.scanEnvelope_eq_ok hr).1).2

/-- **Below 2⁶³** a load as of a version is exact. -/
theorem loadAsOfVersion_exact (hchain : Verifies R sid envs) (hv : v.toNat < 2 ^ 63)
    (hdecodes : DecodesTo R.toModel sid (envs.take v.toNat) evs) {s : Shared Sqlite.Db}
    {a : Answer Sqlite.StoreChoice} (hs : s.store = db) (ha : a.store.fault = none) :
    (R.loadAsOfVersion sid v).run.atomically (execShared (Sqlite.sqliteStore T cap)) a s =
      some (s, asOfVersion R.toModel sid envs.length v evs) := by
  by_cases hzero : v = 0
  · subst hzero
    obtain rfl : evs = [] := by
      rw [show (0 : UInt64).toNat = 0 from rfl, List.take_zero] at hdecodes
      cases hdecodes
      rfl
    rw [R.loadAsOfVersion_zero (valid_of_readStream hread), asOfVersion,
      if_pos (show (0 : UInt64).toNat ≤ _ from Nat.zero_le _)]
    rfl
  · have hlast := getLastD_take_versions hversions v.toNat
    have hpos : 0 < v := UInt64.pos_iff_ne_zero.mpr hzero
    rw [atomically_loadAsOfVersion hread hzero hs ha, Sqlite.readStream_upTo hread hzero hv,
      Sqlite.filter_version_le hversions, foldRead_checked (hchain.take _) hdecodes, asOfVersion]
    rcases Nat.lt_or_ge envs.length v.toNat with hlt | hge
    · -- the stream ends before the version
      rw [min_eq_right hlt.le] at hlast
      have hversion : ((envs.take v.toNat).map (·.version)).getLastD 0 = UInt64.ofNat envs.length := by
        rw [← hlast, UInt64.ofNat_toNat]
      have hne : UInt64.ofNat envs.length ≠ v := by
        intro heq
        rw [hversion, heq] at hlast
        omega
      rw [if_neg (Nat.not_le.mpr hlt), hversion, if_pos ⟨hpos, hne⟩]
      rfl
    · rw [min_eq_left hge] at hlast
      have hversion : ((envs.take v.toNat).map (·.version)).getLastD 0 = v :=
        UInt64.toNat_inj.mp hlast
      rw [if_pos hge, hversion, if_neg (fun h => h.2 rfl)]
      rfl

end Version

/-- **Time travel by version is exact and independent of the cache**, below 2⁶³. Take any events table
and a stream of it that is read, with the versions 1 to `n`, and whose chain is intact if the runtime
verifies it. Whatever is cached, `LoadAsOfVersion(v)` returns the fold of events 1 to `v`, which is the
initial state for 0, or `ErrVersionOutOfRange` beyond `n`, if and only if `v` is below 2⁶³. And folding
events `v + 1` to `w` onto what it returned for `v` is what it returns for `w`. -/
theorem time_travel_by_version {R : Runtime S C E} {T : GoText} (cap : Int) {db : Sqlite.Db}
    {sid : StreamID} {envs : List Envelope} (hread : Sqlite.readStream T db.events sid 0 0 = .ok envs)
    (hversions : envs.map Envelope.versionNat = List.range' 1 envs.length)
    (hchain : Verifies R sid envs) :
    (∀ v evs, DecodesTo R.toModel sid (envs.take v.toNat) evs →
      ((∀ (s : Shared Sqlite.Db) (a : Answer Sqlite.StoreChoice), s.store = db →
          a.store.fault = none →
          (R.loadAsOfVersion sid v).run.atomically (execShared (Sqlite.sqliteStore T cap)) a s =
            some (s, asOfVersion R.toModel sid envs.length v evs)) ↔ v.toNat < 2 ^ 63)) ∧
    ∀ (v w : UInt64) (s : Shared Sqlite.Db) (a : Answer Sqlite.StoreChoice) (state : S) (more : List E),
      v ≤ w → w.toNat ≤ envs.length → s.store = db → a.store.fault = none →
      (R.loadAsOfVersion sid v).run.atomically (execShared (Sqlite.sqliteStore T cap)) a s =
        some (s, .ok state) →
      DecodesTo R.toModel sid ((envs.take w.toNat).drop v.toNat) more →
      (R.loadAsOfVersion sid w).run.atomically (execShared (Sqlite.sqliteStore T cap)) a s =
        some (s, .ok (more.foldl R.decider.evolve state)) := by
  have hlen := length_lt_of_readStream hread hversions
  refine ⟨fun v evs hdecodes => ⟨fun h => ?_, fun hv s a hs ha =>
    loadAsOfVersion_exact hread hversions hchain hv hdecodes hs ha⟩, ?_⟩
  · -- the driver refuses a larger version, which is an error of the store
    by_contra hv
    have hzero : v ≠ 0 := by
      rintro rfl
      exact hv (by decide)
    have hrun := h ⟨db, fun _ => none, []⟩ ⟨⟨0⟩, .zero 16, ⟨⟨⟨0⟩, ⟨0⟩, fun _ => .zero 16⟩, none⟩,
      none, true, none⟩ rfl rfl
    have hvalid : sid.validate = .ok () := valid_of_readStream hread
    rw [atomically_loadAsOfVersion hread hzero rfl rfl] at hrun
    have hbig : (0 : UInt64).toNat ≥ 2 ^ 63 ∨ 2 ^ 63 ≤ v.toNat := .inr (Nat.le_of_not_lt hv)
    simp only [Sqlite.readStream, hvalid, if_pos hbig, Runtime.foldRead, envelopesOf, asOfVersion,
      Option.some.injEq, Prod.mk.injEq, true_and] at hrun
    split at hrun <;> cases hrun
  · intro v w s a state more hvw hw hs ha hrun hmore
    have hvw := UInt64.le_iff_toNat_le.mp hvw
    -- the events up to `v` were decoded
    obtain ⟨evs, hevs⟩ : ∃ evs, DecodesTo R.toModel sid (envs.take v.toNat) evs := by
      by_cases hzero : v = 0
      · subst hzero
        exact ⟨[], .nil⟩
      · rw [atomically_loadAsOfVersion hread hzero hs ha,
          Sqlite.readStream_upTo hread hzero (by omega), Sqlite.filter_version_le hversions] at hrun
        simp only [Option.some.injEq, Prod.mk.injEq, true_and] at hrun
        cases hfold : R.foldRead sid v (R.decider.initial, 0) (.ok (envs.take v.toNat)) with
        | error err =>
          rw [hfold] at hrun
          cases hrun
        | ok acc => exact decodesTo_of_foldRead hfold
    have hfold : state = R.fold evs := by
      rw [loadAsOfVersion_exact hread hversions hchain (by omega) hevs hs ha, asOfVersion,
        if_pos (hvw.trans hw)] at hrun
      simpa using hrun.symm
    have hall : DecodesTo R.toModel sid (envs.take w.toNat) (evs ++ more) := by
      rw [← List.take_append_drop v.toNat (envs.take w.toNat), List.take_take, min_eq_left hvw]
      exact List.rel_append hevs hmore
    rw [loadAsOfVersion_exact hread hversions hchain (by omega) hall hs ha, asOfVersion, if_pos hw,
      hfold, Model.fold, Model.fold, List.foldl_append]

/-- The database after two appends to `counter:main`. -/
def twoEventsDb : Sqlite.Db := (Sqlite.appendRun storeText 0 (.empty, []) Sqlite.datedCalls).1

/-- **What is read of the two events**, and that a checker accepts it. -/
theorem exists_twoEvents : ∃ e₁ e₂ : Envelope, e₁.version = 1 ∧ e₂.version = 2 ∧ e₂.hash.isSome = true ∧
    Sqlite.readStream storeText twoEventsDb.events counterMain 0 0 = .ok [e₁, e₂] ∧
    Sqlite.readStream storeText twoEventsDb.events counterMain 1 0 = .ok [e₂] ∧
    ((newChainChecker counterMain .zero).feed [e₁, e₂]).2 = none := by
  have hcalls : ∀ c ∈ Sqlite.datedCalls, Sqlite.TimesInRange c :=
    List.forall_mem_cons.mpr ⟨⟨by decide, by decide, by decide⟩,
      List.forall_mem_singleton.mpr ⟨by decide, by decide, by decide⟩⟩
  have hread {v : UInt64} (hv : v.toNat < 2 ^ 63) := @Sqlite.readStream_appendRun storeText 0 Sqlite.datedCalls
    counterMain documented_storeText hcalls (by decide) v 0 hv (by decide)
  have hchain := @Sqlite.chained_appendRun storeText 0 Sqlite.datedCalls counterMain
  have hlog : (Sqlite.ofStream counterMain (Sqlite.appendRun storeText 0 (.empty, []) Sqlite.datedCalls).2).map
      (fun e => (e.version, e.hash.isSome)) = [(1, true), (2, true)] := by
    decide +kernel
  generalize Sqlite.ofStream counterMain _ = log at hread hchain hlog
  obtain ⟨a, b, rfl⟩ := List.length_eq_two.mp (by simpa using congrArg List.length hlog)
  simp only [List.map_cons, List.map_nil, List.cons.injEq, Prod.mk.injEq, and_true] at hlog
  obtain ⟨⟨ha, -⟩, hb, hhash⟩ := hlog
  obtain ⟨c, hfeed, -⟩ : ∃ c, (newChainChecker counterMain .zero).feed _ = (c, none) ∧ _ :=
    ChainChecker.feed_chained hchain (by simp) (by simp [Sqlite.readBack, Envelope.versionNat, ha, hb])
  refine ⟨Sqlite.readBack storeText a, Sqlite.readBack storeText b, ha, hb, hhash, (hread (by decide)).trans ?_,
    (hread (by decide)).trans ?_, congrArg Prod.snd hfeed⟩
  · simp [Sqlite.versionRange, ha, hb]
  · simp [Sqlite.versionRange, ha, hb]

/-- Answers without errors. -/
def calmAnswer {κ : Type} (k : κ) : Answer κ := ⟨⟨0⟩, .zero 16, k, none, true, none⟩

/-- The database answers without errors. -/
def calmStore : Sqlite.StoreChoice := ⟨Sqlite.epochInputs, none⟩

/-- A cache that holds a state for every stream, at the given version. -/
def cachedAt {σ : Type} (v : UInt64) (state : Bytes) (store : σ) : Shared σ :=
  ⟨store, fun _ => some ⟨v, 1, ⟨0⟩, state⟩, []⟩

/-- **Two events, and a wrong state cached**: the states at versions 1 and 2 are found. -/
theorem time_travel_by_version_cached :
    (cachedCounter.loadAsOfVersion counterMain 1).run.atomically
        (execShared (Sqlite.sqliteStore storeText 0)) (calmAnswer calmStore)
        (cachedAt 2 [0, 0, 0] twoEventsDb) = some (cachedAt 2 [0, 0, 0] twoEventsDb, .ok 1) ∧
      (cachedCounter.loadAsOfVersion counterMain 2).run.atomically
        (execShared (Sqlite.sqliteStore storeText 0)) (calmAnswer calmStore)
        (cachedAt 2 [0, 0, 0] twoEventsDb) = some (cachedAt 2 [0, 0, 0] twoEventsDb, .ok 2) := by
  obtain ⟨e₁, e₂, h₁, h₂, -, hread, -, hfeed⟩ := exists_twoEvents
  have hversions : [e₁, e₂].map Envelope.versionNat = [1, 2] := by simp [Envelope.versionNat, h₁, h₂]
  have htravel := time_travel_by_version (R := cachedCounter) 0 hread hversions (fun _ => hfeed)
  have hfirst := (htravel.1 1 [()] (.cons rfl .nil)).mpr (by decide) (cachedAt 2 [0, 0, 0] twoEventsDb)
    (calmAnswer calmStore) rfl rfl
  have hsecond := htravel.2 1 2 _ _ 1 [()] (by decide) le_rfl rfl rfl hfirst (.cons rfl .nil)
  exact ⟨hfirst, hsecond⟩

/-- Two events: a version from 2⁶³ on is beyond the stream, and an error of the store. -/
theorem time_travel_by_version_high_bit :
    (Sqlite.currentStreamVersion twoEventsDb.events counterMain).toOption = some 2 ∧
      (counterRuntime.loadAsOfVersion counterMain 9223372036854775808).run.atomically
        (execShared (Sqlite.sqliteStore storeText 0)) (calmAnswer calmStore)
        ⟨twoEventsDb, fun _ => none, []⟩ = some (⟨twoEventsDb, fun _ => none, []⟩,
          .error (.store (.backend Sqlite.DbError.highBit.text))) :=
  ⟨by decide +kernel, rfl⟩

/-! ## By clock -/

/-- A store whose as-of reads return exactly the events recorded by the time, in version order. -/
def ReadsAsOf (St : EventStore σ κ) (stream : σ → StreamID → List Envelope) : Prop :=
  ∀ k sid t s, sid.Valid → St.readStreamAsOf k sid t s = .ok (Sqlite.recordedBy t (stream s sid))

/-- A load as of a time folds the events recorded by then; nothing else happens. -/
theorem atomically_loadAsOfTime (R : Runtime S C E) {St : EventStore σ κ}
    {stream : σ → StreamID → List Envelope} (hreads : ReadsAsOf St stream) (hsid : sid.Valid) {t : Time}
    (ht : t ≠ .zero) (a : Answer κ) (s : Shared σ) :
    (R.loadAsOfTime sid t).run.atomically (execShared St) a s =
      some (s, (R.foldRead sid 0 (R.decider.initial, 0)
        (.ok (Sqlite.recordedBy t (stream s.store sid)))).map Prod.fst) := by
  rw [R.loadAsOfTime_eq sid ht]
  simp only [Prog.atomically, execShared, hreads a.store sid t s.store hsid, Option.bind_some]

/-- **Time travel by clock is exact and independent of the cache**, unless the time is the zero time.
`LoadAsOfTime` reads as of the time exactly when it is not the zero time. Then, over a store whose as-of
reads are exact and whatever is cached, it returns the fold from the initial state of the events
recorded at or before the time, if they decode (and verify, where the runtime verifies chains); and its
result is the same for every content of the cache, an error included. -/
theorem time_travel_by_clock (R : Runtime S C E) {St : EventStore σ κ}
    {stream : σ → StreamID → List Envelope} (hreads : ReadsAsOf St stream) {sid : StreamID}
    (hsid : sid.Valid) (t : Time) :
    ((∃ k, (R.loadAsOfTime sid t).run = .call (.readStreamAsOf sid t) k) ↔ t ≠ .zero) ∧
    (t ≠ .zero → ∀ (a : Answer κ) (s : Shared σ),
      (∀ evs, Verifies R sid (Sqlite.recordedBy t (stream s.store sid)) →
        DecodesTo R.toModel sid (Sqlite.recordedBy t (stream s.store sid)) evs →
        (R.loadAsOfTime sid t).run.atomically (execShared St) a s = some (s, .ok (R.fold evs))) ∧
      ∀ (a' : Answer κ) (s' : Shared σ), s'.store = s.store →
        ((R.loadAsOfTime sid t).run.atomically (execShared St) a' s').map Prod.snd =
          ((R.loadAsOfTime sid t).run.atomically (execShared St) a s).map Prod.snd) := by
  refine ⟨⟨?_, fun ht => ⟨_, R.loadAsOfTime_eq sid ht⟩⟩, fun ht a s => ⟨?_, ?_⟩⟩
  · rintro ⟨k, hk⟩ rfl
    -- without a bound the first call is for a snapshot or for the whole stream
    rw [R.loadAsOfTime_zero] at hk
    unfold Runtime.load Runtime.seed at hk
    cases hc : R.snapshots with
    | none =>
      rw [hc] at hk
      cases hk
    | some c =>
      rw [hc] at hk
      cases hk
  · intro evs hchain hdecodes
    rw [atomically_loadAsOfTime R hreads hsid ht, foldRead_checked hchain hdecodes,
      if_neg (fun h => absurd h.1 (by decide))]
    rfl
  · intro a' s' hs
    rw [atomically_loadAsOfTime R hreads hsid ht, atomically_loadAsOfTime R hreads hsid ht, hs]
    rfl

/-- A store that only reads: its streams are lists, and its reads are exact. -/
def listStore : EventStore (StreamID → List Envelope) Unit where
  append _ _ s := (s, .error (.backend []))
  readStream _ sid fromVersion toVersion s := .ok (Sqlite.versionRange fromVersion toVersion (s sid))
  readStreamAsOf _ sid asOf s := .ok (Sqlite.recordedBy asOf (s sid))

/-- Streams of two events each, recorded at the epoch and a second after it. -/
def twoEventStreams (sid : StreamID) : List Envelope :=
  [unhashedRow sid 1, { unhashedRow sid 2 with recordedAt := ⟨1000000000⟩ }]

/-- **Between the two events**, and with a wrong state cached, the state after the first is found. -/
theorem time_travel_by_clock_between :
    (cachedCounter.loadAsOfTime counterMain ⟨500000000⟩).run.atomically (execShared listStore)
      (calmAnswer ()) (cachedAt 2 [0, 0, 0] twoEventStreams) =
        some (cachedAt 2 [0, 0, 0] twoEventStreams, .ok 1) := by
  have hreads : ReadsAsOf listStore (fun s sid => s sid) := fun _ _ _ _ _ => rfl
  have hdecodes : DecodesTo cachedCounter.toModel counterMain [unhashedRow counterMain 1] [()] :=
    .cons rfl .nil
  exact ((time_travel_by_clock cachedCounter hreads (by decide) ⟨500000000⟩).2 (by decide) (calmAnswer ())
    (cachedAt 2 [0, 0, 0] twoEventStreams)).1 [()] (fun _ => by decide +kernel) hdecodes

/-- At the zero time there was no event, but the state of today is returned. -/
theorem time_travel_by_clock_zero_time :
    Sqlite.recordedBy .zero (twoEventStreams counterMain) = [] ∧
      (counterRuntime.loadAsOfTime counterMain .zero).run.atomically (execShared listStore)
        (calmAnswer ()) ⟨twoEventStreams, fun _ => none, []⟩ =
          some (⟨twoEventStreams, fun _ => none, []⟩, .ok 2) :=
  ⟨by decide, rfl⟩

end EsLite.Aggregate
