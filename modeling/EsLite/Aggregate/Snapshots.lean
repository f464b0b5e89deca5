import EsLite.Aggregate.Contract
import EsLite.Aggregate.Serial

/-!
# Snapshots are a pure cache

Runtimes over one store and one snapshot cache, which may lose, delay, reorder and forget what it is
given. A snapshot is *right* when its state is folded from the events up to its version (`Right`); every
snapshot that a call saves is right, because it was decided on a load and appended at the version that
was loaded, and it stays right because streams only grow. A load that starts from a right snapshot
returns what a load from the first event returns (`foldRead_seeded`), so the cache changes neither what
is loaded nor what is decided (`snapshots_pure_cache`).
-/

namespace EsLite.Aggregate

open Logic

variable {S C E ι σ κ : Type}

/-! ## The system -/

/-- A store, a cache and the snapshots that were given to the cache so far. -/
structure Shared (σ : Type) where
  store : σ
  cache : Bytes → Option Snapshot
  saved : List (Bytes × Snapshot)

/-- What the environment decides about a call. -/
structure Answer (κ : Type) where
  now : Time
  fresh : UUID
  store : κ
  /-- An error of the cache, or of a caller's own append. -/
  fault : Option Foreign
  /-- Whether a save has reached the cache when it returns. -/
  stores : Bool
  ctx : Option Foreign

/-- An error of the store that a caller's own append returns. -/
def foreignAppend (err : AppendError) : Foreign := ⟨[], err.sentinel.toList, false⟩

/-- The effect of a call. A caller's own append is made in a transaction of the caller that is rolled
back after the call: its result is that of an append, but the store stays as it is. -/
def execShared (St : EventStore σ κ) :
    (o : Op) → Answer κ → Shared σ → Option (Shared σ × Res o)
  | .timeNow, a, s => some (s, a.now)
  | .newV7, a, s => some (s, a.fresh)
  | .readStream sid fromVersion toVersion, a, s =>
    some (s, St.readStream a.store sid fromVersion toVersion s.store)
  | .readStreamAsOf sid asOf, a, s => some (s, St.readStreamAsOf a.store sid asOf s.store)
  | .append p, a, s =>
    some ({ s with store := (St.append a.store p s.store).1 }, (St.append a.store p s.store).2)
  | .appendFunc p, a, s =>
    some (s, match a.fault with
      | some err => .error err
      | none => (St.append a.store p s.store).2.mapError foreignAppend)
  | .loadSnapshot streamID, a, s =>
    some (s, match a.fault with
      | some err => .error err
      | none => .ok (s.cache streamID))
  | .saveSnapshot streamID snap, a, s =>
    some ({ s with
      cache := if a.stores then Function.update s.cache streamID (some snap) else s.cache
      saved := (streamID, snap) :: s.saved }, a.fault)
  | .sleep _, a, s => some (s, a.ctx)

/-- A snapshot that no runtime starts from: it has another fold version or does not decode. -/
def Unusable (R : ι → Runtime S C E) (snap : Snapshot) : Prop :=
  ∀ i c, (R i).snapshots = some c → snap.foldVersion = c.foldVersion →
    ∃ err, c.stateCodec.decode snap.state = .error err

/-- What happens to a cache by itself. -/
inductive CacheStep (R : ι → Runtime S C E) : Type where
  /-- A snapshot that was saved before arrives, now or again. -/
  | deliver (streamID : Bytes) (snap : Snapshot)
  | evict (streamID : Bytes)
  /-- A snapshot is replaced by something that cannot be used. -/
  | corrupt (streamID : Bytes) (snap : Snapshot) (h : Unusable R snap)

/-- The effect of a step of the cache. -/
def cacheStep (R : ι → Runtime S C E) : CacheStep R → Shared σ → Option (Shared σ)
  | .deliver streamID snap, s =>
    if (streamID, snap) ∈ s.saved then
      some { s with cache := Function.update s.cache streamID (some snap) }
    else none
  | .evict streamID, s => some { s with cache := Function.update s.cache streamID none }
  | .corrupt streamID snap _, s =>
    some { s with cache := Function.update s.cache streamID (some snap) }

/-- What is asked of a runtime. -/
inductive Task (C : Type) : Type where
  | load
  /-- `Handle`, or `HandleAt` with the version that it asserts. -/
  | handle (cmd : C) (info : Meta) (expected : Option UInt64) (ho : HandleOptions)

/-- A call on one of the runtimes. -/
structure Request (ι C : Type) where
  runtime : ι
  sid : StreamID
  task : Task C

/-- What a call returns. -/
inductive Reply (S C E : Type) : Type where
  | loaded (r : Except LoadError (S × UInt64))
  | handled (r : Except HandleError (C × Result S E))

/-- Whether the events of a call go through the append of the store. -/
def Request.viaStore (c : Request ι C) : Bool :=
  match c.task with
  | .load => true
  | .handle _ _ _ ho => !ho.append

/-- The program of a call. -/
def Request.program (R : ι → Runtime S C E) (c : Request ι C) : Prog Op Res (Reply S C E) :=
  match c.task with
  | .load => ((R c.runtime).load c.sid 0 .zero).run >>= fun r => .ret (.loaded r)
  | .handle cmd info none ho =>
    ((R c.runtime).handle c.sid cmd info ho).run >>= fun r => .ret (.handled r)
  | .handle cmd info (some expected) ho =>
    ((R c.runtime).handleAt c.sid cmd info expected ho).run >>= fun r => .ret (.handled r)

/-- Runtimes over one store and one cache: any number of their calls, interleaved. -/
def cachedRuntimes (R : ι → Runtime S C E) (St : EventStore σ κ) :
    System (Shared σ) (Request ι C) Op Res (Reply S C E) (Answer κ) (CacheStep R) where
  prog := Request.program R
  exec := execShared St
  env := cacheStep R

/-! ## Folding from the middle of a stream -/

/-- The events that envelopes decode to. -/
abbrev DecodesTo (M : Model S C E) (sid : StreamID) : List Envelope → List E → Prop :=
  List.Forall₂ (fun env ev => decodeEvent M sid env = .ok ev)

variable {sid : StreamID} {acc : S × UInt64} {M : Model S C E} {envs : List Envelope} {s : σ}
  {p : AppendParams} {events : List E} {i : ι} {c : Snapshots S} {version : UInt64} {a : Answer κ}
  {St : EventStore σ κ} {K : St.Contract} {ho : HandleOptions}

/-- The loop of a load decodes every envelope. -/
theorem decodesTo_of_foldEnvelopes {checker : Option ChainChecker} {acc' : S × UInt64}
    (hok : foldEnvelopes M sid checker acc envs = .ok acc') : ∃ evs, DecodesTo M sid envs evs := by
  induction envs generalizing checker acc with
  | nil => exact ⟨[], .nil⟩
  | cons env envs ih =>
    simp only [foldEnvelopes] at hok
    split at hok
    · cases hok
    split at hok
    · cases hok
    rename_i ev hev
    obtain ⟨evs, hevs⟩ := ih hok
    exact ⟨ev :: evs, .cons hev hevs⟩

/-- The loop does not depend on a checker that accepts everything. -/
theorem foldEnvelopes_verified {c : ChainChecker} (h : (c.feed envs).2 = none) :
    foldEnvelopes M sid (some c) acc envs = foldEnvelopes M sid none acc envs := by
  induction envs generalizing c acc with
  | nil => rfl
  | cons env envs ih =>
    obtain ⟨herr, hcheck, hrest⟩ :=
      ChainChecker.feed_cons_eq_none.mp (Prod.ext rfl h : c.feed (env :: envs) = (_, none))
    simp only [foldEnvelopes, checkNext, ChainChecker.next_of_check herr hcheck]
    split
    · rfl
    · exact ih (congrArg Prod.snd hrest)

/-- Envelopes that decode, and then the rest. -/
theorem foldEnvelopes_append {xs ys : List Envelope} {evs : List E} (h : DecodesTo M sid xs evs) :
    foldEnvelopes M sid none acc (xs ++ ys) =
      foldEnvelopes M sid none
        (evs.foldl M.decider.evolve acc.1, (xs.map (·.version)).getLastD acc.2) ys := by
  induction h generalizing acc with
  | nil => rfl
  | cons hev _ ih =>
    simp only [List.cons_append, foldEnvelopes, checkNext, hev]
    rw [ih, List.foldl_cons, List.map_cons, List.getLastD_cons]

/-- Without a version to reach, a load is its loop. -/
theorem foldRead_eq (R : Runtime S C E) {r : Except StoreError (List Envelope)}
    (h : envelopesOf r = .ok envs) :
    R.foldRead sid 0 acc r = foldEnvelopes R.toModel sid
      (if R.verifyChain then some (newChainChecker sid .zero) else none) acc envs := by
  simp only [Runtime.foldRead, h]
  split
  · rename_i hfold
    rw [hfold]
  · rename_i hfold
    rw [hfold, if_neg (fun h => absurd h.1 (by decide))]

/-- A load whose read failed. -/
def ReadFailed (r : Except LoadError (S × UInt64)) : Prop := ∃ err, r = .error (.store err)

theorem not_readFailed_of_ok {r : Except LoadError (S × UInt64)} (h : r = .ok acc) : ¬ ReadFailed r := by
  rintro ⟨err, herr⟩
  rw [h] at herr
  cases herr

/-- A read that fails a load, or its envelopes. -/
theorem envelopesOf_eq_ok (R : Runtime S C E) {r : Except StoreError (List Envelope)}
    (h : ¬ ReadFailed (R.foldRead sid 0 acc r)) : ∃ envs, envelopesOf r = .ok envs := by
  cases henvs : envelopesOf r with
  | ok envs => exact ⟨envs, rfl⟩
  | error err =>
    refine absurd ?_ h
    simp only [Runtime.foldRead, henvs]
    unfold envelopesOf at henvs
    split at henvs
    · cases henvs
    · cases henvs
    · cases henvs
      exact ⟨_, rfl⟩

section Seeds

variable {St : EventStore σ κ} (K : St.Contract)

/-- What a read returns, a stream that is not found included. -/
theorem envelopesOf_readStream {k : κ} {v : UInt64} (hs : K.inv s)
    (h : envelopesOf (St.readStream k sid v 0 s) = .ok envs) :
    sid.Valid ∧ envs = (K.rows s sid).drop v.toNat := by
  unfold envelopesOf at h
  split at h
  · rename_i hread
    cases h
    exact K.read k sid v s _ hs hread
  · rename_i hread
    cases h
    obtain ⟨hvalid, hnil⟩ := K.notFound k sid v s hs hread
    rw [hnil, List.drop_nil]
    exact ⟨hvalid, rfl⟩
  · cases h

/-- **Where a load may start**: the events up to the version decode, and the state is folded from
them. -/
def Seeds (M : Model S C E) (sid : StreamID) (acc : S × UInt64) (s : σ) : Prop :=
  acc.2.toNat ≤ (K.rows s sid).length ∧
    ∃ evs, DecodesTo M sid ((K.rows s sid).take acc.2.toNat) evs ∧ acc.1 = M.fold evs

variable {K}

/-- The first event is a place to start. -/
theorem seeds_initial (M : Model S C E) (sid : StreamID) (s : σ) :
    Seeds K M sid (M.decider.initial, 0) s :=
  ⟨Nat.zero_le _, [], .nil, rfl⟩

/-- Streams only grow, so a place to start stays one. -/
theorem Seeds.mono {t : σ} (h : Seeds K M sid acc s) (hle : K.le s t) : Seeds K M sid acc t := by
  obtain ⟨hlen, evs, hevs, hstate⟩ := h
  obtain ⟨more, hmore⟩ := hle sid
  refine ⟨?_, evs, ?_, hstate⟩
  · rw [← hmore, List.length_append]
    omega
  · rw [← hmore, List.take_append_of_le_length hlen]
    exact hevs

/-- The version of the last of the first `n` events. -/
theorem getLastD_take (hs : K.inv s) {v : UInt64} (hlen : v.toNat ≤ (K.rows s sid).length) :
    (((K.rows s sid).take v.toNat).map (·.version)).getLastD 0 = v := by
  have hversions : (((K.rows s sid).take v.toNat).map (·.version)).map (·.toNat) =
      List.range' 1 v.toNat := by
    rw [List.map_map, List.map_take]
    show ((K.rows s sid).map Envelope.versionNat).take v.toNat = _
    rw [K.versions s sid hs, List.take_range'_of_length_ge hlen]
  exact UInt64.toNat_inj.mp (getLastD_versions hversions)

/-- The chain of a stream that is read is intact. -/
theorem feed_rows (hs : K.inv s) {k : κ}
    (h : envelopesOf (St.readStream k sid 0 0 s) = .ok (K.rows s sid)) :
    ((newChainChecker sid .zero).feed (K.rows s sid)).2 = none := by
  unfold envelopesOf at h
  split at h
  · rename_i hread
    rw [Except.ok.inj h] at hread
    exact K.verified k sid s _ hs hread
  · rw [← Except.ok.inj h]
    rfl
  · cases h

/-- The chain of the rest of a stream is intact if that of the whole stream is. -/
theorem feed_drop (hs : K.inv s) {v : Nat}
    (h : ((newChainChecker sid .zero).feed (K.rows s sid)).2 = none) :
    ((newChainChecker sid .zero).feed ((K.rows s sid).drop v)).2 = none := by
  cases v with
  | zero => exact h
  | succ n =>
    rw [← List.take_append_drop (n + 1) (K.rows s sid)] at h
    refine ChainChecker.feed_fresh h (fun e he => ?_)
    have hmem : e.versionNat ∈ ((K.rows s sid).map Envelope.versionNat).drop (n + 1) := by
      rw [← List.map_drop]
      exact List.mem_map_of_mem he
    rw [K.versions s sid hs, List.drop_range', List.mem_range'_1] at hmem
    omega

/-- **A load from the middle of a stream** returns what a load from its first event returns, unless one
of the two reads fails. -/
theorem foldRead_seeded (R : Runtime S C E) (hs : K.inv s)
    (hseed : sid.Valid → Seeds K R.toModel sid acc s) {k k' : κ}
    (h : ¬ ReadFailed (R.foldRead sid 0 acc (St.readStream k sid acc.2 0 s)))
    (h' : ¬ ReadFailed (R.foldRead sid 0 (R.decider.initial, 0) (St.readStream k' sid 0 0 s))) :
    R.foldRead sid 0 acc (St.readStream k sid acc.2 0 s) =
      R.foldRead sid 0 (R.decider.initial, 0) (St.readStream k' sid 0 0 s) := by
  obtain ⟨rest, hrest⟩ := envelopesOf_eq_ok R h
  obtain ⟨whole, hwhole⟩ := envelopesOf_eq_ok R h'
  rw [foldRead_eq R hrest, foldRead_eq R hwhole]
  obtain ⟨hvalid, rfl⟩ := envelopesOf_readStream K hs hrest
  obtain ⟨-, rfl⟩ := envelopesOf_readStream K hs hwhole
  obtain ⟨hlen, evs, hevs, hstate⟩ := hseed hvalid
  rw [show (0 : UInt64).toNat = 0 from rfl, List.drop_zero] at hwhole ⊢
  have hchain := feed_rows hs hwhole
  -- the checker accepts both, and the state after the events before the seed is the seed
  have hfold : foldEnvelopes R.toModel sid none acc ((K.rows s sid).drop acc.2.toNat) =
      foldEnvelopes R.toModel sid none (R.decider.initial, 0) (K.rows s sid) := by
    conv_rhs => rw [← List.take_append_drop acc.2.toNat (K.rows s sid)]
    rw [foldEnvelopes_append hevs, getLastD_take hs hlen]
    exact congrArg (fun x => foldEnvelopes R.toModel sid none x _) (Prod.ext hstate rfl)
  cases R.verifyChain with
  | false => exact hfold
  | true =>
    rw [if_pos rfl, foldEnvelopes_verified hchain, foldEnvelopes_verified (feed_drop hs hchain)]
    exact hfold

/-- **A load ends** at a place to start, which is the end of the stream. -/
theorem seeds_foldRead (R : Runtime S C E) (hs : K.inv s) {acc' : S × UInt64}
    (hseed : sid.Valid → Seeds K R.toModel sid acc s) {k : κ}
    (hok : R.foldRead sid 0 acc (St.readStream k sid acc.2 0 s) = .ok acc') :
    sid.Valid ∧ Seeds K R.toModel sid acc' s ∧ acc'.2.toNat = (K.rows s sid).length := by
  obtain ⟨rest, hrest⟩ := envelopesOf_eq_ok R (not_readFailed_of_ok hok)
  rw [foldRead_eq R hrest] at hok
  obtain ⟨hvalid, rfl⟩ := envelopesOf_readStream K hs hrest
  obtain ⟨hlen, evs, hevs, hstate⟩ := hseed hvalid
  obtain ⟨more, hmore⟩ := decodesTo_of_foldEnvelopes hok
  have hall : DecodesTo R.toModel sid (K.rows s sid) (evs ++ more) := by
    rw [← List.take_append_drop acc.2.toNat (K.rows s sid)]
    exact List.rel_append hevs hmore
  obtain rfl := foldEnvelopes_eq_ok hmore hok
  have hversion : ((((K.rows s sid).drop acc.2.toNat).map (·.version)).getLastD acc.2).toNat =
      (K.rows s sid).length := by
    have hlast : ((K.rows s sid).map (·.version)).getLastD 0 =
        (((K.rows s sid).drop acc.2.toNat).map (·.version)).getLastD acc.2 := by
      conv_lhs => rw [← List.take_append_drop acc.2.toNat (K.rows s sid), List.map_append]
      rw [List.getLastD_eq_getLast?, List.getLast?_append, Option.getD_or,
        ← List.getLastD_eq_getLast?, ← List.getLastD_eq_getLast?, getLastD_take hs hlen]
    rw [← hlast]
    exact getLastD_versions (by
      rw [List.map_map]
      exact K.versions s sid hs)
  refine ⟨hvalid, ⟨hversion.le, evs ++ more, ?_, ?_⟩, hversion⟩
  · rw [hversion, List.take_length]
    exact hall
  · rw [hstate, Model.fold, Model.fold, List.foldl_append]

/-- **What an append stores** decodes to the events that were encoded. -/
theorem decodesTo_appended (hcodec : RoundTrips M) {datas : List EventData} {new : List Envelope}
    (hencoded : new.map Sqlite.encodedOf = datas.map Sqlite.encodedData)
    (hevents : List.Forall₂ (fun d ev => EncodedAs M (Sqlite.encodedData d) ev) datas events) :
    DecodesTo M sid new events := by
  have hdatas := hencoded.symm
  rw [← List.forall₂_eq_eq_eq, List.forall₂_map_left_iff, List.forall₂_map_right_iff] at hdatas
  refine forall₂_of_common (fun d e ev hde hd => decodeEvent_eq_ok hcodec ?_ _) hdatas hevents
  rw [← hde]
  exact hd

/-- **An append** at the version of a place to start leads to the next one: the state that was folded
forward with the events themselves is folded from the events as they are stored. -/
theorem seeds_append (hcodec : RoundTrips M) {s' : σ} {v : UInt64} (hseed : Seeds K M p.streamID acc s)
    (hexpected : p.expectedVersion = acc.2)
    (hevents : List.Forall₂ (fun d ev => EncodedAs M (Sqlite.encodedData d) ev) p.events events)
    (happends : EventStore.Appends p (K.rows s) (K.rows s'))
    (hv : v.toNat = p.expectedVersion.toNat + p.events.length) :
    Seeds K M p.streamID (events.foldl M.decider.evolve acc.1, v) s' := by
  rw [hexpected] at hv
  by_cases hnil : p.events = []
  · -- nothing but claims: the version stays
    rw [hnil] at hevents hv
    cases hevents
    obtain rfl : v = acc.2 := UInt64.toNat_inj.mp hv
    exact hseed.mono happends.le
  obtain ⟨hlen, evs, hevs, hstate⟩ := hseed
  obtain ⟨new, hnew, hencoded⟩ := happends.grows
  have hfull : (K.rows s p.streamID).length = acc.2.toNat := by
    rw [happends.expected hnil, hexpected]
  rw [← hfull, List.take_length] at hevs
  have hdecodes : DecodesTo M p.streamID new events := decodesTo_appended hcodec hencoded hevents
  have hcount : new.length = p.events.length := by
    rw [hdecodes.length_eq, hevents.length_eq]
  have hlen' : (K.rows s' p.streamID).length = v.toNat := by
    rw [hnew, List.length_append, hfull, hcount, hv]
  refine ⟨hlen'.ge, evs ++ events, ?_, ?_⟩
  · show DecodesTo M p.streamID ((K.rows s' p.streamID).take v.toNat) _
    rw [← hlen', List.take_length, hnew]
    exact List.rel_append hevs hdecodes
  · rw [hstate, Model.fold, Model.fold, List.foldl_append]

end Seeds

/-! ## Right snapshots -/

/-- **The same fold version is the same fold.** Runtimes that share a fold version have the same
decider, and read events and states alike. -/
def SameFold (R : ι → Runtime S C E) : Prop :=
  ∀ i j c d, (R i).snapshots = some c → (R j).snapshots = some d → c.foldVersion = d.foldVersion →
    (R i).decider = (R j).decider ∧
      (∀ sid env, decodeEvent (R i).toModel sid env = decodeEvent (R j).toModel sid env) ∧
      c.stateCodec.decode = d.stateCodec.decode

/-- Decoding a state undoes encoding it. -/
def StatesRoundTrip (R : ι → Runtime S C E) : Prop :=
  ∀ i c state b, (R i).snapshots = some c → c.stateCodec.encode state = .ok b →
    c.stateCodec.decode b = .ok state

section Right

variable {St : EventStore σ κ} (K : St.Contract) (R : ι → Runtime S C E)

/-- **A right snapshot**: every runtime that starts from it starts at a place to start. -/
def Right (streamID : Bytes) (snap : Snapshot) (s : σ) : Prop :=
  ∀ i c state sid, (R i).snapshots = some c → snap.foldVersion = c.foldVersion →
    c.stateCodec.decode snap.state = .ok state → sid.Valid → sid.canonical = streamID →
    Seeds K (R i).toModel sid (state, snap.version) s

variable {K R}

theorem Right.mono {streamID : Bytes} {snap : Snapshot} {t : σ} (h : Right K R streamID snap s)
    (hle : K.le s t) : Right K R streamID snap t :=
  fun i c state sid hc hfold hdecode hvalid hid =>
    (h i c state sid hc hfold hdecode hvalid hid).mono hle

/-- A snapshot that no runtime starts from is right. -/
theorem Unusable.right {snap : Snapshot} (h : Unusable R snap) (streamID : Bytes) (s : σ) :
    Right K R streamID snap s := by
  intro i c state sid hc hfold hdecode
  obtain ⟨err, herr⟩ := h i c hc hfold
  rw [herr] at hdecode
  cases hdecode

/-- **What a call saves is right**, if it is a place to start for its own runtime. -/
theorem right_of_seeds (hsame : SameFold R) (hstates : StatesRoundTrip R) (hc : (R i).snapshots = some c)
    {state : S} {now : Time} {b : Bytes} (hencode : c.stateCodec.encode state = .ok b)
    (hvalid : sid.Valid) (hseed : Seeds K (R i).toModel sid (state, version) s) :
    Right K R sid.canonical ⟨version, c.foldVersion, now, b⟩ s := by
  intro j d state' sid' hd hfold hdecode hvalid' hid
  obtain rfl := canonical_inj hvalid' hvalid hid
  obtain ⟨hdecider, hevents, hcodec⟩ := hsame i j c d hc hd hfold
  have hstate : c.stateCodec.decode b = .ok state := hstates i c state b hc hencode
  rw [hcodec] at hstate
  cases hstate.symm.trans hdecode
  obtain ⟨hlen, evs, hevs, hfolded⟩ := hseed
  refine ⟨hlen, evs, hevs.imp (fun env ev hev => ?_), ?_⟩
  · rw [← hevents]
    exact hev
  · rw [Model.fold, ← hdecider]
    exact hfolded

/-- **A load starts** at a place to start, whatever the cache returns. -/
theorem seeds_seed (hc : (R i).snapshots = some c) {r : Except Foreign (Option Snapshot)}
    (hright : ∀ snap, r = .ok (some snap) → Right K R sid.canonical snap s) (hvalid : sid.Valid) :
    Seeds K (R i).toModel sid (c.seed (R i).decider.initial r) s := by
  unfold Snapshots.seed
  split
  · rename_i snap
    split
    · rename_i hfold
      split
      · rename_i state hdecode
        exact hright snap rfl i c state sid hc hfold hdecode hvalid rfl
      · exact seeds_initial _ sid s
    · exact seeds_initial _ sid s
  · exact seeds_initial _ sid s

/-- **What a right cache returns** is a place to start, and so is its failure. -/
theorem seeds_loaded (hc : (R i).snapshots = some c) {s s' : Shared σ}
    {r : Res (.loadSnapshot sid.canonical)}
    (hcache : ∀ streamID snap, s.cache streamID = some snap → Right K R streamID snap s.store)
    (hex : execShared St (.loadSnapshot sid.canonical) a s = some (s', r)) (hvalid : sid.Valid) :
    Seeds K (R i).toModel sid (c.seed (R i).decider.initial r) s.store := by
  cases hex
  refine seeds_seed hc (fun snap hsnap => hcache _ snap ?_) hvalid
  split at hsnap
  · cases hsnap
  · exact Except.ok.inj hsnap

end Right

/-! ## Every snapshot is right -/

/-- Without a cache a load is one read. -/
theorem load_uncached {R : Runtime S C E} (hc : R.snapshots = none) (sid : StreamID) :
    (R.load sid 0 .zero).run = .call (.readStream sid 0 0) (fun r =>
      .ret (R.foldRead sid 0 (R.decider.initial, 0) r)) := by
  unfold Runtime.load Runtime.seed
  rw [hc]
  rfl

/-- With a cache a load looks for a snapshot first. -/
theorem load_cached {R : Runtime S C E} (hc : R.snapshots = some c) (sid : StreamID) :
    (R.load sid 0 .zero).run = .call (.loadSnapshot sid.canonical) (fun snap =>
      .call (.readStream sid (c.seed R.decider.initial snap).2 0) (fun r =>
        .ret (R.foldRead sid 0 (c.seed R.decider.initial snap) r))) := by
  unfold Runtime.load Runtime.seed
  rw [hc]
  rfl

/-- The snapshots in the cache, and those that may still reach it, are right. -/
structure RightCache {St : EventStore σ κ} (K : St.Contract) (R : ι → Runtime S C E) (s : Shared σ) :
    Prop where
  store : K.inv s.store
  cache : ∀ streamID snap, s.cache streamID = some snap → Right K R streamID snap s.store
  saved : ∀ x ∈ s.saved, Right K R x.1 x.2 s.store

/-- An empty cache is right. -/
theorem rightCache_empty (R : ι → Runtime S C E) (hs : K.inv s) :
    RightCache K R ⟨s, fun _ => none, []⟩ where
  store := hs
  cache _ _ h := nomatch h
  saved _ h := nomatch h

/-- One entry of a cache changes, to something that is as the entries of the cache are. -/
theorem cached_update {Good : Bytes → Snapshot → Prop} {cache : Bytes → Option Snapshot}
    {streamID : Bytes} {x : Option Snapshot} (hcache : ∀ id snap, cache id = some snap → Good id snap)
    (hx : ∀ snap, x = some snap → Good streamID snap) (id : Bytes) (snap : Snapshot)
    (h : Function.update cache streamID x id = some snap) : Good id snap := by
  by_cases hid : id = streamID
  · subst hid
    rw [Function.update_self] at h
    exact hx snap h
  · rw [Function.update_of_ne hid] at h
    exact hcache id snap h

/-- What the calls rely on: snapshots are right, and streams only grow. -/
def cacheLogic {St : EventStore σ κ} (K : St.Contract) (R : ι → Runtime S C E) :
    Logic (Shared σ) Op where
  inv := RightCache K R
  le s t := K.le s.store t.store
  allowed _ _ := True
  refl _ _ := List.prefix_rfl
  trans _ _ _ h h' sid := (h sid).trans (h' sid)

/-- The calls that change neither the store nor the cache. -/
def Op.Quiet : Op → Prop
  | .append _ | .saveSnapshot .. => False
  | _ => True

theorem execShared_quiet {o : Op} (ho : o.Quiet) {s s' : Shared σ} {r : Res o}
    (h : execShared St o a s = some (s', r)) : s' = s := by
  cases o with
  | append p => exact ho.elim
  | saveSnapshot streamID snap => exact ho.elim
  | _ =>
    cases h
    rfl

/-- What a caller's own append returns is what the store's would. -/
theorem execShared_appendFunc_ok {s s' : Shared σ} {res : AppendResult}
    (h : execShared St (.appendFunc p) a s = some (s', .ok res)) :
    (St.append a.store p s.store).2 = .ok res := by
  obtain ⟨-, h⟩ := Prod.mk.inj (Option.some.inj h)
  split at h
  · cases h
  cases hres : (St.append a.store p s.store).2 with
  | error err =>
    rw [hres] at h
    cases h
  | ok res' =>
    rw [hres] at h
    rw [show res' = res from Except.ok.inj h]

/-- Filling in the ids changes neither the store nor the cache. -/
theorem issues_fillMeta (m : Meta) : Prog.Issues Op.Quiet (Runtime.fillMeta m).run := by
  unfold Runtime.fillMeta
  dsimp only
  split
  · exact ⟨trivial, fun _ => trivial⟩
  · exact trivial

section Calls

variable {Env : Type} {St : EventStore σ κ} {K : St.Contract} {R : ι → Runtime S C E}
  {T : System (Shared σ) (Request ι C) Op Res (Reply S C E) (Answer κ) Env}
  (hexec : ∀ o a s x, T.exec o a s = some x → execShared St o a s = some x)

include hexec

theorem keeps_quiet : (cacheLogic K R).Keeps T Op.Quiet := by
  intro o ho s hs _ a s' r hex
  obtain rfl := execShared_quiet ho (hexec o a s _ hex)
  exact ⟨hs, (cacheLogic K R).refl s'⟩

variable {s : Shared σ}

/-- The read of a load, from a place to start. -/
theorem wp_read (hseed : sid.Valid → Seeds K (R i).toModel sid acc s.store) :
    (cacheLogic K R).WP T
      (OnOk fun acc s => sid.Valid ∧ Seeds K (R i).toModel sid acc s.store)
      (.call (.readStream sid acc.2 0) (fun r => .ret ((R i).foldRead sid 0 acc r))) s := by
  refine WP.call (fun t hle hinv _ a t' r hex => ?_)
  cases hexec _ _ _ _ hex
  refine ⟨hinv, (cacheLogic K R).refl t, WP.ret (fun u hu _ => ?_)⟩
  cases hfold : (R i).foldRead sid 0 acc (St.readStream a.store sid acc.2 0 t.store) with
  | error err => trivial
  | ok acc' =>
    obtain ⟨hvalid, hseed', -⟩ :=
      seeds_foldRead (R i) hinv.store (fun hvalid => (hseed hvalid).mono hle) hfold
    exact ⟨hvalid, hseed'.mono hu⟩

/-- **A load** ends at a place to start. -/
theorem wp_load (i : ι) (sid : StreamID) (s : Shared σ) :
    (cacheLogic K R).WP T
      (OnOk fun acc s => sid.Valid ∧ Seeds K (R i).toModel sid acc s.store)
      ((R i).load sid 0 .zero).run s := by
  cases hc : (R i).snapshots with
  | none =>
    rw [load_uncached hc]
    exact wp_read hexec (fun _ => seeds_initial _ sid s.store)
  | some c =>
    rw [load_cached hc]
    refine WP.call (fun t hle hinv _ a t' snap hex => ?_)
    have hloaded := hexec _ _ _ _ hex
    obtain rfl : t = t' := (Prod.mk.inj (Option.some.inj hloaded)).1
    exact ⟨hinv, (cacheLogic K R).refl t, wp_read hexec (seeds_loaded hc hinv.cache hloaded)⟩

/-- **A save** puts a right snapshot into the cache. -/
theorem wp_saveSnapshot (hsame : SameFold R) (hstates : StatesRoundTrip R) {state : S}
    (hvalid : sid.Valid) (hseed : Seeds K (R i).toModel sid (state, version) s.store) :
    (cacheLogic K R).WP T (fun _ _ => True) ((R i).saveSnapshot sid state version).run s := by
  unfold Runtime.saveSnapshot
  cases hc : (R i).snapshots with
  | none => exact fun _ _ _ => trivial
  | some c =>
    dsimp only
    cases hencode : c.stateCodec.encode state with
    | error err => exact fun _ _ _ => trivial
    | ok b =>
      refine WP.call (fun t hle hinv _ a t' now hex => ?_)
      cases hexec _ _ _ _ hex
      refine ⟨hinv, (cacheLogic K R).refl t, WP.call (fun u hle' hinv' _ a' u' r hex' => ?_)⟩
      cases hexec _ _ _ _ hex'
      have hright : Right K R sid.canonical ⟨version, c.foldVersion, a.now, b⟩ u.store :=
        right_of_seeds hsame hstates hc hencode hvalid
          ((hseed.mono hle).mono hle')
      refine ⟨⟨hinv'.store, fun streamID snap hsnap => ?_, ?_⟩, (cacheLogic K R).refl u,
        fun _ _ _ => trivial⟩
      · dsimp only at hsnap
        split at hsnap
        · refine cached_update hinv'.cache (fun snap hsnap => ?_) streamID snap hsnap
          rw [← Option.some.inj hsnap]
          exact hright
        · exact hinv'.cache streamID snap hsnap
      · exact List.forall_mem_cons.mpr ⟨hright, hinv'.saved⟩

/-- **The retry loop** keeps what each attempt keeps. -/
theorem wp_attempts {once : Act HandleError (Result S E)}
    (honce : ∀ s, (cacheLogic K R).WP T (OnOk fun _ _ => True) once.run s)
    (attempt left : Nat) (s : Shared σ) :
    (cacheLogic K R).WP T (OnOk fun _ _ => True) (Runtime.attempts once attempt left) s := by
  induction left generalizing attempt s with
  | zero =>
    refine WP.bind (honce s) (fun r t _ _ _ => ?_)
    cases r <;> exact fun _ _ _ => trivial
  | succ left ih =>
    refine WP.bind (honce s) (fun r t _ _ _ => ?_)
    cases r with
    | ok res => exact fun _ _ _ => trivial
    | error err =>
      dsimp only
      split
      · refine WP.call (fun u _ hinv _ a u' x hex => ?_)
        cases hexec _ _ _ _ hex
        refine ⟨hinv, (cacheLogic K R).refl u, ?_⟩
        cases a.ctx with
        | some x => exact fun _ _ _ => trivial
        | none => exact ih (attempt + 1) u
      · exact fun _ _ _ => trivial

section Handling

variable (hsame : SameFold R) (hstates : StatesRoundTrip R) (hcodec : RoundTrips (R i).toModel)
  (hown : ho.append = true → ∀ p a s s' res, T.exec (.appendFunc p) a s = some (s', .ok res) → p.events = [])

include hcodec hown

/-- **The append** of a decision on a load, through the store or by a function of the caller that
appends no events, leads to the next place to start. -/
theorem wp_appendFn
    (hseed : Seeds K (R i).toModel p.streamID acc s.store) (hexpected : p.expectedVersion = acc.2)
    (hevents : List.Forall₂ (fun d ev => EncodedAs (R i).toModel (Sqlite.encodedData d) ev)
      p.events events) :
    (cacheLogic K R).WP T
      (OnOk fun res s => Seeds K (R i).toModel p.streamID
        (events.foldl (R i).decider.evolve acc.1, res.toVersion) s.store)
      (Runtime.appendFn ho p).run s := by
  unfold Runtime.appendFn
  cases happend : ho.append with
  | false =>
    refine WP.call (fun t hle hinv _ a t' r hex => ?_)
    cases hexec _ _ _ _ hex
    have hgrows : K.le t.store (St.append a.store p t.store).1 := K.le_append a.store p hinv.store
    refine ⟨⟨K.append_inv a.store p t.store hinv.store,
      fun streamID snap hsnap => (hinv.cache streamID snap hsnap).mono hgrows,
      fun x hx => (hinv.saved x hx).mono hgrows⟩, hgrows, WP.ret (fun u hu _ => ?_)⟩
    cases hres : (St.append a.store p t.store).2 with
    | error err => trivial
    | ok res =>
      obtain ⟨happends, hversion⟩ := K.append_ok a.store p t.store res hinv.store hres
      exact (seeds_append hcodec (hseed.mono hle) hexpected hevents happends hversion).mono hu
  | true =>
    refine WP.call (fun t hle hinv _ a t' r hex => ?_)
    obtain rfl := execShared_quiet (o := .appendFunc p) trivial (hexec _ _ _ _ hex)
    refine ⟨hinv, (cacheLogic K R).refl t', WP.ret (fun u hu _ => ?_)⟩
    cases r with
    | error err => trivial
    | ok res =>
      have hres := execShared_appendFunc_ok (hexec _ _ _ _ hex)
      have hnil := hown happend p a t' t' res hex
      obtain ⟨-, hversion⟩ := K.append_ok a.store p t'.store res hinv.store hres
      exact (seeds_append hcodec (hseed.mono hle) hexpected hevents (.of_nil hnil _) hversion).mono hu

include hsame hstates

/-- Append what was decided, and save the new state. -/
theorem wp_commit {cmd : C} {m : Meta}
    {occurredAt : Time} {expected : UInt64} {state : S} {d : Runtime.Decision E} (hvalid : sid.Valid)
    (hdecision : (R i).decideOn sid cmd expected state version = .ok d)
    (hseed : Seeds K (R i).toModel sid (state, version) s.store) :
    (cacheLogic K R).WP T (OnOk fun _ _ => True)
      ((R i).commit sid m occurredAt ho state version d).run s := by
  obtain ⟨-, ⟨rfl, -⟩ | ⟨events, encoded, constraints, rfl, -, hencode⟩⟩ := decideOn_eq_ok hdecision
  · exact fun _ _ _ => trivial
  unfold Runtime.commit
  refine WP.andThen (wp_appendFn hexec hcodec hown hseed rfl
    (encodeEvents_eq_ok hencode)) (fun res t ht hi hseed' => ?_)
  refine WP.andThen (R := fun _ _ => True) ?_ (fun _ _ _ _ _ => fun _ _ _ => trivial)
  refine (wp_saveSnapshot hexec hsame hstates hvalid (hseed' t ((cacheLogic K R).refl t) hi)).weaken
    (fun r _ _ _ _ => ?_)
  cases r <;> trivial

/-- **One pass** keeps the snapshots right. -/
theorem wp_handleOnce (sid : StreamID) (cmd : C)
    (m : Meta) (occurredAt : Time) (expected : UInt64) (s : Shared σ) :
    (cacheLogic K R).WP T (OnOk fun _ _ => True)
      ((R i).handleOnce sid cmd m occurredAt expected ho).run s := by
  unfold Runtime.handleOnce
  refine WP.andThen (R := fun acc s => sid.Valid ∧ Seeds K (R i).toModel sid acc s.store) ?_
    (fun acc t ht hi hseed => ?_)
  · refine WP.map ((wp_load hexec i sid s).weaken (fun r t _ _ hr => ?_))
    cases r with
    | ok acc => exact hr
    | error err => trivial
  obtain ⟨state, version⟩ := acc
  change (cacheLogic K R).WP T _ (Prog.ofResult ((R i).decideOn sid cmd expected state version) >>=
    (R i).commit sid m occurredAt ho state version).run t
  cases hdecision : (R i).decideOn sid cmd expected state version with
  | error err => exact fun _ _ _ => trivial
  | ok d =>
    obtain ⟨hvalid, hseed⟩ := hseed t ((cacheLogic K R).refl t) hi
    exact wp_commit hexec hsame hstates hcodec hown hvalid hdecision hseed

/-- **A call of a handler** keeps the snapshots right. -/
theorem wp_handleAt (sid : StreamID) (cmd : C) (m : Meta) (expected : UInt64) (s : Shared σ) :
    (cacheLogic K R).WP T (OnOk fun _ _ => True) ((R i).handleAt sid cmd m expected ho).run s := by
  have hquiet : (cacheLogic K R).Keeps T Op.Quiet := keeps_quiet hexec
  unfold Runtime.handleAt
  refine WP.issues_then hquiet (Prog.issues_perform trivial) (fun now t _ _ => ?_)
  refine WP.issues_then hquiet (p := Prog.ofResult _) trivial (fun cmd' t _ _ => ?_)
  refine WP.issues_then hquiet (issues_fillMeta m) (fun m' t _ _ => ?_)
  refine WP.andThen (R := fun _ _ => True) (wp_attempts hexec (fun u => ?_) 0 (R i).retries t)
    (fun _ _ _ _ _ => fun _ _ _ => trivial)
  exact wp_handleOnce hexec hsame hstates hcodec hown sid cmd' m' now expected u

end Handling

/-- **Every call** keeps the snapshots right, unless a caller appends events by a function of their
own. -/
theorem wp_program (hsame : SameFold R) (hstates : StatesRoundTrip R)
    (hcodec : ∀ i, RoundTrips (R i).toModel) (c : Request ι C)
    (hown : c.viaStore = false → ∀ p a s s' res,
      T.exec (.appendFunc p) a s = some (s', .ok res) → p.events = []) (s : Shared σ) :
    (cacheLogic K R).WP T (fun _ _ => True) (c.program R) s := by
  obtain ⟨i, sid, task⟩ := c
  have hhandle : ∀ cmd info expected ho, task = .handle cmd info expected ho → ∀ v,
      (cacheLogic K R).WP T (fun _ _ => True)
        (((R i).handleAt sid cmd info v ho).run >>= fun r => .ret (Reply.handled r)) s := by
    rintro cmd info expected ho rfl v
    refine WP.bind (wp_handleAt hexec hsame hstates (hcodec i) (fun happend => hown ?_) sid cmd info v s)
      (fun _ _ _ _ _ => fun _ _ _ => trivial)
    show (!ho.append) = false
    rw [happend]
    rfl
  cases task with
  | load => exact WP.bind (wp_load hexec i sid s) (fun _ _ _ _ _ => fun _ _ _ => trivial)
  | handle cmd info expected ho =>
    cases expected with
    | none => exact hhandle cmd info none ho rfl 0
    | some v => exact hhandle cmd info (some v) ho rfl v

end Calls

/-- A cache only loses, repeats and spoils snapshots. -/
theorem right_cacheStep {R : ι → Runtime S C E} (e : CacheStep R) {s s' : Shared σ}
    (hs : RightCache K R s) (h : cacheStep R e s = some s') :
    RightCache K R s' ∧ K.le s.store s'.store := by
  cases e with
  | deliver streamID snap =>
    simp only [cacheStep] at h
    split at h
    · rename_i hmem
      cases h
      refine ⟨⟨hs.store, cached_update hs.cache (fun x hx => ?_), hs.saved⟩,
        (cacheLogic K R).refl s⟩
      rw [← Option.some.inj hx]
      exact hs.saved _ hmem
    · cases h
  | evict streamID =>
    cases h
    exact ⟨⟨hs.store, cached_update hs.cache (fun x hx => by cases hx), hs.saved⟩,
      (cacheLogic K R).refl s⟩
  | corrupt streamID snap hunusable =>
    cases h
    refine ⟨⟨hs.store, cached_update hs.cache (fun x hx => ?_), hs.saved⟩, (cacheLogic K R).refl s⟩
    rw [← Option.some.inj hx]
    exact hunusable.right streamID s.store

/-- Only calls whose events go through the append of the store are issued. -/
def ViaStore {Env : Type} :
    Pool (Shared σ) (Request ι C) Op Res (Reply S C E) →
      PoolAction (Request ι C) (Answer κ) Env → Prop :=
  System.Allows (fun c _ => c.viaStore = true) (fun _ _ => True)

instance {Env : Type} (P : Pool (Shared σ) (Request ι C) Op Res (Reply S C E))
    (a : PoolAction (Request ι C) (Answer κ) Env) : Decidable (ViaStore P a) :=
  inferInstanceAs (Decidable (System.Allows (fun c _ => c.viaStore = true) (fun _ _ => True) P a))

/-- **Every snapshot of every run is right.** -/
theorem right_run {R : ι → Runtime S C E} (hsame : SameFold R) (hstates : StatesRoundTrip R)
    (hcodec : ∀ i, RoundTrips (R i).toModel)
    {as : List (PoolAction (Request ι C) (Answer κ) (CacheStep R))}
    {P P' : Pool (Shared σ) (Request ι C) Op Res (Reply S C E)}
    (hrun : GuardedRun (cachedRuntimes R St).step ViaStore P as P')
    (hP : (cacheLogic K R).Sound (cachedRuntimes R St) (fun _ _ _ => True) P) :
    (cacheLogic K R).Sound (cachedRuntimes R St) (fun _ _ _ => True) P' ∧
      K.le P.shared.store P'.shared.store := by
  refine run_sound (fun e s s' hs h => right_cacheStep e hs h) (fun c s _ hc => ?_) hrun hP
  refine wp_program (fun _ _ _ _ h => h) hsame hstates hcodec c (fun hown => ?_) s
  rw [hc] at hown
  cases hown

/-! ## The cache changes nothing -/

namespace Runtime

variable (R : Runtime S C E)

/-- The runtime without its cache. -/
def uncached : Runtime S C E := { R with snapshots := none }

/-- What a pass does with the result of its load. -/
def onLoaded (sid : StreamID) (cmd : C) (m : Meta) (occurredAt : Time) (expected : UInt64)
    (ho : HandleOptions) : Except LoadError (S × UInt64) →
      Prog Op Res (Except HandleError (Result S E))
  | .error err => .ret (.error (.load err))
  | .ok acc => (Prog.ofResult (R.decideOn sid cmd expected acc.1 acc.2) >>=
      R.commit sid m occurredAt ho acc.1 acc.2).run

/-- A pass is a load and what is done with its result. -/
theorem run_handleOnce (sid : StreamID) (cmd : C) (m : Meta) (occurredAt : Time) (expected : UInt64)
    (ho : HandleOptions) : (R.handleOnce sid cmd m occurredAt expected ho).run =
      (R.load sid 0 .zero).run >>= R.onLoaded sid cmd m occurredAt expected ho := by
  unfold handleOnce
  show ((R.load sid 0 .zero).run >>= fun r => Prog.ret (r.mapError HandleError.load)) >>=
    ExceptT.bindCont _ = _
  rw [Prog.bind_assoc]
  congr 1
  funext r
  cases r <;> rfl

/-- **The decision** does not depend on whether there is a cache: the same result is returned, or the
same append is made. -/
theorem move_onLoaded (sid : StreamID) (cmd : C) (m : Meta) (occurredAt : Time) (expected : UInt64)
    (ho : HandleOptions) (r : Except LoadError (S × UInt64)) :
    (R.onLoaded sid cmd m occurredAt expected ho r).move =
      (R.uncached.onLoaded sid cmd m occurredAt expected ho r).move := by
  cases r with
  | error err => rfl
  | ok acc =>
    have hdecide : R.uncached.decideOn sid cmd expected acc.1 acc.2 =
        R.decideOn sid cmd expected acc.1 acc.2 := rfl
    simp only [onLoaded, hdecide]
    cases R.decideOn sid cmd expected acc.1 acc.2 with
    | error err => rfl
    | ok d =>
      cases d with
      | noop => rfl
      | append events encoded constraints =>
        obtain ⟨append⟩ := ho
        cases append <;> rfl

end Runtime

/-- **Snapshots are a pure cache.** Take any number of runtimes over one store, which keeps the contract
of a store, and one cache, which is empty at the start. Runtimes with the same fold version have the
same decider and read events and states alike; events and states are read back as they were encoded.
Let any number of loads and of commands, which append through the store, run interleaved, while
snapshots that are saved reach the cache at any time, in any order, repeatedly or never, saves fail, and
what is in the cache is lost or replaced by something undecodable or of a foreign fold version.

Then look at a load of any runtime that looks for a snapshot at one point of the run and reads the store
at a later one, and at a load that reads the store at the same point without looking for a snapshot.
Unless one of the two reads fails, both return the same: the same state and version, or the same error.
And a command that loads in one or in the other way returns the same without an append, or makes the
same append. -/
theorem snapshots_pure_cache {R : ι → Runtime S C E} {St : EventStore σ κ} (K : St.Contract)
    (hsame : SameFold R) (hcodec : ∀ i, RoundTrips (R i).toModel) (hstates : StatesRoundTrip R)
    {s₀ : σ} (hs₀ : K.inv s₀) {as bs : List (PoolAction (Request ι C) (Answer κ) (CacheStep R))}
    {P P' : Pool (Shared σ) (Request ι C) Op Res (Reply S C E)}
    (hrun : GuardedRun (cachedRuntimes R St).step ViaStore (Pool.start ⟨s₀, fun _ => none, []⟩) as P)
    (hrun' : GuardedRun (cachedRuntimes R St).step ViaStore P bs P')
    (i : ι) {c : Snapshots S} (hc : (R i).snapshots = some c) (sid : StreamID)
    (look read read' : Answer κ) (cmd : C) (m : Meta) (occurredAt : Time) (expected : UInt64)
    (ho : HandleOptions) :
    ∃ r r' p p',
      ((R i).load sid 0 .zero).run.resume (execShared St) [(look, P.shared), (read, P'.shared)] =
        some (.ret r) ∧
      ((R i).uncached.load sid 0 .zero).run.resume (execShared St) [(read', P'.shared)] =
        some (.ret r') ∧
      ((R i).handleOnce sid cmd m occurredAt expected ho).run.resume (execShared St)
        [(look, P.shared), (read, P'.shared)] = some p ∧
      ((R i).uncached.handleOnce sid cmd m occurredAt expected ho).run.resume (execShared St)
        [(read', P'.shared)] = some p' ∧
      (¬ ReadFailed r → ¬ ReadFailed r' → r = r' ∧ p.move = p'.move) := by
  obtain ⟨hP, -⟩ := right_run hsame hstates hcodec hrun (Sound.start (rightCache_empty R hs₀))
  obtain ⟨hP', hle⟩ := right_run hsame hstates hcodec hrun' hP
  -- what the cache returns when it is asked, and where the load starts
  obtain ⟨snap, hsnap, hright⟩ : ∃ snap,
      execShared St (.loadSnapshot sid.canonical) look P.shared = some (P.shared, snap) ∧
        ∀ x, snap = .ok (some x) → Right K R sid.canonical x P.shared.store := by
    refine ⟨_, rfl, fun x hx => hP.inv.cache _ x ?_⟩
    split at hx
    · cases hx
    · exact Except.ok.inj hx
  have hseed : sid.Valid →
      Seeds K (R i).toModel sid (c.seed (R i).decider.initial snap) P'.shared.store :=
    fun hvalid => (seeds_seed hc hright hvalid).mono hle
  have hload : ((R i).load sid 0 .zero).run.resume (execShared St)
      [(look, P.shared), (read, P'.shared)] =
        some (.ret ((R i).foldRead sid 0 (c.seed (R i).decider.initial snap)
          (St.readStream read.store sid (c.seed (R i).decider.initial snap).2 0 P'.shared.store))) := by
    rw [load_cached hc, Prog.resume, hsnap]
    rfl
  have hload' : ((R i).uncached.load sid 0 .zero).run.resume (execShared St) [(read', P'.shared)] =
      some (.ret ((R i).foldRead sid 0 ((R i).decider.initial, 0)
        (St.readStream read'.store sid 0 0 P'.shared.store))) := by
    rw [load_uncached rfl]
    rfl
  have hpass := Prog.resume_bind hload ((R i).onLoaded sid cmd m occurredAt expected ho)
  have hpass' := Prog.resume_bind hload' ((R i).uncached.onLoaded sid cmd m occurredAt expected ho)
  rw [← Runtime.run_handleOnce] at hpass hpass'
  refine ⟨_, _, _, _, hload, hload', hpass, hpass', fun hok hok' => ?_⟩
  have heq := foldRead_seeded (R i) hP'.inv.store hseed hok hok'
  refine ⟨heq, ?_⟩
  rw [heq]
  exact (R i).move_onLoaded sid cmd m occurredAt expected ho _

/-- A counter whose states are cached in unary, under fold version 1. -/
def cachedCounter : Runtime Nat Unit Unit :=
  { counterModel with
    snapshots := some
      { stateCodec :=
          { encode := fun n => .ok (List.replicate n 0)
            decode := fun b => .ok b.length }
        foldVersion := 1 }
    retries := 1
    verifyChain := true }

theorem statesRoundTrip_cachedCounter : StatesRoundTrip (fun _ : Unit => cachedCounter) := by
  intro _ c state b hc hencode
  cases hc
  cases hencode
  exact congrArg Except.ok List.length_replicate

theorem sameFold_cachedCounter : SameFold (fun _ : Unit => cachedCounter) := by
  intro _ _ c d hc hd _
  cases hc
  cases hd
  exact ⟨rfl, fun _ _ => rfl, rfl⟩

/-- Answers at the epoch without errors, with the id of the event to append and whether a save reaches
the cache. -/
def quietAnswer (b : UInt8) (stores : Bool) : Answer Sqlite.StoreChoice :=
  ⟨⟨0⟩, .fill 16 b, ⟨⟨⟨0⟩, ⟨0⟩, fun _ => .fill 16 b⟩, none⟩, none, stores, none⟩

/-- A command on `counter:main`. -/
def incrementRequest : Request Unit Unit :=
  ⟨(), counterMain, .handle () increment.info none {}⟩

/-- One command, and its snapshot arrives later. -/
def lateSave (R : Unit → Runtime Nat Unit Unit) :
    List (PoolAction (Request Unit Unit) (Answer Sqlite.StoreChoice) (CacheStep R)) :=
  .spawn 0 incrementRequest :: List.replicate 7 (.step 0 (quietAnswer 1 false)) ++
    [.env (.deliver counterMain.canonical ⟨1, 1, ⟨0⟩, [0]⟩)]

/-- The state and the version that a load has returned. -/
def loadedOf : Option (Prog Op Res (Except LoadError (S × UInt64))) → Option (S × UInt64)
  | some (.ret (.ok acc)) => some acc
  | _ => none

theorem loadedOf_ret {r : Except LoadError (S × UInt64)} (h : loadedOf (some (.ret r)) = some acc) :
    r = .ok acc := by
  cases r with
  | error err => cases h
  | ok acc' => rw [show acc' = acc from Option.some.inj h]

/-- A load that starts from a snapshot and reads no event, and one that reads the event. -/
theorem snapshots_pure_cache_late :
    ∃ P, GuardedRun (cachedRuntimes (fun _ => cachedCounter) (Sqlite.sqliteStore storeText 0)).step
        ViaStore (Pool.start ⟨.empty, fun _ => none, []⟩) (lateSave _) P ∧
      P.shared.cache counterMain.canonical = some ⟨1, 1, ⟨0⟩, [0]⟩ ∧
      (cachedCounter.load counterMain 0 .zero).run.resume
          (execShared (Sqlite.sqliteStore storeText 0))
          [(quietAnswer 0 true, P.shared), (quietAnswer 0 true, P.shared)] =
        some (.ret (.ok (1, 1))) ∧
      (cachedCounter.uncached.load counterMain 0 .zero).run.resume
          (execShared (Sqlite.sqliteStore storeText 0)) [(quietAnswer 0 true, P.shared)] =
        some (.ret (.ok (1, 1))) := by
  refine exists_guardedRun_of (fun P => P.shared.cache counterMain.canonical = some ⟨1, 1, ⟨0⟩, [0]⟩ ∧
      loadedOf ((cachedCounter.load counterMain 0 .zero).run.resume
        (execShared (Sqlite.sqliteStore storeText 0))
        [(quietAnswer 0 true, P.shared), (quietAnswer 0 true, P.shared)]) = some (1, 1) ∧
      (loadedOf ((cachedCounter.uncached.load counterMain 0 .zero).run.resume
        (execShared (Sqlite.sqliteStore storeText 0)) [(quietAnswer 0 true, P.shared)])).isSome)
    (by decide +kernel) ?_
  rintro P hrun ⟨hcache, hloaded, hloaded'⟩
  obtain ⟨r, r', p, p', hload, hload', -, -, hsame⟩ := snapshots_pure_cache
    (Sqlite.sqliteContract documented_storeText 0) sameFold_cachedCounter
    (fun _ => roundTrips_counter) statesRoundTrip_cachedCounter ⟨[], Sqlite.written_empty storeText⟩
    hrun (show GuardedRun _ _ P [] P from rfl) () rfl counterMain (quietAnswer 0 true)
    (quietAnswer 0 true) (quietAnswer 0 true) () increment.info ⟨0⟩ 0 {}
  rw [hload] at hloaded
  rw [hload'] at hloaded'
  obtain ⟨acc, hacc⟩ := Option.isSome_iff_exists.mp hloaded'
  obtain rfl := loadedOf_ret hloaded
  obtain rfl := loadedOf_ret hacc
  obtain ⟨heq, -⟩ := hsame (by rintro ⟨err, herr⟩; cases herr) (by rintro ⟨err, herr⟩; cases herr)
  rw [← heq] at hload'
  exact ⟨hcache, hload, hload'⟩

end EsLite.Aggregate
