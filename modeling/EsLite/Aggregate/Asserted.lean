import EsLite.Aggregate.Snapshots
import EsLite.Foundation.History
import EsLite.Sqlite.Claims

/-!
# A version asserted by the caller

`HandleAt` handles a command only if its stream is at the version that the caller asserts. Runtimes over
one store and one snapshot cache are run among each other and among other writers of the same streams; the
history of one `HandleAt` lists the calls that it makes.

* `Pass` — what an attempt can do: fail to load, find another version, be refused, have nothing to append,
  or append at the asserted version and fail, lose the race or succeed.
* `Tries` — what the retry loop does with its attempts.
* `HonoursVersion` — what the assertion means for a whole call, proved of every call of every run
  (`handleAt_honours_version`).

The argument about lost races: a conflict is only reported when the stream is not at the asserted version.
It was there when it was loaded, and streams only grow, so it is beyond that version from then on, and every
later attempt finds it there.
-/

namespace EsLite

/-- **What an append says about versions**: it reports a conflict only when the stream is not at the
expected version, and a success reports that version as the one before the append. -/
structure EventStore.Contract.ReportsVersions {σ κ : Type} {St : EventStore σ κ} (K : St.Contract) :
    Prop where
  conflict : ∀ k p s err, K.inv s → (St.append k p s).2 = .error err → err.sentinel = some .conflict →
    (K.rows s p.streamID).length ≠ p.expectedVersion.toNat
  fromVersion : ∀ k p s res, K.inv s → (St.append k p s).2 = .ok res →
    res.fromVersion = p.expectedVersion

/-! ## SQLite -/

variable {err : AppendError} {p : AppendParams}

variable {ops : List ConstraintOp} {T : GoText} {checker : Option ChainChecker}

namespace Sqlite

/-- A conflict of versions, and nothing else that matches `ErrConflict`. -/
def isVersionConflict : AppendError → Bool
  | .conflict .. => true
  | _ => false

theorem checkConstraints_not_conflict (h : checkConstraints ops = .error err) :
    isVersionConflict err = false := by
  induction ops with
  | nil => cases h
  | cons o os ih =>
    simp only [checkConstraints] at h
    split at h
    · cases h
      rfl
    · exact ih h

theorem checkPayloads_not_conflict {cap : Int} {sid : StreamID} {version : UInt64} {evs : List EventData}
    (h : checkPayloads cap sid version evs = .error err) : isVersionConflict err = false := by
  induction evs generalizing version with
  | nil => cases h
  | cons ev evs ih =>
    simp only [checkPayloads] at h
    split at h
    · cases h
      rfl
    · exact ih h

theorem insertEvents_not_conflict {inp : AppendInputs} {i : Nat} {prev : Digest} {db : Db}
    {evs : List EventData} (h : insertEvents T inp p i prev db evs = .error err) :
    isVersionConflict err = false := by
  induction evs generalizing i prev db with
  | nil => cases h
  | cons ev evs ih =>
    simp only [insertEvents] at h
    split at h
    · cases h
      rfl
    · cases h
      rfl
    · split at h
      · rename_i hrest
        cases h
        exact ih hrest
      · cases h

theorem applyClaims_not_conflict {streamID : Bytes} {claims : List ClaimRow}
    (h : applyClaims streamID claims ops = .error err) : isVersionConflict err = false := by
  have hsentinel := insertClaims_error_sentinel h
  cases err with
  | conflict sid current expected => cases hsentinel
  | _ => rfl

/-- **A conflict of versions** is reported only when the stream is not at the expected version. -/
theorem length_ne_of_conflict {cap : Int} {inp : AppendInputs} {db : Db} {log : List Envelope}
    (hw : Written T db log) (h : append T cap inp p db = .error err)
    (hconflict : isVersionConflict err = true) :
    (viewRows T db p.streamID).length ≠ p.expectedVersion.toNat := by
  have hnot : isVersionConflict err ≠ false := by
    rw [hconflict]
    decide
  unfold append at h
  split at h
  · cases h
    exact absurd rfl hnot
  rename_i hvalid
  split at h
  · rename_i hcheck
    cases h
    exact absurd (checkConstraints_not_conflict hcheck) hnot
  split at h
  · rename_i hcheck
    cases h
    exact absurd (checkPayloads_not_conflict hcheck) hnot
  rw [appendTx, hw.migrated.readHead_eq hvalid, List.nil_append] at h
  dsimp only at h
  split at h
  · rename_i hcurrent
    intro hlen
    refine hcurrent ?_
    rw [← length_viewRows hw, hlen, UInt64.ofNat_toNat]
  split at h
  · rename_i hinsert
    cases h
    exact absurd (insertEvents_not_conflict hinsert) hnot
  split at h
  · rename_i hclaims
    cases h
    exact absurd (applyClaims_not_conflict hclaims) hnot
  · cases h

/-- An event id that is taken is no conflict of versions. -/
def ownError (err : AppendError) : AppendError :=
  if err.sentinel = some .conflict ∧ isVersionConflict err = false then .backend [] else err

/-- The SQLite store, with an error of its own for event ids that are taken. -/
def distinctStore (T : GoText) (cap : Int) : EventStore Db StoreChoice where
  append k p db :=
    (((sqliteStore T cap).append k p db).1, ((sqliteStore T cap).append k p db).2.mapError ownError)
  readStream := (sqliteStore T cap).readStream
  readStreamAsOf := (sqliteStore T cap).readStreamAsOf

/-- It keeps the contract as the SQLite store does. -/
def distinctContract {T : GoText} (hT : T.Documented) (cap : Int) : (distinctStore T cap).Contract where
  inv := (sqliteContract hT cap).inv
  rows := (sqliteContract hT cap).rows
  versions := (sqliteContract hT cap).versions
  read := (sqliteContract hT cap).read
  notFound := (sqliteContract hT cap).notFound
  verified := (sqliteContract hT cap).verified
  append_inv := (sqliteContract hT cap).append_inv
  append_rows := (sqliteContract hT cap).append_rows
  append_ok k p db res hs hok := (sqliteContract hT cap).append_ok k p db res hs (mapError_eq_ok hok)
  readable := (sqliteContract hT cap).readable
  readable_append := (sqliteContract hT cap).readable_append
  reads := (sqliteContract hT cap).reads

/-- **SQLite reports versions** as a store should, when no event id is taken twice. -/
theorem reportsVersions_distinct (hT : T.Documented) (cap : Int) :
    (distinctContract hT cap).ReportsVersions where
  conflict := by
    rintro k p db err ⟨log, hw⟩ herr hconflict
    simp only [distinctStore, sqliteStore] at herr
    split at herr
    · cases herr
      cases hconflict
    split at herr
    · rename_i err' happend
      cases herr
      refine length_ne_of_conflict hw happend ?_
      by_contra hversion
      rw [Bool.not_eq_true] at hversion
      unfold ownError at hconflict
      split at hconflict
      · cases hconflict
      · rename_i hown
        exact hown ⟨hconflict, hversion⟩
    · cases herr
  fromVersion := by
    rintro k p db res ⟨log, hw⟩ hok
    simp only [distinctStore, sqliteStore] at hok
    split at hok
    · cases hok
    split at hok
    · cases hok
    · rename_i happend
      cases hok
      exact (written_append hw happend).2.2.2.2.2.2.1

end Sqlite

namespace Aggregate

open Logic Prog

variable {S C E ι σ κ : Type}

/-! ## Among other writers -/

/-- What happens besides the calls: something in the cache, or an append by another writer. -/
inductive OtherStep (R : ι → Runtime S C E) (κ : Type) : Type where
  | cache (e : CacheStep R)
  | append (k : κ) (p : AppendParams)

/-- The effect of such a step. -/
def otherStep (R : ι → Runtime S C E) (St : EventStore σ κ) :
    OtherStep R κ → Shared σ → Option (Shared σ)
  | .cache e, s => cacheStep R e s
  | .append k p, s => some { s with store := (St.append k p s.store).1 }

/-- Runtimes over one store and one cache, and other writers: any number of their calls, interleaved. -/
def contendedRuntimes (R : ι → Runtime S C E) (St : EventStore σ κ) :
    System (Shared σ) (Request ι C) Op Res (Reply S C E) (Answer κ) (OtherStep R κ) where
  prog := Request.program R
  exec := execShared St
  env := otherStep R St

variable {R : ι → Runtime S C E} {St : EventStore σ κ} {K : St.Contract}
  {r : Except LoadError (S × UInt64)} {acc : S × UInt64} {err : HandleError}

/-- Other writers only append, so snapshots stay right. -/
theorem right_otherStep (e : OtherStep R κ) {s s' : Shared σ} (hs : RightCache K R s)
    (h : otherStep R St e s = some s') : RightCache K R s' ∧ K.le s.store s'.store := by
  cases e with
  | cache e => exact right_cacheStep e hs h
  | append k p =>
    cases h
    have hgrows := K.le_append k p hs.store
    exact ⟨⟨K.append_inv k p s.store hs.store,
      fun streamID snap hsnap => (hs.cache streamID snap hsnap).mono hgrows,
      fun x hx => (hs.saved x hx).mono hgrows⟩, hgrows⟩

/-- A call in a history of a runtime. -/
abbrev Entry (σ : Type) := Performed (Shared σ) Op Res

/-- It is an append. -/
def IsAppend (e : Entry σ) : Prop := ∃ p, e.op = .append p

/-- Whether a reply is the conflict of an append. -/
def reportsConflict : (o : Op) → Res o → Bool
  | .append _, .error err => err.sentinel == some .conflict
  | _, _ => false

/-- It is an append that lost the race: it reports a conflict. -/
def LostRace (e : Entry σ) : Prop := reportsConflict e.op e.reply = true

instance (e : Entry σ) : Decidable (LostRace e) := inferInstanceAs (Decidable (_ = true))

variable {e : Entry σ}

/-- A lost race is an append with an error that matches `ErrConflict`. -/
theorem LostRace.cases (h : LostRace e) : ∃ p t t' err,
    e = ⟨.append p, t, t', (.error err : Except AppendError AppendResult)⟩ ∧
      err.sentinel = some .conflict := by
  obtain ⟨o, t, t', r⟩ := e
  cases o with
  | append p =>
    cases r with
    | error err => exact ⟨p, t, t', err, rfl, beq_iff_eq.mp h⟩
    | ok res => cases h
  | _ => cases h

/-- The error of the context that a pause returns. -/
def pauseError : (o : Op) → Res o → Option Foreign
  | .sleep _, x => x
  | _, _ => none

/-- It is a pause during which the context was cancelled. -/
def Cancelled (x : Foreign) (e : Entry σ) : Prop := pauseError e.op e.reply = some x

/-- It looks for a snapshot. -/
def IsLook (e : Entry σ) : Prop := ∃ streamID, e.op = .loadSnapshot streamID

/-- It belongs to the save of a snapshot. -/
def IsSave (e : Entry σ) : Prop := e.op = .timeNow ∨ ∃ streamID snap, e.op = .saveSnapshot streamID snap

section Spec

variable {St : EventStore σ κ} (K : St.Contract) (R : Runtime S C E) (sid : StreamID)

/-- It reads the stream at another version than `v`, and what it reads can be folded. -/
def FoundElsewhere (v : UInt64) (e : Entry σ) : Prop :=
  ∃ n t t' reply acc acc', e = ⟨.readStream sid n 0, t, t', reply⟩ ∧
    R.foldRead sid 0 acc reply = .ok acc' ∧ (K.rows t.store sid).length ≠ v.toNat

/-- It is the read of a load that fails with the error: the store failed, or what was read cannot be
folded. -/
def FailedLoad (lerr : LoadError) (e : Entry σ) : Prop :=
  ∃ n t t' reply acc, e = ⟨.readStream sid n 0, t, t', reply⟩ ∧ R.foldRead sid 0 acc reply = .error lerr

/-! ## One attempt -/

/-- **A load** that was made between the states `s` and `u`: it read the stream in the state `t` and
returned `r`. -/
structure Loads (s u : Shared σ) (es : List (Entry σ)) (t : Shared σ)
    (r : Except LoadError (S × UInt64)) : Prop where
  shape : ∃ look n reply acc, es = look ++ [⟨.readStream sid n 0, t, t, reply⟩] ∧
    (∀ e ∈ look, IsLook e) ∧ r = R.foldRead sid 0 acc reply
  later : K.le s.store t.store
  grows : K.le t.store u.store
  loaded : ∀ acc, r = .ok acc → Seeds K R.toModel sid acc t.store ∧
    acc.2.toNat = (K.rows t.store sid).length

/-- The events of a stream after a version. -/
def EventsAfter (v : UInt64) (events : List E) (s : σ) : Prop :=
  v.toNat + events.length ≤ (K.rows s sid).length ∧
    DecodesTo R.toModel sid (((K.rows s sid).drop v.toNat).take events.length) events

variable (cmd : C) (m : Meta) (now : Time) (v : UInt64)

/-- **What an attempt can do** that asserts version `v`, from the state `s` to the state `u`. -/
inductive Pass (s u : Shared σ) :
    List (Entry σ) → Prog Op Res (Except HandleError (Result S E)) → Prop
  /-- It looks for a snapshot, and is going to read the stream. -/
  | loading {es : List (Entry σ)} {o : Op} {k : Res o → Prog Op Res (Except HandleError (Result S E))}
      (hlook : ∀ e ∈ es, IsLook e) : Pass s u es (.call o k)
  | unread {es : List (Entry σ)} {t : Shared σ} {err : LoadError}
      (hload : Loads K R sid s u es t (.error err)) : Pass s u es (.ret (.error (.load err)))
  | stale {es : List (Entry σ)} {t : Shared σ} {state : S} {version : UInt64}
      (hload : Loads K R sid s u es t (.ok (state, version))) (hne : version ≠ v) :
      Pass s u es (.ret (.error (.conflict sid v version)))
  /-- The stream is closed, the command is rejected, or its events cannot be encoded. -/
  | refused {es : List (Entry σ)} {t : Shared σ} {state : S} {err : HandleError}
      (hload : Loads K R sid s u es t (.ok (state, v))) : Pass s u es (.ret (.error err))
  | noop {es : List (Entry σ)} {t : Shared σ} {state : S}
      (hload : Loads K R sid s u es t (.ok (state, v))) :
      Pass s u es (.ret (.ok ⟨state, [], v, v, []⟩))
  /-- It is going to append. -/
  | appending {es : List (Entry σ)} {t : Shared σ} {state : S} {o : Op}
      {k : Res o → Prog Op Res (Except HandleError (Result S E))}
      (hload : Loads K R sid s u es t (.ok (state, v))) : Pass s u es (.call o k)
  | failed {es : List (Entry σ)} {t t₁ t₂ : Shared σ} {state : S} {err : AppendError}
      {encoded : List EventData} {constraints : List ConstraintOp}
      (hload : Loads K R sid s u es t (.ok (state, v)))
      (hlost : err.sentinel = some .conflict → v.toNat < (K.rows u.store sid).length) :
      Pass s u (es ++ [⟨.append (Runtime.appendParams sid v encoded constraints m now), t₁, t₂, .error err⟩])
        (.ret (.error (.append err)))
  /-- It has appended, and saves the new state. -/
  | saving {es rest : List (Entry σ)} {t t₁ t₂ : Shared σ} {state : S} {res : AppendResult}
      {encoded : List EventData} {constraints : List ConstraintOp} {o : Op}
      {k : Res o → Prog Op Res (Except HandleError (Result S E))}
      (hload : Loads K R sid s u es t (.ok (state, v))) (hsave : ∀ e ∈ rest, IsSave e) :
      Pass s u (es ++ ⟨.append (Runtime.appendParams sid v encoded constraints m now), t₁, t₂, .ok res⟩ ::
        rest) (.call o k)
  | done {es rest : List (Entry σ)} {t t₁ t₂ : Shared σ} {state : S} {res : AppendResult}
      {encoded : List EventData} {constraints : List ConstraintOp} {result : Result S E}
      (hload : Loads K R sid s u es t (.ok (state, v))) (hsave : ∀ e ∈ rest, IsSave e)
      (hfrom : result.fromVersion = v) (hto : result.toVersion.toNat = v.toNat + result.events.length)
      (hevents : EventsAfter K R sid v result.events u.store) :
      Pass s u (es ++ ⟨.append (Runtime.appendParams sid v encoded constraints m now), t₁, t₂, .ok res⟩ ::
        rest) (.ret (.ok result))

end Spec

variable {q rest : Prog Op Res (Except HandleError (Result S E))}

section Attempt

variable {St : EventStore σ κ} {K : St.Contract} {R : ι → Runtime S C E} {i : ι} {sid : StreamID}
  {s u : Shared σ} {es : List (Entry σ)}

/-- The read of a load, from a place to start. -/
theorem loads_read {s₁ t t' : Shared σ} {look : List (Entry σ)} {reply : Res (.readStream sid acc.2 0)}
    (hlook : ∀ e ∈ look, IsLook e) (hle : K.le s.store s₁.store)
    (hseed : sid.Valid → Seeds K (R i).toModel sid acc s₁.store)
    (hchain : (cacheLogic K R).Chain (execShared St) s₁ [⟨.readStream sid acc.2 0, t, t', reply⟩] u) :
    Loads K (R i) sid s u (look ++ [⟨.readStream sid acc.2 0, t, t', reply⟩]) t
      ((R i).foldRead sid 0 acc reply) := by
  obtain ⟨hle₁, hinv, ⟨a, hex⟩, -, hle₂⟩ := chain_cons.mp hchain
  cases hex
  refine ⟨⟨look, acc.2, _, acc, rfl, hlook, rfl⟩, fun sid => (hle sid).trans (hle₁ sid), hle₂,
    fun acc' hok => ?_⟩
  exact (seeds_foldRead (R i) hinv.store (fun hvalid => (hseed hvalid).mono hle₁) hok).2

/-- **What a load does.** -/
theorem load_cases {q : Prog Op Res (Except LoadError (S × UInt64))}
    (hperf : Performs es ((R i).load sid 0 .zero).run q)
    (hchain : (cacheLogic K R).Chain (execShared St) s es u) :
    ((∀ e ∈ es, IsLook e) ∧ ∃ o k, q = .call o k) ∨
      ∃ t r, Loads K (R i) sid s u es t r ∧ q = .ret r := by
  have hnil : ∀ e ∈ ([] : List (Entry σ)), IsLook e := fun e he => absurd he List.not_mem_nil
  cases hc : (R i).snapshots with
  | none =>
    rw [load_uncached hc] at hperf
    rcases performs_call.mp hperf with ⟨rfl, rfl⟩ | ⟨t, t', reply, rest, rfl, hrest⟩
    · exact .inl ⟨hnil, _, _, rfl⟩
    · obtain ⟨rfl, rfl⟩ := performs_ret.mp hrest
      exact .inr ⟨t, _, loads_read hnil ((cacheLogic K R).refl s)
        (fun _ => seeds_initial _ sid s.store) hchain, rfl⟩
  | some c =>
    rw [load_cached hc] at hperf
    rcases performs_call.mp hperf with ⟨rfl, rfl⟩ | ⟨t₀, t₀', snap, rest, rfl, hrest⟩
    · exact .inl ⟨hnil, _, _, rfl⟩
    have hlook : ∀ e ∈ [(⟨.loadSnapshot sid.canonical, t₀, t₀', snap⟩ : Entry σ)], IsLook e :=
      List.forall_mem_singleton.mpr ⟨_, rfl⟩
    rcases performs_call.mp hrest with ⟨rfl, rfl⟩ | ⟨t, t', reply, rest, rfl, hend⟩
    · exact .inl ⟨hlook, _, _, rfl⟩
    · obtain ⟨rfl, rfl⟩ := performs_ret.mp hend
      obtain ⟨hle, hinv, ⟨a, hex⟩, hup, hchain⟩ := chain_cons.mp hchain
      have hseed := seeds_loaded hc hinv.cache hex
      exact .inr ⟨t, _, loads_read hlook (fun sid => (hle sid).trans (hup sid))
        (fun hvalid => (hseed hvalid).mono hup) hchain, rfl⟩

/-- The stream was read before, so it has the events that were read. -/
theorem Loads.length_le {R : Runtime S C E} {t : Shared σ} (h : Loads K R sid s u es t (.ok acc)) :
    acc.2.toNat ≤ (K.rows u.store sid).length := by
  rw [(h.loaded acc rfl).2]
  exact (h.grows sid).length_le

/-- A load is also one up to a later state. -/
theorem Loads.mono {R : Runtime S C E} {t u' : Shared σ} (h : Loads K R sid s u es t r)
    (hle : K.le u.store u'.store) : Loads K R sid s u' es t r :=
  ⟨h.shape, h.later, fun sid => (h.grows sid).trans (hle sid), h.loaded⟩

/-- **The events of an append** are those after the expected version, from then on. -/
theorem eventsAfter_of_appends {R : Runtime S C E} (hcodec : RoundTrips R.toModel) {events : List E}
    {st st' st'' : σ} (happends : EventStore.Appends p (K.rows st) (K.rows st'))
    (hlen : p.expectedVersion.toNat ≤ (K.rows st p.streamID).length)
    (hevents : List.Forall₂ (fun d ev => EncodedAs R.toModel (Sqlite.encodedData d) ev) p.events events)
    (hle : K.le st' st'') : EventsAfter K R p.streamID p.expectedVersion events st'' := by
  obtain ⟨new, hnew, hencoded⟩ := happends.grows
  have hdecodes : DecodesTo R.toModel p.streamID new events :=
    decodesTo_appended hcodec hencoded hevents
  obtain ⟨more, hmore⟩ := hle p.streamID
  rw [hnew] at hmore
  by_cases hnil : p.events = []
  · rw [hnil] at hevents
    cases hevents
    refine ⟨?_, .nil⟩
    rw [← hmore, List.length_append, List.length_append]
    simp only [List.length_nil]
    omega
  · have hfull := happends.expected hnil
    refine ⟨?_, ?_⟩
    · rw [← hmore, List.length_append, List.length_append, hfull, hdecodes.length_eq]
      omega
    · rw [← hmore, ← hfull, List.append_assoc, List.drop_left, ← hdecodes.length_eq, List.take_left]
      exact hdecodes

/-- Saving a snapshot, and a result that is known. -/
theorem run_saveSnapshot_then (R : Runtime S C E) (sid : StreamID) (state : S) (version : UInt64)
    (x : Result S E) :
    (R.saveSnapshot sid state version >>= fun _ => pure x).run = .ret (.ok x) ∨
      ∃ snap : Time → Snapshot, (R.saveSnapshot sid state version >>= fun _ => pure x).run =
        .call .timeNow (fun now =>
          .call (.saveSnapshot sid.canonical (snap now)) (fun _ => .ret (.ok x))) ∧
        ∀ now, (snap now).recordedAt = now := by
  unfold Runtime.saveSnapshot
  cases R.snapshots with
  | none => exact .inl rfl
  | some c =>
    dsimp only
    cases hencode : c.stateCodec.encode state with
    | error err => exact .inl rfl
    | ok b => exact .inr ⟨fun now => ⟨version, c.foldVersion, now, b⟩, rfl, fun _ => rfl⟩

/-- What the save of a snapshot does, and what the call returns after it. -/
theorem save_cases {R : Runtime S C E} {state : S} {version : UInt64} {x : Result S E}
    (hperf : Performs es (R.saveSnapshot sid state version >>= fun _ => pure x).run q) :
    (∀ e ∈ es, IsSave e) ∧ ((∃ o k, q = .call o k) ∨ q = .ret (.ok x)) := by
  have hnil : ∀ e ∈ ([] : List (Entry σ)), IsSave e := fun e he => absurd he List.not_mem_nil
  rcases run_saveSnapshot_then R sid state version x with hrun | ⟨snap, hrun, -⟩
  · rw [hrun] at hperf
    obtain ⟨rfl, rfl⟩ := performs_ret.mp hperf
    exact ⟨hnil, .inr rfl⟩
  rw [hrun] at hperf
  rcases performs_call.mp hperf with ⟨rfl, rfl⟩ | ⟨t, t', now, rest, rfl, hrest⟩
  · exact ⟨hnil, .inl ⟨_, _, rfl⟩⟩
  rcases performs_call.mp hrest with ⟨rfl, rfl⟩ | ⟨t₁, t₁', r, rest, rfl, hend⟩
  · exact ⟨List.forall_mem_singleton.mpr (.inl rfl), .inl ⟨_, _, rfl⟩⟩
  obtain ⟨rfl, rfl⟩ := performs_ret.mp hend
  exact ⟨List.forall_mem_cons.mpr ⟨.inl rfl, List.forall_mem_singleton.mpr (.inr ⟨_, _, rfl⟩)⟩, .inr rfl⟩

variable {cmd : C} {m : Meta} {now : Time} {v : UInt64}
  {q : Prog Op Res (Except HandleError (Result S E))}

/-- **From the load to the end** of an attempt that found the asserted version. -/
theorem pass_of_decision (hK : K.ReportsVersions) (hcodec : RoundTrips (R i).toModel) {t u₀ : Shared σ}
    {es₂ : List (Entry σ)} {state : S} (hload : Loads K (R i) sid s u₀ es t (.ok (state, v)))
    (hperf : Performs es₂ (ofResult ((R i).decideOn sid cmd v state v) >>=
      (R i).commit sid m now {} state v).run q)
    (hchain : (cacheLogic K R).Chain (execShared St) u₀ es₂ u) :
    Pass K (R i) sid m now v s u (es ++ es₂) q := by
  have hload' : Loads K (R i) sid s u es t (.ok (state, v)) := hload.mono hchain.le
  cases hdecision : (R i).decideOn sid cmd v state v with
  | error err =>
    rw [hdecision] at hperf
    obtain ⟨rfl, rfl⟩ := performs_ret.mp hperf
    rw [List.append_nil]
    exact .refused hload'
  | ok d =>
    rw [hdecision] at hperf
    obtain ⟨-, ⟨rfl, -⟩ | ⟨events, encoded, constraints, rfl, -, hencode⟩⟩ := decideOn_eq_ok hdecision
    · obtain ⟨rfl, rfl⟩ := performs_ret.mp hperf
      rw [List.append_nil]
      exact .noop hload'
    rcases performs_call.mp hperf with ⟨rfl, rfl⟩ | ⟨t₁, t₂, r, rest, rfl, hrest⟩
    · rw [List.append_nil]
      exact .appending hload'
    obtain ⟨hle, hinv, ⟨a, hex⟩, hup, hafter⟩ := chain_cons.mp hchain
    cases hex
    have hlen : v.toNat ≤ (K.rows t₁.store sid).length := (hload.mono hle).length_le
    have hgrows : K.le t₁.store u.store := fun sid => (hup sid).trans (hafter.le sid)
    cases hres : (St.append a.store (Runtime.appendParams sid v encoded constraints m now) t₁.store).2 with
    | error err =>
      rw [hres] at hrest
      obtain ⟨rfl, rfl⟩ := performs_ret.mp hrest
      refine .failed hload' (fun hconflict => ?_)
      have hne := hK.conflict a.store _ t₁.store err hinv.store hres hconflict
      exact Nat.lt_of_lt_of_le (Nat.lt_of_le_of_ne hlen (Ne.symm hne)) (hgrows sid).length_le
    | ok res =>
      rw [hres] at hrest
      obtain ⟨hsave, ⟨o, k, rfl⟩ | rfl⟩ := save_cases hrest
      · exact .saving hload' hsave
      · have hevents := encodeEvents_eq_ok hencode
        obtain ⟨happends, hversion⟩ := K.append_ok a.store _ t₁.store res hinv.store hres
        refine .done hload' hsave (hK.fromVersion a.store _ t₁.store res hinv.store hres) ?_ ?_
        · rw [hversion, ← hevents.length_eq]
          rfl
        · exact eventsAfter_of_appends hcodec happends hlen hevents hafter.le

/-- **What an attempt does**, in every history of it. -/
theorem pass_of_performs (hK : K.ReportsVersions) (hcodec : RoundTrips (R i).toModel) (hv : v ≠ 0)
    (hperf : Performs es ((R i).handleOnce sid cmd m now v {}).run q)
    (hchain : (cacheLogic K R).Chain (execShared St) s es u) : Pass K (R i) sid m now v s u es q := by
  rw [Runtime.run_handleOnce] at hperf
  rcases hperf.of_bind with ⟨o, k, hk, rfl⟩ | ⟨es₁, es₂, r, rfl, hr, hrest⟩
  · rcases load_cases hk hchain with ⟨hlook, -⟩ | ⟨t, r, -, hret⟩
    · exact .loading hlook
    · cases hret
  obtain ⟨u₀, hchain₁, hchain₂⟩ := chain_append.mp hchain
  rcases load_cases hr hchain₁ with ⟨-, o, k, hret⟩ | ⟨t, r', hload, hret⟩
  · cases hret
  cases hret
  cases r with
  | error err =>
    obtain ⟨rfl, rfl⟩ := performs_ret.mp hrest
    rw [List.append_nil]
    exact .unread (hload.mono hchain₂)
  | ok acc =>
    obtain ⟨state, version⟩ := acc
    by_cases hversion : version = v
    · subst hversion
      exact pass_of_decision hK hcodec hload hrest hchain₂
    · have hdecision : (R i).decideOn sid cmd v state version = .error (.conflict sid v version) :=
        if_pos ⟨hv, hversion⟩
      rw [Runtime.onLoaded, hdecision] at hrest
      obtain ⟨rfl, rfl⟩ := performs_ret.mp hrest
      rw [List.append_nil]
      exact .stale (hload.mono hchain₂) hversion

end Attempt

/-! ## What follows for an attempt -/

section Pass

variable {St : EventStore σ κ} {K : St.Contract} {R : Runtime S C E} {sid : StreamID}
  {s u t : Shared σ} {es : List (Entry σ)} {m : Meta} {now : Time} {v : UInt64}
  {q : Prog Op Res (Except HandleError (Result S E))}

theorem not_isAppend_of_isLook (h : IsLook e) : ¬ IsAppend e := by
  rintro ⟨p, hp⟩
  obtain ⟨streamID, hlook⟩ := h
  rw [hlook] at hp
  cases hp

theorem not_isAppend_of_isSave (h : IsSave e) : ¬ IsAppend e := by
  rintro ⟨p, hp⟩
  rcases h with htime | ⟨streamID, snap, hsave⟩
  · rw [htime] at hp
    cases hp
  · rw [hsave] at hp
    cases hp

/-- A lost race is an append. -/
theorem LostRace.isAppend (h : LostRace e) : IsAppend e := by
  obtain ⟨p, t, t', err, rfl, -⟩ := h.cases
  exact ⟨p, rfl⟩

theorem FoundElsewhere.not_isLook (h : FoundElsewhere K R sid v e) : ¬ IsLook e := by
  obtain ⟨n, t, t', reply, acc, acc', rfl, -⟩ := h
  rintro ⟨streamID, hop⟩
  cases hop

/-- A load does not append. -/
theorem Loads.not_isAppend (h : Loads K R sid s u es t r) : ∀ e ∈ es, ¬ IsAppend e := by
  obtain ⟨look, n, reply, acc, rfl, hlook, -⟩ := h.shape
  refine List.forall_mem_append.mpr ⟨fun e he => not_isAppend_of_isLook (hlook e he),
    List.forall_mem_singleton.mpr ?_⟩
  rintro ⟨p, hp⟩
  cases hp

/-- A load that fails has made a read that says so. -/
theorem Loads.failed {lerr : LoadError} (h : Loads K R sid s u es t (.error lerr)) :
    ∃ e ∈ es, FailedLoad R sid lerr e := by
  obtain ⟨look, n, reply, acc, rfl, -, hfold⟩ := h.shape
  exact ⟨_, List.mem_append_right _ (List.mem_singleton.mpr rfl), n, t, t, reply, acc, rfl, hfold.symm⟩

/-- **An attempt appends at the asserted version**, with the ids and the time of its call. -/
theorem Pass.appends (h : Pass K R sid m now v s u es q) : ∀ e ∈ es, ∀ p, e.op = .append p →
    ∃ encoded constraints, p = Runtime.appendParams sid v encoded constraints m now := by
  have hload : ∀ {es : List (Entry σ)} {t : Shared σ} {r : Except LoadError (S × UInt64)},
      Loads K R sid s u es t r → ∀ e ∈ es, ∀ p, e.op = .append p →
        ∃ encoded constraints, p = Runtime.appendParams sid v encoded constraints m now :=
    fun h e he p hp => absurd ⟨p, hp⟩ (h.not_isAppend e he)
  -- the append after a load has the asserted version, and what follows it saves
  have happended : ∀ {es rest : List (Entry σ)} {t t₁ t₂ : Shared σ} {state : S}
      {encoded : List EventData} {constraints : List ConstraintOp} {r : Except AppendError AppendResult},
      Loads K R sid s u es t (.ok (state, v)) → (∀ e ∈ rest, IsSave e) →
      ∀ e ∈ es ++ ⟨.append (Runtime.appendParams sid v encoded constraints m now), t₁, t₂, r⟩ :: rest,
        ∀ p, e.op = .append p →
          ∃ encoded constraints, p = Runtime.appendParams sid v encoded constraints m now := by
    intro es rest t t₁ t₂ state encoded constraints r h hsave
    refine List.forall_mem_append.mpr ⟨hload h, List.forall_mem_cons.mpr ⟨fun p hp => ?_,
      fun e he p hp => absurd ⟨p, hp⟩ (not_isAppend_of_isSave (hsave e he))⟩⟩
    cases hp
    exact ⟨encoded, constraints, rfl⟩
  cases h with
  | loading hlook => exact fun e he p hp => absurd ⟨p, hp⟩ (not_isAppend_of_isLook (hlook e he))
  | unread h => exact hload h
  | stale h => exact hload h
  | refused h => exact hload h
  | noop h => exact hload h
  | appending h => exact hload h
  | failed h => exact happended h (fun e he => absurd he List.not_mem_nil)
  | saving h hsave => exact happended h hsave
  | done h hsave => exact happended h hsave

/-- A load that found the asserted version was made before the stream was beyond it. -/
theorem Loads.not_beyond {state : S} (h : Loads K R sid s u es t (.ok (state, v))) :
    ¬ v.toNat < (K.rows s.store sid).length := by
  have hlen : v.toNat = (K.rows t.store sid).length := (h.loaded _ rfl).2
  have hle := (h.later sid).length_le
  omega

/-- **An attempt beyond the asserted version** appends nothing, and ends with an error of its load or a
`ConflictError`. -/
theorem Pass.beyond (h : Pass K R sid m now v s u es q) (hs : v.toNat < (K.rows s.store sid).length) :
    (∀ e ∈ es, ¬ IsAppend e) ∧ ∀ r, q = .ret r →
      (∃ err, r = .error (.load err) ∧ ∃ e ∈ es, FailedLoad R sid err e) ∨
        ∃ current, r = .error (.conflict sid v current) := by
  cases h with
  | loading hlook =>
    refine ⟨fun e he => not_isAppend_of_isLook (hlook e he), fun r hr => ?_⟩
    cases hr
  | @unread _ t err h =>
    refine ⟨h.not_isAppend, fun r hr => ?_⟩
    cases hr
    exact .inl ⟨err, rfl, h.failed⟩
  | @stale _ t state version h hne =>
    refine ⟨h.not_isAppend, fun r hr => ?_⟩
    cases hr
    exact .inr ⟨version, rfl⟩
  | refused h => exact absurd hs h.not_beyond
  | noop h => exact absurd hs h.not_beyond
  | appending h => exact absurd hs h.not_beyond
  | failed h => exact absurd hs h.not_beyond
  | saving h => exact absurd hs h.not_beyond
  | done h => exact absurd hs h.not_beyond

/-- Streams grow during an attempt. -/
theorem Pass.le {r : Except HandleError (Result S E)} (h : Pass K R sid m now v s u es (.ret r)) :
    K.le s.store u.store := by
  have hload : ∀ {es : List (Entry σ)} {t : Shared σ} {r : Except LoadError (S × UInt64)},
      Loads K R sid s u es t r → K.le s.store u.store :=
    fun h sid => (h.later sid).trans (h.grows sid)
  cases h with
  | unread h => exact hload h
  | stale h => exact hload h
  | refused h => exact hload h
  | noop h => exact hload h
  | failed h => exact hload h
  | done h => exact hload h

/-- The only append that an attempt can lose is its last call. -/
theorem Pass.lost (h : Pass K R sid m now v s u es q) (he : e ∈ es) (hlost : LostRace e) :
    (∃ pre, es = pre ++ [e] ∧ ∀ x ∈ pre, ¬ IsAppend x) ∧ v.toNat < (K.rows u.store sid).length ∧
      ∃ err, q = .ret (.error (.append err)) ∧ err.sentinel = some .conflict := by
  have hnot : ∀ {es : List (Entry σ)}, (∀ e ∈ es, ¬ IsAppend e) → e ∉ es :=
    fun h he => h e he hlost.isAppend
  -- an append that succeeded is not lost, and a save is no append
  have hsaved : ∀ {es rest : List (Entry σ)} {t₁ t₂ : Shared σ} {p : AppendParams} {res : AppendResult},
      (∀ e ∈ es, ¬ IsAppend e) → (∀ e ∈ rest, IsSave e) →
      e ∉ es ++ ⟨.append p, t₁, t₂, .ok res⟩ :: rest := by
    intro es rest t₁ t₂ p res hes hrest he
    rcases List.mem_append.mp he with he | he
    · exact hnot hes he
    rcases List.mem_cons.mp he with rfl | he
    · obtain ⟨p', t, t', err, heq, -⟩ := hlost.cases
      cases heq
    · exact hnot (fun x hx => not_isAppend_of_isSave (hrest x hx)) he
  cases h with
  | loading hlook => exact absurd he (hnot (fun x hx => not_isAppend_of_isLook (hlook x hx)))
  | unread h => exact absurd he (hnot h.not_isAppend)
  | stale h => exact absurd he (hnot h.not_isAppend)
  | refused h => exact absurd he (hnot h.not_isAppend)
  | noop h => exact absurd he (hnot h.not_isAppend)
  | appending h => exact absurd he (hnot h.not_isAppend)
  | @failed es _ t₁ t₂ _ err _ _ h hbeyond =>
    rcases List.mem_append.mp he with he | he
    · exact absurd he (hnot h.not_isAppend)
    obtain rfl := List.mem_singleton.mp he
    obtain ⟨p, t, t', err', heq, hconflict⟩ := hlost.cases
    cases heq
    exact ⟨⟨es, rfl, h.not_isAppend⟩, hbeyond hconflict, err, rfl, hconflict⟩
  | saving h hsave => exact absurd he (hsaved h.not_isAppend hsave)
  | done h hsave => exact absurd he (hsaved h.not_isAppend hsave)

/-- Whether a read can be folded does not depend on the seed. -/
theorem foldEnvelopes_of_seed {M : Model S C E} {acc₁ acc' : S × UInt64} {envs : List Envelope}
    (h : foldEnvelopes M sid checker acc envs = .ok acc') :
    ∃ acc₁', foldEnvelopes M sid checker acc₁ envs = .ok acc₁' := by
  induction envs generalizing checker acc acc₁ with
  | nil => exact ⟨acc₁, rfl⟩
  | cons env envs ih =>
    simp only [foldEnvelopes] at h ⊢
    split at h
    · cases h
    split at h
    · cases h
    exact ih h

theorem foldRead_of_seed {acc₁ acc' : S × UInt64} {r : Except StoreError (List Envelope)}
    (h : R.foldRead sid 0 acc r = .ok acc') : ∃ acc₁', R.foldRead sid 0 acc₁ r = .ok acc₁' := by
  obtain ⟨envs, henvs⟩ := envelopesOf_eq_ok R (not_readFailed_of_ok h)
  rw [foldRead_eq R henvs] at h ⊢
  exact foldEnvelopes_of_seed h

/-- The one read of a load, when it found another version: the load has succeeded with that version. -/
theorem Loads.foundElsewhere (h : Loads K R sid s u es t r) (he : e ∈ es)
    (hfound : FoundElsewhere K R sid v e) :
    ∃ look acc, es = look ++ [e] ∧ (∀ x ∈ look, IsLook x) ∧ r = .ok acc ∧ acc.2 ≠ v ∧
      acc.2.toNat = (K.rows e.before.store sid).length := by
  obtain ⟨look, n, reply, acc, rfl, hlook, rfl⟩ := h.shape
  rcases List.mem_append.mp he with he | he
  · exact absurd (hlook e he) hfound.not_isLook
  obtain rfl := List.mem_singleton.mp he
  obtain ⟨n', t₁, t₁', reply', acc₁, acc₁', heq, hok, hne⟩ := hfound
  cases heq
  obtain ⟨acc', hacc'⟩ : ∃ acc', R.foldRead sid 0 acc reply = .ok acc' := foldRead_of_seed hok
  have hlen := (h.loaded acc' hacc').2
  refine ⟨look, acc', rfl, hlook, hacc', fun heq => hne ?_, hlen⟩
  rw [← hlen, heq]

/-- **A stream found at another version** ends an attempt with a `ConflictError`: nothing follows the
read. -/
theorem Pass.foundElsewhere (h : Pass K R sid m now v s u es q) (he : e ∈ es)
    (hfound : FoundElsewhere K R sid v e) :
    ∃ look current, es = look ++ [e] ∧ (∀ x ∈ look, IsLook x) ∧
      q = .ret (.error (.conflict sid v current)) ∧
      current.toNat = (K.rows e.before.store sid).length := by
  have hread : ∀ {es : List (Entry σ)} {t : Shared σ} {state : S},
      Loads K R sid s u es t (.ok (state, v)) → e ∉ es := by
    intro es t state h he
    obtain ⟨look, acc, -, -, hacc, hne, -⟩ := h.foundElsewhere he hfound
    cases hacc
    exact hne rfl
  have hop : ∀ p, e.op ≠ .append p := by
    obtain ⟨n, t, t', reply, acc, acc', rfl, -⟩ := hfound
    intro p hp
    cases hp
  have hsave : ¬ IsSave e := by
    obtain ⟨n, t, t', reply, acc, acc', rfl, -⟩ := hfound
    rintro (hp | ⟨_, _, hp⟩)
    · cases hp
    · cases hp
  have happended : ∀ {es rest : List (Entry σ)} {t t₁ t₂ : Shared σ} {state : S} {p : AppendParams}
      {r : Except AppendError AppendResult}, Loads K R sid s u es t (.ok (state, v)) →
      (∀ x ∈ rest, IsSave x) → e ∉ es ++ ⟨.append p, t₁, t₂, r⟩ :: rest := by
    intro es rest t t₁ t₂ state p r h hrest he
    rcases List.mem_append.mp he with he | he
    · exact hread h he
    rcases List.mem_cons.mp he with rfl | he
    · exact hop p rfl
    · exact hsave (hrest e he)
  cases h with
  | loading hlook => exact absurd (hlook e he) hfound.not_isLook
  | unread h =>
    obtain ⟨look, acc, -, -, hacc, -⟩ := h.foundElsewhere he hfound
    cases hacc
  | stale h hne =>
    obtain ⟨look, acc, hes, hlook, hacc, -, hlen⟩ := h.foundElsewhere he hfound
    cases hacc
    exact ⟨look, _, hes, hlook, rfl, hlen⟩
  | refused h => exact absurd he (hread h)
  | noop h => exact absurd he (hread h)
  | appending h => exact absurd he (hread h)
  | failed h => exact absurd he (happended h (fun x hx => absurd hx List.not_mem_nil))
  | saving h hsave => exact absurd he (happended h hsave)
  | done h hsave => exact absurd he (happended h hsave)

/-- **A successful attempt** starts from the asserted version, and its events are the ones after it. -/
theorem Pass.success {result : Result S E} (h : Pass K R sid m now v s u es (.ret (.ok result))) :
    result.fromVersion = v ∧ result.toVersion.toNat = v.toNat + result.events.length ∧
      EventsAfter K R sid v result.events u.store := by
  cases h with
  | noop h => exact ⟨rfl, rfl, h.length_le, .nil⟩
  | done h hsave hfrom hto hevents => exact ⟨hfrom, hto, hevents⟩

end Pass

/-! ## The retry loop -/

/-- Whether an error is retried, as long as attempts are left. -/
def Retried (err : HandleError) : Prop := err.is .conflict = true ∧ err.isConflictError = false

instance (err : HandleError) : Decidable (Retried err) :=
  inferInstanceAs (Decidable (_ = true ∧ _ = false))

/-- What the loop does after an attempt when attempts are left. -/
def afterPass (n : Nat) (rest : Prog Op Res (Except HandleError (Result S E))) :
    Except HandleError (Result S E) → Prog Op Res (Except HandleError (Result S E))
  | .ok res => .ret (.ok res)
  | .error err =>
    if Retried err then
      .call (.sleep (n + 1)) (fun x => x.elim rest (fun x => .ret (.error (.ctx x))))
    else .ret (.error (Runtime.surface n err))

theorem afterPass_retried {n : Nat} (h : Retried err) : afterPass n rest (.error err) =
      .call (.sleep (n + 1)) (fun x => x.elim rest (fun x => .ret (.error (.ctx x)))) := if_pos h

theorem afterPass_ended {n : Nat} (h : ¬ Retried err) :
    afterPass n rest (.error err) = .ret (.error (Runtime.surface n err)) := if_neg h

/-- The loop is an attempt, and what is done after it. -/
theorem attempts_succ (once : Act HandleError (Result S E)) (n left : Nat) :
    Runtime.attempts once n (left + 1) =
      once.run >>= afterPass n (Runtime.attempts once (n + 1) left) := by
  rw [Runtime.attempts]
  congr 1
  funext r
  cases r with
  | ok res => rfl
  | error err =>
    by_cases h : Retried err
    · rw [afterPass_retried h]
      dsimp only
      rw [if_pos (by rw [h.1, h.2]; rfl)]
      show Prog.call _ _ = Prog.call _ _
      congr 1
      funext x
      cases x <;> rfl
    · rw [afterPass_ended h]
      refine if_neg (fun h' => h ?_)
      rw [Bool.and_eq_true, Bool.not_eq_true'] at h'
      exact h'

/-- **What the attempts of a call can do**, from attempt `n` in the state `s` on. -/
inductive Tries {St : EventStore σ κ} (K : St.Contract) (R : Runtime S C E) (sid : StreamID) (m : Meta)
    (now : Time) (v : UInt64) (u : Shared σ) : Nat → Shared σ → List (Entry σ) →
      Prog Op Res (Except HandleError (Result S E)) → Prop
  /-- The attempt is not over. -/
  | running {n : Nat} {s : Shared σ} {es : List (Entry σ)} {o : Op}
      {k k' : Res o → Prog Op Res (Except HandleError (Result S E))}
      (hpass : Pass K R sid m now v s u es (.call o k)) : Tries K R sid m now v u n s es (.call o k')
  | ended {n : Nat} {s : Shared σ} {es : List (Entry σ)} {r : Except HandleError (Result S E)}
      (hpass : Pass K R sid m now v s u es (.ret r)) :
      Tries K R sid m now v u n s es (.ret (r.mapError (Runtime.surface n)))
  /-- It has failed with an error that is retried, and there will be a pause. -/
  | pausing {n : Nat} {s : Shared σ} {es : List (Entry σ)} {err : HandleError} {o : Op}
      {k : Res o → Prog Op Res (Except HandleError (Result S E))}
      (hpass : Pass K R sid m now v s u es (.ret (.error err))) (hretried : Retried err) :
      Tries K R sid m now v u n s es (.call o k)
  | cancelled {n : Nat} {s t t' : Shared σ} {es : List (Entry σ)} {err : HandleError} {x : Foreign}
      (hpass : Pass K R sid m now v s t es (.ret (.error err))) (hretried : Retried err) :
      Tries K R sid m now v u n s (es ++ [⟨.sleep (n + 1), t, t', some x⟩]) (.ret (.error (.ctx x)))
  /-- After the pause there is another attempt. -/
  | again {n : Nat} {s t t' : Shared σ} {es es' : List (Entry σ)} {err : HandleError}
      {q : Prog Op Res (Except HandleError (Result S E))}
      (hpass : Pass K R sid m now v s t es (.ret (.error err))) (hretried : Retried err)
      (hrest : Tries K R sid m now v u (n + 1) t es' q) :
      Tries K R sid m now v u n s (es ++ ⟨.sleep (n + 1), t, t', none⟩ :: es') q

/-- **What the retry loop does**, in every history of it. -/
theorem tries_of_performs {i : ι} {sid : StreamID} {cmd : C} {m : Meta} {now : Time} {v : UInt64}
    (hK : K.ReportsVersions) (hcodec : RoundTrips (R i).toModel) (hv : v ≠ 0) {n left : Nat}
    {s u : Shared σ} {es : List (Entry σ)}
    (hperf : Performs es (Runtime.attempts ((R i).handleOnce sid cmd m now v {}) n left) q)
    (hchain : (cacheLogic K R).Chain (execShared St) s es u) : Tries K (R i) sid m now v u n s es q := by
  induction left generalizing n s es with
  | zero =>
    obtain ⟨p', hp', rfl⟩ := Performs.of_map hperf
    have hpass := pass_of_performs hK hcodec hv hp' hchain
    cases p' with
    | call o k => exact .running hpass
    | ret r => exact .ended hpass
  | succ left ih =>
    rw [attempts_succ] at hperf
    rcases hperf.of_bind with ⟨o, k, hk, rfl⟩ | ⟨es₁, es₂, r, rfl, hr, hrest⟩
    · exact .running (pass_of_performs hK hcodec hv hk hchain)
    obtain ⟨t₁, hchain₁, hchain₂⟩ := chain_append.mp hchain
    cases r with
    | ok res =>
      obtain ⟨rfl, rfl⟩ := performs_ret.mp hrest
      rw [List.append_nil]
      exact .ended (r := .ok res) (pass_of_performs hK hcodec hv hr (hchain₁.mono hchain₂))
    | error err =>
      by_cases hretried : Retried err
      · rw [afterPass_retried hretried] at hrest
        rcases performs_call.mp hrest with ⟨rfl, rfl⟩ | ⟨t, t', x, rest, rfl, hend⟩
        · rw [List.append_nil]
          exact .pausing (pass_of_performs hK hcodec hv hr (hchain₁.mono hchain₂)) hretried
        · obtain ⟨hle, hinv, ⟨a, hex⟩, hup, hafter⟩ := chain_cons.mp hchain₂
          have hpass := pass_of_performs hK hcodec hv hr (hchain₁.mono hle)
          obtain rfl : t' = t := execShared_quiet (o := .sleep (n + 1)) trivial hex
          cases x with
          | some x =>
            obtain ⟨rfl, rfl⟩ := performs_ret.mp hend
            exact .cancelled hpass hretried
          | none => exact .again hpass hretried (ih hend hafter)
      · rw [afterPass_ended hretried] at hrest
        obtain ⟨rfl, rfl⟩ := performs_ret.mp hrest
        rw [List.append_nil]
        exact .ended (r := .error err) (pass_of_performs hK hcodec hv hr (hchain₁.mono hchain₂))

section Tries

variable {St : EventStore σ κ} {K : St.Contract} {R : Runtime S C E} {sid : StreamID} {s u : Shared σ}
  {es : List (Entry σ)} {m : Meta} {now : Time} {v : UInt64} {n : Nat}
  {q : Prog Op Res (Except HandleError (Result S E))}

/-- A pause is not an append. -/
theorem not_isAppend_sleep {k : Nat} {t t' : Shared σ} {x : Option Foreign} :
    ¬ IsAppend (⟨.sleep k, t, t', x⟩ : Entry σ) := by
  rintro ⟨p, hp⟩
  cases hp

/-- **All attempts append at the asserted version**, with the same ids and the same time. -/
theorem Tries.appends (h : Tries K R sid m now v u n s es q) : ∀ e ∈ es, ∀ p, e.op = .append p →
    ∃ encoded constraints, p = Runtime.appendParams sid v encoded constraints m now := by
  induction h with
  | running hpass => exact hpass.appends
  | ended hpass => exact hpass.appends
  | pausing hpass => exact hpass.appends
  | cancelled hpass =>
    exact List.forall_mem_append.mpr ⟨hpass.appends,
      List.forall_mem_singleton.mpr (fun p hp => absurd ⟨p, hp⟩ not_isAppend_sleep)⟩
  | again hpass hretried hrest ih =>
    exact List.forall_mem_append.mpr ⟨hpass.appends,
      List.forall_mem_cons.mpr ⟨fun p hp => absurd ⟨p, hp⟩ not_isAppend_sleep, ih⟩⟩

/-- How a call ends after a lost race: with an error that matches `ErrConflict`, unless its context is
cancelled during a pause or the read of a later load fails. -/
def GivesUp (R : Runtime S C E) (sid : StreamID) (es : List (Entry σ)) (err : HandleError) : Prop :=
  err.is .conflict = true ∨ (∃ x, err = .ctx x ∧ ∃ e ∈ es, Cancelled x e) ∨
    ∃ n lerr, err = .exhausted n (.load lerr) ∧ ∃ e ∈ es, FailedLoad R sid lerr e

/-- It is enough that the pause or the read is in a part of the history. -/
theorem GivesUp.mono {es' : List (Entry σ)} (h : GivesUp R sid es err) (hsub : ∀ e ∈ es, e ∈ es') :
    GivesUp R sid es' err := by
  rcases h with h | ⟨x, hx, e, he, hcancelled⟩ | ⟨n, lerr, herr, e, he, hfailed⟩
  · exact .inl h
  · exact .inr (.inl ⟨x, hx, e, hsub e he, hcancelled⟩)
  · exact .inr (.inr ⟨n, lerr, herr, e, hsub e he, hfailed⟩)

/-- Wrapping an error keeps what it matches. -/
theorem is_surface (n : Nat) (err : HandleError) (sentinel : Sentinel) :
    (Runtime.surface n err).is sentinel = err.is sentinel := by
  unfold Runtime.surface
  split <;> rfl

/-- **Attempts beyond the asserted version** append nothing. After the first attempt, they also end as a
call ends that has lost the race. -/
theorem Tries.beyond (h : Tries K R sid m now v u n s es q)
    (hs : v.toNat < (K.rows s.store sid).length) :
    (∀ e ∈ es, ¬ IsAppend e) ∧ (0 < n → ∀ r, q = .ret r → ∃ err, r = .error err ∧ GivesUp R sid es err) := by
  induction h with
  | running hpass =>
    refine ⟨(hpass.beyond hs).1, fun _ r hr => ?_⟩
    cases hr
  | @ended n s es r hpass =>
    refine ⟨(hpass.beyond hs).1, fun hn r' hr => ?_⟩
    cases hr
    rcases (hpass.beyond hs).2 r rfl with ⟨err, rfl, hfailed⟩ | ⟨current, rfl⟩
    · exact ⟨_, rfl, .inr (.inr ⟨n + 1, err, if_pos hn, hfailed⟩)⟩
    · exact ⟨_, rfl, .inl (is_surface n _ _)⟩
  | pausing hpass =>
    refine ⟨(hpass.beyond hs).1, fun _ r hr => ?_⟩
    cases hr
  | @cancelled n s t t' es err x hpass =>
    refine ⟨List.forall_mem_append.mpr ⟨(hpass.beyond hs).1,
      List.forall_mem_singleton.mpr not_isAppend_sleep⟩, fun _ r hr => ?_⟩
    cases hr
    exact ⟨_, rfl, .inr (.inl ⟨x, rfl, _, List.mem_append_right _ (List.mem_singleton.mpr rfl), rfl⟩)⟩
  | @again n s t t' es es' err q hpass hretried hrest ih =>
    obtain ⟨hnot, hends⟩ := ih (Nat.lt_of_lt_of_le hs (hpass.le sid).length_le)
    refine ⟨List.forall_mem_append.mpr ⟨(hpass.beyond hs).1,
      List.forall_mem_cons.mpr ⟨not_isAppend_sleep, hnot⟩⟩, fun _ r hr => ?_⟩
    obtain ⟨err, herr, hgives⟩ := hends (Nat.succ_pos n) r hr
    exact ⟨err, herr, hgives.mono (fun e he => List.mem_append_right _ (List.mem_cons_of_mem _ he))⟩

/-- After a lost race there is no append. -/
abbrev NoneAfterLost : Entry σ → Entry σ → Prop := fun e e' => LostRace e → ¬ IsAppend e'

/-- An attempt does not append after a lost race. -/
theorem Pass.noneAfterLost (h : Pass K R sid m now v s u es q) : es.Pairwise NoneAfterLost := by
  by_cases hlost : ∃ e ∈ es, LostRace e
  · obtain ⟨e, he, hlost⟩ := hlost
    obtain ⟨⟨pre, rfl, hpre⟩, -⟩ := h.lost he hlost
    refine List.pairwise_append.mpr ⟨?_, List.pairwise_singleton _ _,
      fun x hx y _ hlost => absurd hlost.isAppend (hpre x hx)⟩
    exact List.pairwise_of_forall_mem_list (fun x _ y hy _ => hpre y hy)
  · exact List.pairwise_of_forall_mem_list (fun x hx y _ hx' => absurd ⟨x, hx, hx'⟩ hlost)

/-- **After a lost race no attempt appends**, and the call ends as it must. -/
theorem Tries.lost (h : Tries K R sid m now v u n s es q) :
    es.Pairwise NoneAfterLost ∧
      ((∃ e ∈ es, LostRace e) → ∀ r, q = .ret r → ∃ err, r = .error err ∧ GivesUp R sid es err) := by
  induction h with
  | running hpass =>
    refine ⟨hpass.noneAfterLost, fun _ r hr => ?_⟩
    cases hr
  | ended hpass =>
    refine ⟨hpass.noneAfterLost, fun ⟨e, he, hlost⟩ r hr => ?_⟩
    obtain ⟨-, -, err, herr, hconflict⟩ := hpass.lost he hlost
    cases herr
    cases hr
    refine ⟨_, rfl, .inl ?_⟩
    rw [is_surface]
    exact beq_iff_eq.mpr hconflict
  | pausing hpass =>
    refine ⟨hpass.noneAfterLost, fun _ r hr => ?_⟩
    cases hr
  | @cancelled n s t t' es err x hpass =>
    refine ⟨List.pairwise_append.mpr ⟨hpass.noneAfterLost, List.pairwise_singleton _ _,
      fun e he e' he' _ => ?_⟩, fun _ r hr => ?_⟩
    · rw [List.mem_singleton.mp he']
      exact not_isAppend_sleep
    · cases hr
      exact ⟨_, rfl, .inr (.inl ⟨x, rfl, _, List.mem_append_right _ (List.mem_singleton.mpr rfl),
        rfl⟩)⟩
  | @again n s t t' es es' err q hpass hretried hrest ih =>
    have hsub : ∀ e ∈ es', e ∈ es ++ ⟨.sleep (n + 1), t, t', none⟩ :: es' :=
      fun e he => List.mem_append_right _ (List.mem_cons_of_mem _ he)
    -- what a lost race leaves to the attempts after it
    have hbeyond : ∀ e ∈ es, LostRace e → v.toNat < (K.rows t.store sid).length :=
      fun e he hlost => (hpass.lost he hlost).2.1
    refine ⟨List.pairwise_append.mpr ⟨hpass.noneAfterLost,
      List.pairwise_cons.mpr ⟨fun e _ hlost => absurd hlost.isAppend not_isAppend_sleep, ih.1⟩,
      fun e he e' he' hlost => ?_⟩, fun ⟨e, he, hlost⟩ r hr => ?_⟩
    · rcases List.mem_cons.mp he' with rfl | he'
      · exact not_isAppend_sleep
      · exact (hrest.beyond (hbeyond e he hlost)).1 e' he'
    · have hends : ∃ err, r = .error err ∧ GivesUp R sid es' err := by
        rcases List.mem_append.mp he with he | he
        · exact (hrest.beyond (hbeyond e he hlost)).2 (Nat.succ_pos n) r hr
        rcases List.mem_cons.mp he with rfl | he
        · exact absurd hlost.isAppend not_isAppend_sleep
        · exact ih.2 ⟨e, he, hlost⟩ r hr
      obtain ⟨err, herr, hgives⟩ := hends
      exact ⟨err, herr, hgives.mono hsub⟩

/-- **A stream found at another version** ends the call with a `ConflictError`: nothing follows the
read. -/
theorem Tries.foundElsewhere (h : Tries K R sid m now v u n s es q) (he : e ∈ es)
    (hfound : FoundElsewhere K R sid v e) :
    ∃ pre attempt current, es = pre ++ [e] ∧ (∀ x ∈ pre, ¬ FoundElsewhere K R sid v x) ∧
      q = .ret (.error (Runtime.surface attempt (.conflict sid v current))) ∧
      current.toNat = (K.rows e.before.store sid).length := by
  have hsleep : ∀ {k : Nat} {t t' : Shared σ} {x : Option Foreign},
      ¬ FoundElsewhere K R sid v (⟨.sleep k, t, t', x⟩ : Entry σ) := by
    rintro k t t' x ⟨n, t₁, t₁', reply, acc, acc', heq, -⟩
    cases heq
  -- an attempt that found another version is not retried
  have hretry : ∀ {s t : Shared σ} {es : List (Entry σ)} {err : HandleError},
      Pass K R sid m now v s t es (.ret (.error err)) → Retried err →
      ∀ x ∈ es, ¬ FoundElsewhere K R sid v x := by
    intro s t es err hpass hretried x hx hfound
    obtain ⟨look, current, -, -, hq, -⟩ := hpass.foundElsewhere hx hfound
    cases hq
    cases hretried.2
  induction h with
  | running hpass =>
    obtain ⟨look, current, -, -, hq, -⟩ := hpass.foundElsewhere he hfound
    cases hq
  | @ended n s es r hpass =>
    obtain ⟨look, current, hes, hlook, hq, hlen⟩ := hpass.foundElsewhere he hfound
    cases hq
    exact ⟨look, n, current, hes, fun x hx hx' => hx'.not_isLook (hlook x hx), rfl, hlen⟩
  | pausing hpass hretried => exact absurd hfound (hretry hpass hretried e he)
  | cancelled hpass hretried =>
    rcases List.mem_append.mp he with he | he
    · exact absurd hfound (hretry hpass hretried e he)
    · rw [List.mem_singleton.mp he] at hfound
      exact absurd hfound hsleep
  | @again n s t t' es es' err q hpass hretried hrest ih =>
    have hfirst := hretry hpass hretried
    rcases List.mem_append.mp he with he | he
    · exact absurd hfound (hfirst e he)
    rcases List.mem_cons.mp he with rfl | he
    · exact absurd hfound hsleep
    · obtain ⟨pre, attempt, current, rfl, hpre, hq, hlen⟩ := ih he
      refine ⟨es ++ ⟨.sleep (n + 1), t, t', none⟩ :: pre, attempt, current, ?_, ?_, hq, hlen⟩
      · rw [List.append_assoc, List.cons_append]
      · exact List.forall_mem_append.mpr ⟨hfirst, List.forall_mem_cons.mpr ⟨hsleep, hpre⟩⟩

/-- **A call that succeeds** starts from the asserted version, and its events are the ones after it. -/
theorem Tries.success {result : Result S E} (h : Tries K R sid m now v u n s es q)
    (hq : q = .ret (.ok result)) :
    result.fromVersion = v ∧ result.toVersion.toNat = v.toNat + result.events.length ∧
      EventsAfter K R sid v result.events u.store := by
  induction h with
  | running hpass => cases hq
  | @ended n s es r hpass =>
    obtain rfl : r = .ok result := mapError_eq_ok (Prog.ret.inj hq)
    exact hpass.success
  | pausing hpass => cases hq
  | cancelled hpass => cases hq
  | again hpass hretried hrest ih => exact ih hq

end Tries

/-! ## What `Decide` is asked -/

/-- The runtime with another `Decide`. -/
def Runtime.deciding (R : Runtime S C E) (d : S → C → Except Foreign (List E × List ConstraintOp)) :
    Runtime S C E :=
  { R with decider := { R.decider with decide := d } }

section Deciding

variable {d : S → C → Except Foreign (List E × List ConstraintOp)} {sid : StreamID} {cmd : C} {m : Meta}
  {now : Time} {v : UInt64}

theorem foldEnvelopes_deciding {R : Runtime S C E} {envs : List Envelope} :
    foldEnvelopes (R.deciding d).toModel sid checker acc envs =
      foldEnvelopes R.toModel sid checker acc envs := by
  induction envs generalizing checker acc with
  | nil => rfl
  | cons env envs ih =>
    simp only [foldEnvelopes, ih]
    rfl

/-- A load does not depend on `Decide`. -/
theorem load_deciding (R : Runtime S C E) :
    ((R.deciding d).load sid 0 .zero).run = (R.load sid 0 .zero).run := by
  have hfold : ∀ acc, (R.deciding d).foldRead sid 0 acc = R.foldRead sid 0 acc := by
    intro acc
    funext r
    simp only [Runtime.foldRead, foldEnvelopes_deciding]
    rfl
  cases hc : R.snapshots with
  | none =>
    rw [load_uncached hc, load_uncached (show (R.deciding d).snapshots = none from hc), hfold]
    rfl
  | some c =>
    rw [load_cached hc, load_cached (show (R.deciding d).snapshots = some c from hc)]
    simp only [hfold]
    rfl

/-- **What is done with a load** depends on `Decide` only if the asserted version was loaded, and then only
on what it says of the loaded state. -/
theorem onLoaded_deciding {R : Runtime S C E} (hv : v ≠ 0)
    (hagree : ∀ state, r = .ok (state, v) → d state cmd = R.decider.decide state cmd) :
    (R.deciding d).onLoaded sid cmd m now v {} r = R.onLoaded sid cmd m now v {} r := by
  cases r with
  | error err => rfl
  | ok acc =>
    obtain ⟨state, version⟩ := acc
    have hcommit : ∀ decision, (R.deciding d).commit sid m now {} state version decision =
        R.commit sid m now {} state version decision := fun decision => by cases decision <;> rfl
    have hdecide : (R.deciding d).decideOn sid cmd v state version =
        R.decideOn sid cmd v state version := by
      unfold Runtime.decideOn
      by_cases hversion : version = v
      · subst hversion
        rw [show (R.deciding d).decider.decide state cmd = R.decider.decide state cmd from
          hagree state rfl]
        rfl
      · rw [if_pos ⟨hv, hversion⟩, if_pos ⟨hv, hversion⟩]
    simp only [Runtime.onLoaded, hdecide]
    cases R.decideOn sid cmd v state version with
    | error err => rfl
    | ok decision => exact congrArg ExceptT.run (hcommit decision)

variable {St : EventStore σ κ} {K : St.Contract} {R : ι → Runtime S C E} {i : ι} {s u : Shared σ}
  {es : List (Entry σ)} {q : Prog Op Res (Except HandleError (Result S E))}

/-- **An attempt asks `Decide`** only about the state after the asserted version. -/
theorem handleOnce_deciding (hv : v ≠ 0)
    (hagree : ∀ state cmd, Seeds K (R i).toModel sid (state, v) u.store →
      d state cmd = (R i).decider.decide state cmd)
    (hperf : Performs es ((R i).handleOnce sid cmd m now v {}).run q)
    (hchain : (cacheLogic K R).Chain (execShared St) s es u) :
    ∃ q', Performs es (((R i).deciding d).handleOnce sid cmd m now v {}).run q' ∧ q'.move = q.move := by
  rw [Runtime.run_handleOnce] at hperf ⊢
  rw [load_deciding]
  rcases hperf.of_bind with ⟨o, k, hk, rfl⟩ | ⟨es₁, es₂, r, rfl, hr, hrest⟩
  · exact ⟨_, hk.bind _, rfl⟩
  · obtain ⟨t₁, hchain₁, hchain₂⟩ := chain_append.mp hchain
    refine ⟨q, (hr.bind _).append ?_, rfl⟩
    rw [← onLoaded_deciding hv (d := d)] at hrest
    · exact hrest
    · intro state hstate
      rcases load_cases hr hchain₁ with ⟨-, o, k, hret⟩ | ⟨t, r', hload, hret⟩
      · cases hret
      cases hret
      exact hagree state cmd (((hload.loaded _ hstate).1.mono hload.grows).mono hchain₂.le)

/-- **All attempts of a call ask `Decide`** only about the state after the asserted version. -/
theorem attempts_deciding (hv : v ≠ 0)
    (hagree : ∀ state cmd, Seeds K (R i).toModel sid (state, v) u.store →
      d state cmd = (R i).decider.decide state cmd) {n left : Nat}
    (hperf : Performs es (Runtime.attempts ((R i).handleOnce sid cmd m now v {}) n left) q)
    (hchain : (cacheLogic K R).Chain (execShared St) s es u) :
    ∃ q', Performs es
        (Runtime.attempts (((R i).deciding d).handleOnce sid cmd m now v {}) n left) q' ∧
      q'.move = q.move := by
  have hpass : ∀ {es : List (Entry σ)} {s t : Shared σ}
      {q : Prog Op Res (Except HandleError (Result S E))},
      Performs es ((R i).handleOnce sid cmd m now v {}).run q →
      (cacheLogic K R).Chain (execShared St) s es t → K.le t.store u.store →
      ∃ q', Performs es (((R i).deciding d).handleOnce sid cmd m now v {}).run q' ∧ q'.move = q.move :=
    fun hp hc hle => handleOnce_deciding hv hagree hp (hc.mono hle)
  induction left generalizing n s es with
  | zero =>
    obtain ⟨p', hp', rfl⟩ := Performs.of_map hperf
    obtain ⟨q', hq', hmove⟩ := hpass hp' hchain ((cacheLogic K R).refl u)
    exact ⟨_, hq'.bind _, move_map hmove⟩
  | succ left ih =>
    rw [attempts_succ] at hperf ⊢
    rcases hperf.of_bind with ⟨o, k, hk, rfl⟩ | ⟨es₁, es₂, r, rfl, hr, hrest⟩
    · obtain ⟨q', hq', hmove⟩ := hpass hk hchain ((cacheLogic K R).refl u)
      obtain ⟨k', rfl⟩ := eq_call_of_move hmove
      exact ⟨_, hq'.bind _, rfl⟩
    obtain ⟨t₁, hchain₁, hchain₂⟩ := chain_append.mp hchain
    obtain ⟨q', hq', hmove⟩ := hpass hr hchain₁ hchain₂.le
    obtain rfl := eq_ret_of_move hmove
    cases r with
    | ok res => exact ⟨q, (hq'.bind _).append hrest, rfl⟩
    | error err =>
      by_cases hretried : Retried err
      · rw [afterPass_retried hretried] at hrest
        have hfirst := (hq'.bind (afterPass n
          (Runtime.attempts (((R i).deciding d).handleOnce sid cmd m now v {}) (n + 1) left)))
        rw [ret_bind, afterPass_retried hretried] at hfirst
        rcases performs_call.mp hrest with ⟨rfl, rfl⟩ | ⟨t, t', x, rest, rfl, hend⟩
        · rw [List.append_nil]
          exact ⟨_, hfirst, rfl⟩
        cases x with
        | some x => exact ⟨q, hfirst.append ⟨_, rfl, hend⟩, rfl⟩
        | none =>
          obtain ⟨-, -, -, -, hafter⟩ := chain_cons.mp hchain₂
          obtain ⟨q', hq', hmove⟩ := ih hend hafter
          exact ⟨q', hfirst.append ⟨_, rfl, hq'⟩, hmove⟩
      · rw [afterPass_ended hretried] at hrest
        refine ⟨q, (hq'.bind _).append ?_, rfl⟩
        rw [ret_bind, afterPass_ended hretried]
        exact hrest

end Deciding

/-! ## A whole call -/

/-- The command is returned with the result. -/
def withCommand (cmd : C) (r : Except HandleError (Result S E)) : Except HandleError (C × Result S E) :=
  r.map (fun res => (cmd, res))

/-- The metadata of all attempts, with the id of the command. -/
def Meta.withID (m : Meta) (id : UUID) : Meta :=
  { m with commandID := id, correlationID := if m.correlationID = .zero 16 then id else m.correlationID }

/-- Fill in the ids, and go on. -/
def filled (m : Meta) (k : Meta → Prog Op Res (Except HandleError (C × Result S E))) :
    Prog Op Res (Except HandleError (C × Result S E)) :=
  if m.commandID = .zero 16 then .call .newV7 (fun id => k (Meta.withID m id))
  else k (Meta.withID m m.commandID)

/-- Go on with a stamped command. -/
def stamped (m : Meta) (tries : C → Meta → Prog Op Res (Except HandleError (Result S E))) :
    Except HandleError C → Prog Op Res (Except HandleError (C × Result S E))
  | .error err => .ret (.error err)
  | .ok cmd => filled m (fun m => tries cmd m >>= fun r => .ret (withCommand cmd r))

/-- A call is the clock, the stamp, the ids, and then its attempts. -/
def Runtime.called (R : Runtime S C E) (cmd : C) (m : Meta)
    (tries : Time → C → Meta → Prog Op Res (Except HandleError (Result S E))) :
    Prog Op Res (Except HandleError (C × Result S E)) :=
  .call .timeNow (fun now => stamped m (tries now) (R.stampCommand now cmd))

theorem run_handleAt (R : Runtime S C E) (sid : StreamID) (cmd : C) (m : Meta) (v : UInt64)
    (ho : HandleOptions) : (R.handleAt sid cmd m v ho).run = R.called cmd m (fun now cmd m =>
      Runtime.attempts (R.handleOnce sid cmd m now v ho) 0 R.retries) := by
  have hresult : ∀ (cmd : C) (p : Prog Op Res (Except HandleError (Result S E))),
      (ExceptT.mk p >>= fun res => (pure (cmd, res) : Act HandleError (C × Result S E))).run =
        p >>= fun r => .ret (withCommand cmd r) := by
    intro cmd p
    show p >>= _ = p >>= _
    congr 1
    funext r
    cases r <;> rfl
  unfold Runtime.handleAt Runtime.called
  show Prog.call _ _ = Prog.call _ _
  congr 1
  funext now
  change (ofResult (R.stampCommand now cmd) >>= fun cmd => Runtime.fillMeta m >>= fun m =>
    ExceptT.mk (Runtime.attempts (R.handleOnce sid cmd m now v ho) 0 R.retries) >>= fun res =>
      pure (cmd, res) : Act HandleError (C × Result S E)).run = _
  cases R.stampCommand now cmd with
  | error err => rfl
  | ok cmd' =>
    rw [stamped, filled]
    unfold Runtime.fillMeta
    by_cases hid : m.commandID = .zero 16
    · rw [if_pos hid, if_pos hid]
      exact congrArg (Prog.call Op.newV7) (funext fun id => hresult cmd' _)
    · rw [if_neg hid, if_neg hid]
      exact hresult cmd' _

/-- It reads the clock or takes a fresh id. -/
def IsPrelude (e : Entry σ) : Prop := e.op = .timeNow ∨ e.op = .newV7

section Called

variable {R : Runtime S C E} {cmd : C} {m : Meta} {es : List (Entry σ)}
  {tries : Time → C → Meta → Prog Op Res (Except HandleError (Result S E))}
  {q : Prog Op Res (Except HandleError (C × Result S E))}

/-- **What a call does before its attempts**: it is not through with it, or has failed; or the attempts
perform the rest of the history. Either way it does not depend on the attempts. -/
theorem called_cases (hperf : Performs es (R.called cmd m tries) q) :
    ((∀ e ∈ es, IsPrelude e) ∧ (∀ r, q = .ret r → ∃ err, r = .error err) ∧
      ∀ tries', ∃ q', Performs es (R.called cmd m tries') q' ∧ q'.move = q.move) ∨
    ∃ pre es' now cmd' m' p, es = pre ++ es' ∧ (∀ e ∈ pre, IsPrelude e) ∧
      Performs es' (tries now cmd' m') p ∧ q = p >>= (fun r => .ret (withCommand cmd' r)) ∧
      ∀ tries' p', Performs es' (tries' now cmd' m') p' →
        Performs es (R.called cmd m tries') (p' >>= (fun r => .ret (withCommand cmd' r))) := by
  rcases performs_call.mp hperf with ⟨rfl, rfl⟩ | ⟨t, t', now, rest, rfl, hrest⟩
  · refine .inl ⟨fun e he => absurd he List.not_mem_nil, fun r hr => ?_, fun tries' => ⟨_, rfl, rfl⟩⟩
    cases hr
  have hclock : ∀ e ∈ [(⟨.timeNow, t, t', now⟩ : Entry σ)], IsPrelude e :=
    List.forall_mem_singleton.mpr (.inl rfl)
  have hgo : ∀ {es q} tries', Performs es (stamped m (tries' now) (R.stampCommand now cmd)) q →
      Performs (⟨.timeNow, t, t', now⟩ :: es) (R.called cmd m tries') q :=
    fun tries' h => ⟨_, rfl, h⟩
  cases hcmd : R.stampCommand now cmd with
  | error err =>
    rw [hcmd] at hrest hgo
    obtain ⟨rfl, rfl⟩ := performs_ret.mp hrest
    refine .inl ⟨hclock, fun r hr => ?_, fun tries' => ⟨_, hgo tries' rfl, rfl⟩⟩
    cases hr
    exact ⟨err, rfl⟩
  | ok cmd' =>
    rw [hcmd] at hrest hgo
    simp only [stamped] at hrest hgo
    by_cases hid : m.commandID = .zero 16
    · simp only [filled, if_pos hid] at hrest hgo
      rcases performs_call.mp hrest with ⟨rfl, rfl⟩ | ⟨t₁, t₁', id, rest, rfl, hend⟩
      · refine .inl ⟨hclock, fun r hr => ?_, fun tries' => ⟨_, hgo tries' rfl, rfl⟩⟩
        cases hr
      · obtain ⟨p, hp, rfl⟩ := Performs.of_map hend
        refine .inr ⟨[⟨.timeNow, t, t', now⟩, ⟨.newV7, t₁, t₁', id⟩], rest, now, cmd', _, p, rfl,
          List.forall_mem_cons.mpr ⟨.inl rfl, List.forall_mem_singleton.mpr (.inr rfl)⟩, hp, rfl,
          fun tries' p' hp' => hgo tries' ⟨_, rfl, hp'.bind _⟩⟩
    · simp only [filled, if_neg hid] at hrest hgo
      obtain ⟨p, hp, rfl⟩ := Performs.of_map hrest
      exact .inr ⟨[⟨.timeNow, t, t', now⟩], rest, now, cmd', _, p, rfl, hclock, hp, rfl,
        fun tries' p' hp' => hgo tries' (hp'.bind _)⟩

end Called

/-! ## A call ends -/

theorem within_load (R : Runtime S C E) (sid : StreamID) : Within 2 (R.load sid 0 .zero).run := by
  cases hc : R.snapshots with
  | none =>
    rw [load_uncached hc]
    exact fun _ => trivial
  | some c =>
    rw [load_cached hc]
    exact fun _ _ => trivial

theorem within_onLoaded (R : Runtime S C E) (sid : StreamID) (cmd : C) (m : Meta) (now : Time)
    (v : UInt64) (r : Except LoadError (S × UInt64)) : Within 3 (R.onLoaded sid cmd m now v {} r) := by
  cases r with
  | error err => trivial
  | ok acc =>
    simp only [Runtime.onLoaded]
    cases R.decideOn sid cmd v acc.1 acc.2 with
    | error err => trivial
    | ok d =>
      cases d with
      | noop => trivial
      | append events encoded constraints =>
        intro r
        cases r with
        | error err => trivial
        | ok res =>
          have hsave : Within 2 (R.saveSnapshot sid (events.foldl R.decider.evolve acc.1) res.toVersion >>=
              fun _ => pure (⟨events.foldl R.decider.evolve acc.1, events, res.fromVersion,
                res.toVersion, res.envelopes⟩ : Result S E)).run := by
            rcases run_saveSnapshot_then R sid (events.foldl R.decider.evolve acc.1) res.toVersion _
              with hrun | ⟨snap, hrun, -⟩
            · rw [hrun]
              trivial
            · rw [hrun]
              exact fun _ _ => trivial
          exact hsave

/-- An attempt makes at most five calls. -/
theorem within_handleOnce (R : Runtime S C E) (sid : StreamID) (cmd : C) (m : Meta) (now : Time)
    (v : UInt64) : Within 5 (R.handleOnce sid cmd m now v {}).run := by
  rw [Runtime.run_handleOnce]
  exact (within_load R sid).bind (n := 3) (fun r => within_onLoaded R sid cmd m now v r)

/-- The attempts, with a pause after each but the last. -/
theorem within_attempts {once : Act HandleError (Result S E)} (honce : Within 5 once.run)
    (n left : Nat) : Within (6 * left + 5) (Runtime.attempts once n left) := by
  induction left generalizing n with
  | zero => exact honce.bind (n := 0) (fun _ => trivial)
  | succ left ih =>
    rw [attempts_succ, show 6 * (left + 1) + 5 = 5 + (6 * left + 5 + 1) by omega]
    refine honce.bind (fun r => ?_)
    cases r with
    | ok res => trivial
    | error err =>
      by_cases hretried : Retried err
      · rw [afterPass_retried hretried]
        intro x
        cases x with
        | none => exact ih (n + 1)
        | some x => exact (show Within 0 (Prog.ret _) from trivial).mono (Nat.zero_le _)
      · rw [afterPass_ended hretried]
        trivial

/-- **A call makes boundedly many calls.** -/
theorem within_handleAt (R : Runtime S C E) (sid : StreamID) (cmd : C) (m : Meta) (v : UInt64) :
    Within (6 * R.retries + 7) (R.handleAt sid cmd m v {}).run := by
  rw [run_handleAt]
  intro now
  show Within (6 * R.retries + 6) (stamped m _ (R.stampCommand now cmd))
  cases R.stampCommand now cmd with
  | error err => trivial
  | ok cmd' =>
    have hattempts : ∀ m', Within (6 * R.retries + 5)
        (Runtime.attempts (R.handleOnce sid cmd' m' now v {}) 0 R.retries >>=
          fun r => .ret (withCommand cmd' r)) :=
      fun m' => (within_attempts (within_handleOnce R sid cmd' m' now v) 0 R.retries).bind (n := 0)
        (fun _ => trivial)
    rw [stamped, filled]
    split
    · exact fun id => hattempts _
    · exact (hattempts _).mono (Nat.le_succ _)

/-! ## The assertion is honoured -/

/-- **What an asserted version means** for a call of `HandleAt` with the history `es`, of which `q` is left
to do in the state `s`. -/
structure HonoursVersion {St : EventStore σ κ} (K : St.Contract) (R : Runtime S C E) (sid : StreamID)
    (cmd : C) (info : Meta) (v : UInt64) (es : List (Entry σ))
    (q : Prog Op Res (Except HandleError (C × Result S E))) (s : Shared σ) : Prop where
  /-- `Decide` is only asked about the state after exactly the first `v` events: with any other answers
  about other states the call would have done the same. -/
  decides : ∀ d, (∀ state cmd, Seeds K R.toModel sid (state, v) s.store →
      d state cmd = R.decider.decide state cmd) →
    ∃ q', Performs es ((R.deciding d).handleAt sid cmd info v {}).run q' ∧ q'.move = q.move
  /-- A success starts from the asserted version, and its events are the ones after it. -/
  success : ∀ cmd' res, q = .ret (.ok (cmd', res)) → res.fromVersion = v ∧
    res.toVersion.toNat = v.toNat + res.events.length ∧ EventsAfter K R sid v res.events s.store
  /-- A stream that is found at another version ends the call with a `ConflictError`. -/
  stale : ∀ e ∈ es, FoundElsewhere K R sid v e → ∃ pre attempt current, es = pre ++ [e] ∧
    q = .ret (.error (Runtime.surface attempt (.conflict sid v current))) ∧
    current.toNat = (K.rows e.before.store sid).length
  /-- After a lost race nothing is appended. -/
  noneAfterLost : es.Pairwise NoneAfterLost
  /-- A call that lost the race ends with a conflict, unless its context is cancelled during a pause or the
  read of a later load fails. -/
  lost : (∃ e ∈ es, LostRace e) → ∀ r, q = .ret r → ∃ err, r = .error err ∧ GivesUp R sid es err
  /-- All appends are at the asserted version, with the same ids and the same time. -/
  carried : ∃ m now, ∀ e ∈ es, ∀ p, e.op = .append p →
    ∃ encoded constraints, p = Runtime.appendParams sid v encoded constraints m now
  /-- There are boundedly many calls, and none of them blocks. -/
  ends : es.length ≤ 6 * R.retries + 7 ∧ ∀ o k, q = .call o k → ∀ a t, (execShared St o a t).isSome

section Honours

variable {St : EventStore σ κ} {K : St.Contract} {R : ι → Runtime S C E} {i : ι} {sid : StreamID}
  {cmd : C} {info : Meta} {v : UInt64} {s u : Shared σ} {es : List (Entry σ)}
  {q : Prog Op Res (Except HandleError (C × Result S E))}

theorem not_isAppend_of_isPrelude (h : IsPrelude e) : ¬ IsAppend e := by
  rintro ⟨p, hp⟩
  rcases h with h | h
  · rw [h] at hp
    cases hp
  · rw [h] at hp
    cases hp

theorem FoundElsewhere.not_isPrelude {R : Runtime S C E} (h : FoundElsewhere K R sid v e) :
    ¬ IsPrelude e := by
  obtain ⟨n, t, t', reply, acc, acc', rfl, -⟩ := h
  rintro (hop | hop)
  · cases hop
  · cases hop

/-- No call of a runtime blocks. -/
theorem execShared_isSome (o : Op) (a : Answer κ) (t : Shared σ) : (execShared St o a t).isSome := by
  cases o <;> rfl

/-- The result of the attempts, when the call has returned. -/
theorem eq_ret_of_withCommand {p : Prog Op Res (Except HandleError (Result S E))} {cmd' : C}
    {r : Except HandleError (C × Result S E)} (h : (p >>= fun r => (.ret (withCommand cmd' r) :
      Prog Op Res (Except HandleError (C × Result S E)))) = .ret r) :
    ∃ r', p = .ret r' ∧ r = withCommand cmd' r' := by
  cases p with
  | ret r' => exact ⟨r', rfl, (Prog.ret.inj h).symm⟩
  | call o k => cases h

/-- **Every history of `HandleAt` honours the version.** -/
theorem honours_of_performs (hK : K.ReportsVersions) (hcodec : RoundTrips (R i).toModel) (hv : v ≠ 0)
    (hperf : Performs es ((R i).handleAt sid cmd info v {}).run q)
    (hchain : (cacheLogic K R).Chain (execShared St) s es u) :
    HonoursVersion K (R i) sid cmd info v es q u := by
  have hends : es.length ≤ 6 * (R i).retries + 7 ∧
      ∀ o k, q = .call o k → ∀ a t, (execShared St o a t).isSome :=
    ⟨hperf.length_le (within_handleAt (R i) sid cmd info v), fun o _ _ a t => execShared_isSome o a t⟩
  rw [run_handleAt] at hperf
  rcases called_cases hperf with ⟨hpre, herr, hany⟩ |
    ⟨pre, es', now, cmd', m', p, rfl, hpre, htries, rfl, hgo⟩
  · -- no attempt was made
    have hnot : ∀ e ∈ es, ¬ IsAppend e := fun e he => not_isAppend_of_isPrelude (hpre e he)
    refine ⟨fun d _ => ?_, fun cmd' res hq => ?_, fun e he hfound => ?_, ?_, ?_, ?_, hends⟩
    · rw [run_handleAt]
      exact hany _
    · obtain ⟨err, herr⟩ := herr _ hq
      cases herr
    · exact absurd (hpre e he) hfound.not_isPrelude
    · exact List.pairwise_of_forall_mem_list (fun x _ y hy _ => hnot y hy)
    · rintro ⟨e, he, hlost⟩
      exact absurd hlost.isAppend (hnot e he)
    · exact ⟨info, .zero, fun e he p hp => absurd ⟨p, hp⟩ (hnot e he)⟩
  · obtain ⟨t, hchain₁, hchain₂⟩ := chain_append.mp hchain
    have hspec := tries_of_performs hK hcodec hv htries hchain₂
    have hnot : ∀ e ∈ pre, ¬ IsAppend e := fun e he => not_isAppend_of_isPrelude (hpre e he)
    refine ⟨fun d hagree => ?_, fun cmd'' res hq => ?_, fun e he hfound => ?_, ?_, ?_, ?_, hends⟩
    · obtain ⟨p', hp', hmove⟩ := attempts_deciding hv hagree htries hchain₂
      rw [run_handleAt]
      exact ⟨_, hgo _ p' hp', move_map hmove⟩
    · obtain ⟨r', rfl, hr'⟩ := eq_ret_of_withCommand hq
      cases r' with
      | error err => cases hr'
      | ok res' =>
        cases hr'
        exact hspec.success rfl
    · rcases List.mem_append.mp he with he | he
      · exact absurd (hpre e he) hfound.not_isPrelude
      obtain ⟨pre', attempt, current, rfl, -, rfl, hlen⟩ := hspec.foundElsewhere he hfound
      exact ⟨pre ++ pre', attempt, current, (List.append_assoc ..).symm, rfl, hlen⟩
    · refine List.pairwise_append.mpr ⟨?_, hspec.lost.1,
        fun x hx y _ hlost => absurd hlost.isAppend (hnot x hx)⟩
      exact List.pairwise_of_forall_mem_list (fun x _ y hy _ => hnot y hy)
    · rintro ⟨e, he, hlost⟩ r hq
      obtain ⟨r', rfl, rfl⟩ := eq_ret_of_withCommand hq
      have he' : e ∈ es' := (List.mem_append.mp he).resolve_left (fun h => hnot e h hlost.isAppend)
      obtain ⟨err, rfl, hgives⟩ := hspec.lost.2 ⟨e, he', hlost⟩ r' rfl
      exact ⟨err, rfl, hgives.mono (fun x hx => List.mem_append_right _ hx)⟩
    · exact ⟨m', now, List.forall_mem_append.mpr
        ⟨fun e he p hp => absurd ⟨p, hp⟩ (hnot e he), hspec.appends⟩⟩

end Honours

/-- Snapshots stay right among other writers. -/
theorem right_contended (hsame : SameFold R) (hstates : StatesRoundTrip R)
    (hcodec : ∀ i, RoundTrips (R i).toModel) (c : Request ι C) (s : Shared σ) (hc : c.viaStore = true) :
    (cacheLogic K R).WP (contendedRuntimes R St) (fun _ _ => True) ((contendedRuntimes R St).prog c) s := by
  refine wp_program (fun _ _ _ _ h => h) hsame hstates hcodec c (fun hown => ?_) s
  rw [hc] at hown
  cases hown

/-- **A version that the caller asserts is honoured under every race.** Take any number of runtimes over one
store, which keeps the contract of a store and reports versions as it should, and one snapshot cache, which
is empty at the start. Let any number of loads and of commands, which append through the store, and of
appends by other writers run interleaved. At any point let a `HandleAt` be called that asserts a version
`v ≠ 0`, with any retry budget. Then, at every later point, the calls that it has made, what is left of it
and what it has returned are as `HonoursVersion` says. -/
theorem handleAt_honours_version {R : ι → Runtime S C E} {St : EventStore σ κ} (K : St.Contract)
    (hK : K.ReportsVersions) (hsame : SameFold R) (hcodec : ∀ i, RoundTrips (R i).toModel)
    (hstates : StatesRoundTrip R) {s₀ : σ} (hs₀ : K.inv s₀)
    {as bs : List (PoolAction (Request ι C) (Answer κ) (OtherStep R κ))}
    {P P₁ P' : Pool (Shared σ) (Request ι C) Op Res (Reply S C E)}
    (hrun : GuardedRun (contendedRuntimes R St).step ViaStore (Pool.start ⟨s₀, fun _ => none, []⟩) as P)
    {j : Nat} {i : ι} {sid : StreamID} {cmd : C} {info : Meta} {v : UInt64} (hv : v ≠ 0)
    (hcall : (contendedRuntimes R St).step P (.spawn j ⟨i, sid, .handle cmd info (some v) {}⟩) = some P₁)
    (hrun' : GuardedRun (contendedRuntimes R St).step ViaStore P₁ bs P') :
    ∃ q, P'.At j ⟨i, sid, .handle cmd info (some v) {}⟩ (q >>= fun r => .ret (.handled r)) ∧
      HonoursVersion K (R i) sid cmd info v ((contendedRuntimes R St).history j P₁ bs) q P'.shared := by
  have henv : ∀ e s s', (cacheLogic K R).inv s → (contendedRuntimes R St).env e s = some s' →
      (cacheLogic K R).inv s' ∧ (cacheLogic K R).le s s' := fun e s s' hs h => right_otherStep e hs h
  have hprog : ∀ c s, (cacheLogic K R).inv s → c.viaStore = true → (cacheLogic K R).WP
      (contendedRuntimes R St) (fun _ _ => True) ((contendedRuntimes R St).prog c) s :=
    fun c s _ hc => right_contended hsame hstates hcodec c s hc
  have hsound : (cacheLogic K R).Sound (contendedRuntimes R St) (fun _ _ _ => True)
      (Pool.start ⟨s₀, fun _ => none, []⟩) := Sound.start (rightCache_empty R hs₀)
  obtain ⟨hP, -⟩ := run_sound henv hprog hrun hsound
  have hallows : ViaStore P (.spawn j ⟨i, sid, .handle cmd info (some v) {}⟩ :
      PoolAction (Request ι C) (Answer κ) (OtherStep R κ)) := rfl
  obtain ⟨hP₁, -⟩ := hP.step henv hprog hallows hcall
  obtain ⟨q, hperf, hat', hchain⟩ := history_of_run henv hprog hrun' hP₁
    (System.at_of_spawn hcall)
  obtain ⟨q', hperf', rfl⟩ := Performs.of_map hperf
  exact ⟨q', hat', honours_of_performs hK (hcodec i) hv hperf' hchain⟩

/-- An append of the second event of `counter:main`, by another writer. -/
def incrementElsewhere (R : ι → Runtime S C E) : OtherStep R Sqlite.StoreChoice :=
  .append ⟨⟨⟨0⟩, ⟨0⟩, fun _ => .fill 16 8⟩, none⟩ (Runtime.appendParams counterMain 1
    [⟨.zero 16, str "counter.v1.Incremented", 1, some [1]⟩] [] increment.info ⟨0⟩)

/-- A command on `counter:main` that asserts version 1. -/
def assertedIncrement : Request Unit Unit := ⟨(), counterMain, .handle () increment.info (some 1) {}⟩

/-- A first command, which leaves the stream at version 1. -/
def firstIncrement (R : Unit → Runtime Nat Unit Unit) :
    List (PoolAction (Request Unit Unit) (Answer Sqlite.StoreChoice) (OtherStep R Sqlite.StoreChoice)) :=
  .spawn 0 incrementRequest :: List.replicate 7 (.step 0 (quietAnswer 9 true))

/-- The stream is at version 1 when it is loaded, and at version 2 when the command is to append; after the
pause it is loaded again, with the answer `reload` of the store. -/
def overtaken (R : Unit → Runtime Nat Unit Unit) (reload : Answer Sqlite.StoreChoice) :
    List (PoolAction (Request Unit Unit) (Answer Sqlite.StoreChoice) (OtherStep R Sqlite.StoreChoice)) :=
  List.replicate 4 (.step 1 (quietAnswer 1 true)) ++ .env (incrementElsewhere R) ::
    List.replicate 3 (.step 1 (quietAnswer 1 true)) ++ [.step 1 reload]

/-- The errors that calls have returned. -/
def Reply.error? : Reply S C E → Option HandleError
  | .handled (.error err) => some err
  | _ => none

/-- The counter over the SQLite store. -/
abbrev contendedCounter :=
  contendedRuntimes (fun _ : Unit => cachedCounter) (Sqlite.distinctStore storeText 0)

/-- A call that is overtaken ends with a `ConflictError`. -/
theorem handleAt_honours_version_overtaken :
    ∃ P P₁ P', GuardedRun contendedCounter.step ViaStore (Pool.start ⟨.empty, fun _ => none, []⟩)
        (firstIncrement _) P ∧
      contendedCounter.step P (.spawn 1 assertedIncrement) = some P₁ ∧
      GuardedRun contendedCounter.step ViaStore P₁ (overtaken _ (quietAnswer 1 true)) P' ∧
      P'.finished.filterMap (fun x => x.2.2.error?) = [.exhausted 2 (.conflict counterMain 1 2)] ∧
      ∃ q, P'.At 1 assertedIncrement (q >>= fun r => .ret (.handled r)) ∧
        HonoursVersion (Sqlite.distinctContract documented_storeText 0) cachedCounter counterMain ()
          increment.info 1 (contendedCounter.history 1 P₁ (overtaken _ (quietAnswer 1 true))) q
          P'.shared := by
  obtain ⟨P', hrun, hfinished⟩ :
      ∃ P', GuardedRun contendedCounter.step ViaStore (Pool.start ⟨.empty, fun _ => none, []⟩)
          (firstIncrement _ ++ .spawn 1 assertedIncrement :: overtaken _ (quietAnswer 1 true)) P' ∧
        P'.finished.filterMap (fun x => x.2.2.error?) = [.exhausted 2 (.conflict counterMain 1 2)] :=
    exists_guardedRun (by decide +kernel)
  obtain ⟨P, hfirst, -, P₁, hcall, hrun'⟩ := guardedRun_append.mp hrun
  exact ⟨P, P₁, P', hfirst, hcall, hrun', hfinished,
    handleAt_honours_version (Sqlite.distinctContract documented_storeText 0)
      (Sqlite.reportsVersions_distinct documented_storeText 0) sameFold_cachedCounter
      (fun _ => roundTrips_counter) statesRoundTrip_cachedCounter ⟨[], Sqlite.written_empty storeText⟩
      hfirst (by decide) hcall hrun'⟩

/-- The database fails. -/
def failingAnswer : Answer Sqlite.StoreChoice :=
  { quietAnswer 1 true with store := ⟨⟨⟨0⟩, ⟨0⟩, fun _ => .fill 16 1⟩, some (str "disk I/O error")⟩ }

/-- The database fails when the stream is loaded again. -/
def overtakenThenFailing :
    List (PoolAction (Request Unit Unit) (Answer Sqlite.StoreChoice)
      (OtherStep (fun _ : Unit => cachedCounter) Sqlite.StoreChoice)) :=
  firstIncrement _ ++ .spawn 1 assertedIncrement :: overtaken _ failingAnswer

/-- **A lost race that does not end with a conflict.** The call has lost the race, its context was not
cancelled during the pause, and the error that it returns does not match `ErrConflict`. -/
theorem lost_race_ends_with_load_error :
    (∃ e ∈ contendedCounter.history 1 (Pool.start ⟨.empty, fun _ => none, []⟩) overtakenThenFailing,
      LostRace e) ∧
    (∀ e ∈ contendedCounter.history 1 (Pool.start ⟨.empty, fun _ => none, []⟩) overtakenThenFailing,
      pauseError e.op e.reply = none) ∧
    ∃ P, runActions contendedCounter.step (Pool.start ⟨.empty, fun _ => none, []⟩) overtakenThenFailing =
        some P ∧
      P.finished.filterMap (fun x => x.2.2.error?) =
        [.exhausted 2 (.load (.store (.backend (str "disk I/O error"))))] ∧
      ∀ err ∈ P.finished.filterMap (fun x => x.2.2.error?), err.is .conflict = false := by
  refine ⟨?_, ?_, exists_run (by decide +kernel)⟩
  · decide +kernel
  · decide +kernel

end Aggregate

end EsLite
