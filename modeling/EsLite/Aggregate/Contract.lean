import EsLite.Sqlite.Readback

/-!
# The contract of a store

What `Store` promises to the runtimes that use it: a stream is a list of events that only grows, by
appends at its end, and a read returns the events after a version. Each backend is a way to keep this
contract; the SQLite store is one (`sqliteContract`).
-/

namespace EsLite

/-- The operations of a store that a runtime uses. A call can depend on more than its input and the
state of the store: on clocks, fresh ids and failures, which are in `κ`. -/
structure EventStore (σ κ : Type) where
  append : κ → AppendParams → σ → σ × Except AppendError AppendResult
  readStream : κ → StreamID → UInt64 → UInt64 → σ → Except StoreError (List Envelope)
  readStreamAsOf : κ → StreamID → Time → σ → Except StoreError (List Envelope)

variable {p : AppendParams} {envs : List Envelope} {sid : StreamID}

namespace EventStore

variable {σ κ : Type}

/-- The streams after an append of `p`: its events are at the end of its stream, which had the expected
version if there are any. -/
structure Appends (p : AppendParams) (rows rows' : StreamID → List Envelope) : Prop where
  other : ∀ sid, sid ≠ p.streamID → rows' sid = rows sid
  grows : ∃ new, rows' p.streamID = rows p.streamID ++ new ∧
    new.map Sqlite.encodedOf = p.events.map Sqlite.encodedData
  expected : p.events ≠ [] → (rows p.streamID).length = p.expectedVersion.toNat

/-- **The contract**: how the states of a store hold streams, and what the operations do to them. An
append that reports an error may have been committed. -/
structure Contract (St : EventStore σ κ) where
  /-- The states that the operations lead to. -/
  inv : σ → Prop
  /-- The events of a stream, in the order of their versions. -/
  rows : σ → StreamID → List Envelope
  versions : ∀ s sid, inv s → (rows s sid).map Envelope.versionNat = List.range' 1 (rows s sid).length
  read : ∀ k sid v s envs, inv s → St.readStream k sid v 0 s = .ok envs →
    sid.Valid ∧ envs = (rows s sid).drop v.toNat
  notFound : ∀ k sid v s, inv s → St.readStream k sid v 0 s = .error (.sentinel .streamNotFound) →
    sid.Valid ∧ rows s sid = []
  /-- The hash chain of a stream that is read is intact. -/
  verified : ∀ k sid s envs, inv s → St.readStream k sid 0 0 s = .ok envs →
    ((newChainChecker sid .zero).feed envs).2 = none
  append_inv : ∀ k p s, inv s → inv (St.append k p s).1
  append_rows : ∀ k p s, inv s →
    rows (St.append k p s).1 = rows s ∨ Appends p (rows s) (rows (St.append k p s).1)
  append_ok : ∀ k p s res, inv s → (St.append k p s).2 = .ok res →
    Appends p (rows s) (rows (St.append k p s).1) ∧
      res.toVersion.toNat = p.expectedVersion.toNat + p.events.length
  /-- Every event that is stored can be read back. -/
  readable : σ → Prop
  readable_append : ∀ k p s, inv s → readable (St.append k p s).1 → readable s
  /-- Then whether a read fails does not depend on the event at which it starts. -/
  reads : ∀ k sid s, inv s → readable s →
    (∃ err, ∀ v, (sid.Valid → v.toNat ≤ (rows s sid).length) →
      St.readStream k sid v 0 s = .error err) ∨
      ∀ v, v.toNat ≤ (rows s sid).length → ∃ envs, St.readStream k sid v 0 s = .ok envs

section Contract

variable {St : EventStore σ κ} (K : St.Contract)

/-- The streams only grow. -/
def Contract.le (s s' : σ) : Prop := ∀ sid, K.rows s sid <+: K.rows s' sid

/-- An append of no events changes nothing. -/
theorem Appends.of_nil (hnil : p.events = []) (rows : StreamID → List Envelope) :
    Appends p rows rows where
  other _ _ := rfl
  grows := ⟨[], (List.append_nil _).symm, by rw [hnil]; rfl⟩
  expected hne := absurd hnil hne

theorem Appends.le {rows rows' : StreamID → List Envelope} (h : Appends p rows rows') (sid : StreamID) :
    rows sid <+: rows' sid := by
  by_cases hsid : sid = p.streamID
  · subst hsid
    obtain ⟨new, hnew, -⟩ := h.grows
    exact ⟨new, hnew.symm⟩
  · exact ⟨[], by rw [List.append_nil, h.other sid hsid]⟩

theorem Contract.le_append (k : κ) (p : AppendParams) {s : σ} (hs : K.inv s) :
    K.le s (St.append k p s).1 := by
  intro sid
  rcases K.append_rows k p s hs with heq | happends
  · exact ⟨[], by rw [List.append_nil, heq]⟩
  · exact happends.le sid

end Contract

end EventStore

/-! ## SQLite -/

namespace Sqlite

/-- What is left open in a call of the store: the inputs of an append, and an error of the database. -/
structure StoreChoice where
  inputs : AppendInputs
  fault : Option Bytes

/-- The SQLite store; a call may fail without effect. -/
def sqliteStore (T : GoText) (maxPayloadBytes : Int) : EventStore Db StoreChoice where
  append k p db :=
    match k.fault with
    | some text => (db, .error (.backend text))
    | none =>
      match append T maxPayloadBytes k.inputs p db with
      | .error err => (db, .error err)
      | .ok (db', res) => (db', .ok res)
  readStream k sid fromVersion toVersion db :=
    match k.fault with
    | some text => .error (.backend text)
    | none => readStream T db.events sid fromVersion toVersion
  readStreamAsOf k sid asOf db :=
    match k.fault with
    | some text => .error (.backend text)
    | none => readStreamAsOf T db.events sid asOf

/-- What a read returns of a row: the scanned row. A row that does not scan is never returned; it stands
for its columns. -/
def viewRow (T : GoText) (r : EventRow) : Envelope :=
  match scanEnvelope T r with
  | .ok env => env
  | .error _ =>
    { unhashedRow ⟨[], []⟩ (UInt64.ofNat r.version.toNat) with
      typeURL := r.typeURL
      schemaVersion := UInt32.ofNat r.schemaVersion.toNat
      payload := some r.payload }

/-- A row stands for the encoded event and the version that it was written with. -/
theorem viewRow_eventRow (T : GoText) (e : Envelope) :
    encodedOf (viewRow T (eventRow T e)) = encodedOf e ∧
      (viewRow T (eventRow T e)).version = e.version := by
  unfold viewRow
  cases hscan : scanEnvelope T (eventRow T e) with
  | ok env => exact scanEnvelope_eventRow hscan
  | error err =>
    have hversion : UInt64.ofNat (e.version.toNat : Int).toNat = e.version := by
      rw [Int.toNat_natCast, UInt64.ofNat_toNat]
    have hschema : UInt32.ofNat (e.schemaVersion.toNat : Int).toNat = e.schemaVersion := by
      rw [Int.toNat_natCast, UInt32.ofNat_toNat]
    refine ⟨?_, hversion⟩
    simp only [encodedOf, eventRow, hschema, Option.getD_some]

theorem viewRow_eq {T : GoText} {r : EventRow} {env : Envelope} (h : scanEnvelope T r = .ok env) :
    viewRow T r = env := by
  rw [viewRow, h]

/-- Rows that are read are what they stand for. -/
theorem eq_map_viewRow {T : GoText} {rs : List EventRow} (h : scanAll (scanEnvelope T) rs = .ok envs) :
    envs = rs.map (viewRow T) := by
  rw [scanAll_eq_ok, ← List.forall₂_eq_eq_eq, List.forall₂_map_left_iff, List.forall₂_map_right_iff] at h
  rw [← List.forall₂_eq_eq_eq, List.forall₂_map_right_iff]
  exact h.flip.imp (fun env r hr => (viewRow_eq hr).symm)

/-- Every row of a read scans. -/
theorem scanEnvelope_of_scanAll {T : GoText} {rs : List EventRow}
    (h : scanAll (scanEnvelope T) rs = .ok envs) {r : EventRow} (hr : r ∈ rs) :
    scanEnvelope T r = .ok (viewRow T r) := by
  have hmem : scanEnvelope T r ∈ envs.map .ok := by
    rw [← scanAll_eq_ok.mp h]
    exact List.mem_map_of_mem hr
  obtain ⟨env, -, henv⟩ := List.mem_map.mp hmem
  rw [← henv, viewRow_eq henv.symm]

/-- The events after a version, in a stream that is numbered from `n + 1` on. -/
theorem versionRange_eq_drop_sub {n : Nat} {es : List Envelope}
    (h : es.map Envelope.versionNat = List.range' (n + 1) es.length) (v : UInt64) :
    versionRange v 0 es = es.drop (v.toNat - n) := by
  induction es generalizing n with
  | nil => rw [List.drop_nil, versionRange, List.filter_nil]
  | cons e es ih =>
    rw [List.map_cons, List.length_cons, List.range'_succ, List.cons.injEq] at h
    obtain ⟨hversion, hrest⟩ := h
    have htail := ih hrest
    by_cases hv : v < e.version
    · have hle : v.toNat ≤ n := by
        have := UInt64.lt_iff_toNat_lt.mp hv
        simp only [Envelope.versionNat] at hversion
        omega
      rw [Nat.sub_eq_zero_of_le (Nat.le_succ_of_le hle), List.drop_zero] at htail
      rw [Nat.sub_eq_zero_of_le hle, List.drop_zero]
      unfold versionRange at htail ⊢
      rw [List.filter_cons_of_pos (by simp [hv]), htail]
    · have hlt : v.toNat - n = v.toNat - (n + 1) + 1 := by
        have := mt UInt64.lt_iff_toNat_lt.mpr hv
        simp only [Envelope.versionNat] at hversion
        omega
      rw [hlt, List.drop_succ_cons, ← htail]
      unfold versionRange
      rw [List.filter_cons_of_neg (by simp [hv])]

/-- The events of a stream that is numbered from 1 on, after a version. -/
theorem versionRange_eq_drop {es : List Envelope}
    (h : es.map Envelope.versionNat = List.range' 1 es.length) (v : UInt64) :
    versionRange v 0 es = es.drop v.toNat :=
  versionRange_eq_drop_sub (n := 0) h v

/-- The events of a stream, as they are read. -/
def viewRows (T : GoText) (db : Db) (sid : StreamID) : List Envelope :=
  if sid.Valid then (db.events.rows.filter (·.streamID = sid.canonical)).map (viewRow T) else []

section Contract

variable {T : GoText} {db db' : Db} {log : List Envelope} (h : Written T db log)

include h

theorem Written.readStream_eq (hsid : sid.Valid) {v : UInt64}
    (hv : v.toNat < 2 ^ 63) : readStream T db.events sid v 0 =
      scanAll (scanEnvelope T) (((ofStream sid log).drop v.toNat).map (eventRow T)) := by
  rw [h.migrated.readStream_eq hsid hv (by decide), List.nil_append,
    versionRange_eq_drop (h.versions sid)]

theorem viewRows_eq (sid : StreamID) :
    viewRows T db sid = (ofStream sid log).map (fun e => viewRow T (eventRow T e)) := by
  unfold viewRows
  split
  · rename_i hsid
    rw [h.rows_ofStream hsid, List.map_map]
    rfl
  · rename_i hsid
    have hnil : ofStream sid log = [] := by
      refine List.filter_eq_nil_iff.mpr (fun e he heq => hsid ?_)
      rw [← of_decide_eq_true heq]
      exact h.valid e he
    rw [hnil]
    rfl

theorem length_viewRows (sid : StreamID) : (viewRows T db sid).length = (ofStream sid log).length := by
  rw [viewRows_eq h, List.length_map]

/-- A stream is numbered from 1 on. -/
theorem versions_viewRows (sid : StreamID) :
    (viewRows T db sid).map Envelope.versionNat = List.range' 1 (viewRows T db sid).length := by
  rw [length_viewRows h, viewRows_eq h, List.map_map]
  refine Eq.trans (List.map_congr_left (fun e _ => ?_)) (h.versions sid)
  exact congrArg UInt64.toNat (viewRow_eventRow T e).2

/-- **A read** returns the events after a version. -/
theorem readStream_eq_drop {v : UInt64} (hok : readStream T db.events sid v 0 = .ok envs) :
    sid.Valid ∧ envs = (viewRows T db sid).drop v.toNat := by
  have hvalid := (h.readStream_eq_ok hok).1
  have hv : v.toNat < 2 ^ 63 := by
    have hvalidate : sid.validate = .ok () := hvalid
    by_contra hv
    simp only [readStream, hvalidate] at hok
    rw [if_pos (.inl (Nat.le_of_not_lt hv))] at hok
    cases hok
  rw [h.readStream_eq hvalid hv] at hok
  refine ⟨hvalid, ?_⟩
  rw [eq_map_viewRow hok, viewRows_eq h, List.map_map, List.map_drop]
  rfl

/-- **The chain of a stream that is read** is intact. -/
theorem feed_readStream (hT : T.Documented) (hok : readStream T db.events sid 0 0 = .ok envs) :
    ((newChainChecker sid .zero).feed envs).2 = none := by
  obtain ⟨hvalid, -⟩ := h.readStream_eq_ok hok
  rw [h.readStream_eq hvalid (by decide)] at hok
  have hread : envs = (ofStream sid log).map (readBack T) := by
    rw [eq_map_viewRow hok, List.map_map]
    refine List.map_congr_left (fun e he => ?_)
    obtain ⟨m, d, hrow, -⟩ := (h.chained sid).row he
    have hlog := (mem_ofStream.mp he).1
    exact eq_readBack_of_scanEnvelope hT (h.valid e hlog) (h.workspace e hlog) (h.version e hlog)
      (.inr ⟨d, hrow.linked⟩) (.inr ⟨_, hrow.hashed⟩)
      (scanEnvelope_of_scanAll hok (List.mem_map_of_mem he))
  obtain ⟨c, hfeed, -⟩ := ChainChecker.feed_chainFrom (ChainChecker.at_fresh sid .zero)
    (chainFrom_readBack T (h.chained sid)) (by
      rw [List.length_map, Nat.zero_add]
      exact h.length_ofStream_lt sid)
  rw [hread, hfeed]

/-- **An append** puts its events at the end of its stream. -/
theorem appends_of_append {cap : Int} {inp : AppendInputs} {res : AppendResult}
    (hok : append T cap inp p db = .ok (db', res)) :
    EventStore.Appends p (viewRows T db) (viewRows T db') ∧
      res.toVersion.toNat = p.expectedVersion.toNat + p.events.length := by
  obtain ⟨-, hlen, hw', hstream, hencoded, -, -, hto⟩ := written_append h hok
  have hgrows : viewRows T db' p.streamID =
      viewRows T db p.streamID ++ res.envelopes.map (fun e => viewRow T (eventRow T e)) := by
    rw [viewRows_eq hw', viewRows_eq h, ofStream_append, ofStream_eq_self hstream, List.map_append]
  refine ⟨⟨fun sid hsid => ?_, ⟨_, hgrows, ?_⟩, fun _ => ?_⟩, ?_⟩
  · rw [viewRows_eq hw', viewRows_eq h, ofStream_append, ofStream_eq_nil (Ne.symm hsid) hstream,
      List.append_nil]
  · rw [List.map_map, ← hencoded]
    exact List.map_congr_left (fun e _ => (viewRow_eventRow T e).1)
  · rw [length_viewRows h, hlen]
  · -- the new version is below the bound of versions, so the sum does not wrap
    have hcount : res.envelopes.length = p.events.length := by
      have := congrArg List.length hencoded
      rwa [List.length_map, List.length_map] at this
    have hbound := hw'.length_ofStream_lt p.streamID
    rw [ofStream_append, ofStream_eq_self hstream, List.length_append, hlen, hcount] at hbound
    rw [hto, UInt64.toNat_add, UInt64.toNat_ofNat_of_lt' (by
      simp only [UInt64.size]
      omega)]
    omega

/-- Rows that all scan: a read fails with the database, or not at all. -/
theorem readStream_uniform (hscan : ∀ r ∈ db.events.rows, ∃ env,
    scanEnvelope T r = .ok env) (sid : StreamID) :
    (∃ err, ∀ v : UInt64, readStream T db.events sid v 0 = .error err) ∨
      ∀ v : UInt64, v.toNat ≤ (viewRows T db sid).length →
        ∃ envs, readStream T db.events sid v 0 = .ok envs := by
  cases hvalidate : sid.validate with
  | error s =>
    refine .inl ⟨.sentinel s, fun v => ?_⟩
    simp only [readStream, hvalidate]
  | ok u =>
    refine .inr (fun v hv => ?_)
    rw [length_viewRows h] at hv
    rw [h.readStream_eq hvalidate (hv.trans_lt (h.length_ofStream_lt sid))]
    refine ⟨_, scanAll_map_eq_ok (f := fun e => viewRow T (eventRow T e)) (fun e he => ?_)⟩
    have hmem : eventRow T e ∈ db.events.rows := by
      rw [h.rows]
      exact List.mem_map_of_mem (mem_ofStream.mp (List.mem_of_mem_drop he)).1
    obtain ⟨env, henv⟩ := hscan _ hmem
    rw [viewRow_eq henv]
    exact henv

end Contract

/-- **SQLite keeps the contract**: its databases are those that appends write. -/
def sqliteContract {T : GoText} (hT : T.Documented) (cap : Int) : (sqliteStore T cap).Contract where
  inv db := ∃ log, Written T db log
  rows := viewRows T
  versions := by
    rintro db sid ⟨log, hw⟩
    exact versions_viewRows hw sid
  read := by
    rintro k sid v db envs ⟨log, hw⟩ hok
    simp only [sqliteStore] at hok
    split at hok
    · cases hok
    · exact readStream_eq_drop hw hok
  notFound := by
    rintro k sid v db ⟨log, hw⟩ herr
    simp only [sqliteStore] at herr
    split at herr
    · cases herr
    · cases readStream_eq_error herr
  verified := by
    rintro k sid db envs ⟨log, hw⟩ hok
    simp only [sqliteStore] at hok
    split at hok
    · cases hok
    · exact feed_readStream hw hT hok
  append_inv := by
    rintro k p db ⟨log, hw⟩
    simp only [sqliteStore]
    split
    · exact ⟨log, hw⟩
    split
    · exact ⟨log, hw⟩
    · rename_i happend
      exact ⟨_, (written_append hw happend).2.2.1⟩
  append_rows := by
    rintro k p db ⟨log, hw⟩
    simp only [sqliteStore]
    split
    · exact .inl rfl
    split
    · exact .inl rfl
    · rename_i happend
      exact .inr (appends_of_append hw happend).1
  append_ok := by
    rintro k p db res ⟨log, hw⟩ hok
    simp only [sqliteStore] at hok ⊢
    split at hok
    · cases hok
    split at hok
    · cases hok
    · rename_i happend
      cases hok
      exact appends_of_append hw happend
  readable db := ∀ r ∈ db.events.rows, ∃ env, scanEnvelope T r = .ok env
  readable_append := by
    rintro k p db ⟨log, hw⟩ hscan
    simp only [sqliteStore] at hscan
    split at hscan
    · exact hscan
    split at hscan
    · exact hscan
    · rename_i happend
      intro r hr
      refine hscan r ?_
      rw [(written_append hw happend).2.2.1.rows, List.map_append, ← hw.rows]
      exact List.mem_append_left _ hr
  reads := by
    rintro k sid db ⟨log, hw⟩ hscan
    simp only [sqliteStore]
    cases k.fault with
    | some text => exact .inl ⟨.backend text, fun _ _ => rfl⟩
    | none =>
      rcases readStream_uniform hw hscan sid with ⟨err, herr⟩ | hok
      · exact .inl ⟨err, fun v _ => herr v⟩
      · exact .inr hok

end Sqlite

end EsLite
