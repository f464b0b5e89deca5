import EsLite.Aggregate.Runtime
import EsLite.Foundation.Linearization
import EsLite.Sqlite.Written

/-!
# Command handling is serializable

The specification is a serial machine: streams of events and a claims table, and one command decided
on the state folded from its stream at a time (`serialStep`). Any interleaving of any number of
handlers over one SQLite store is a run of it: a handler takes effect in its last call to the store,
an append at the version it loaded, or the load itself when there is nothing to append, and the calls
that returned, in the order of these effects, replay on the serial machine
(`handle_serializable`).

* `Stores` — the database holds the state of the serial machine.
* `Loaded` — what a handler knows of a state that it has loaded, and keeps knowing.
* `lin_handleOnce`, `lin_handleAt` — a handler takes effect in its last call.
-/

namespace EsLite.Aggregate

open Logic

variable {S C E : Type}

/-! ## The serial machine -/

/-- Streams of events, and the uniqueness claims. -/
structure SerialState (E : Type) where
  log : StreamID → List E
  claims : List Sqlite.ClaimRow

/-- No events and no claims. -/
def SerialState.empty : SerialState E := ⟨fun _ => [], []⟩

/-- More events on a stream, and the claims after them. -/
def SerialState.extend (st : SerialState E) (sid : StreamID) (evs : List E)
    (claims : List Sqlite.ClaimRow) : SerialState E :=
  ⟨Function.update st.log sid (st.log sid ++ evs), claims⟩

@[simp] theorem SerialState.extend_log_self (st : SerialState E) (sid : StreamID) (evs : List E)
    (claims : List Sqlite.ClaimRow) : (st.extend sid evs claims).log sid = st.log sid ++ evs :=
  Function.update_self ..

variable {sid : StreamID} {M : Model S C E} {st st' : SerialState E} {cmd : C} {evs : List E}
  {T : GoText} {version expected : UInt64} {state : S} {ι : Type} {m : Meta}

theorem SerialState.extend_log_of_ne (st : SerialState E) {sid' : StreamID} (evs : List E)
    (claims : List Sqlite.ClaimRow) (h : sid' ≠ sid) :
    (st.extend sid evs claims).log sid' = st.log sid' :=
  Function.update_of_ne h ..

/-- Nothing more is no change. -/
@[simp] theorem SerialState.extend_nil (st : SerialState E) (sid : StreamID) :
    st.extend sid [] st.claims = st := by
  rw [extend, List.append_nil, Function.update_eq_self]

/-- Handle one command on its own: decide it on the state folded from its stream, apply its
uniqueness operations and append its events. `none` when the stream is closed, or the command is
rejected, or a claim is taken. -/
def serialStep (M : Model S C E) (sid : StreamID) (cmd : C) (st : SerialState E) :
    Option (SerialState E) :=
  if M.terminal (M.fold (st.log sid)) then none
  else
    match M.decider.decide (M.fold (st.log sid)) cmd with
    | .error _ => none
    | .ok (events, constraints) =>
      match Sqlite.applyClaims sid.canonical st.claims constraints with
      | .error _ => none
      | .ok claims => some (st.extend sid events claims)

/-- A call that returned: its name, the call, and what it returned. -/
abbrev Finished (ι S C E : Type) := Nat × Call ι C × Except HandleError (C × Result S E)

/-- One call that returned, on the serial machine: a call that failed does nothing, and one that
succeeded handles its command. -/
def serialCall {ι : Type} (M : Model S C E) (st : SerialState E) (x : Finished ι S C E) :
    Option (SerialState E) :=
  match x.2.2 with
  | .error _ => some st
  | .ok (cmd, _) => serialStep M x.2.1.sid cmd st

/-- The calls that returned, one at a time. -/
def serialRun {ι : Type} (M : Model S C E) (st : SerialState E) (calls : List (Finished ι S C E)) :
    Option (SerialState E) :=
  calls.foldlM (serialCall M) st

/-- What a step of the serial machine does. -/
theorem serialStep_eq_some :
    serialStep M sid cmd st = some st' ↔
      M.terminal (M.fold (st.log sid)) = false ∧
      ∃ events constraints claims,
        M.decider.decide (M.fold (st.log sid)) cmd = .ok (events, constraints) ∧
        Sqlite.applyClaims sid.canonical st.claims constraints = .ok claims ∧
        st' = st.extend sid events claims := by
  unfold serialStep
  constructor
  · intro h
    split at h
    · cases h
    rename_i hterm
    split at h
    · cases h
    rename_i events constraints hdecide
    split at h
    · cases h
    rename_i claims hclaims
    exact ⟨Bool.eq_false_iff.mpr hterm, events, constraints, claims, hdecide, hclaims,
      (Option.some.inj h).symm⟩
  · rintro ⟨hterm, events, constraints, claims, hdecide, hclaims, rfl⟩
    rw [hterm, hdecide]
    simp only [Bool.false_eq_true, if_false, hclaims]

/-- A step only adds to the streams. -/
theorem serialStep_grows (h : serialStep M sid cmd st = some st') (sid' : StreamID) :
    st.log sid' <+: st'.log sid' := by
  obtain ⟨-, events, -, claims, -, -, rfl⟩ := serialStep_eq_some.mp h
  by_cases hsid : sid' = sid
  · subst hsid
    rw [SerialState.extend_log_self]
    exact List.prefix_append _ _
  · simp [SerialState.extend_log_of_ne _ _ _ hsid]

/-- The command that was decided: the caller's, or the caller's with the server's decision time. -/
def Stamped (M : Model S C E) (cmd cmd' : C) : Prop :=
  (M.decisionTime cmd = none ∧ cmd' = cmd) ∨ ∃ now, cmd' = M.stampDecisionTime cmd now

/-- **What a call that succeeded did** to its stream: at some point of the stream's history, which was
not closed, the command was decided on the state folded from the events before, its events are the
ones right after, and the state that was returned is folded from the events up to the last of them. -/
structure Committed (M : Model S C E) (cmd : C) (res : Result S E) (log : List E) : Prop where
  ordered : res.fromVersion.toNat ≤ res.toVersion.toNat
  reached : res.toVersion.toNat ≤ log.length
  batch : log.take res.toVersion.toNat = log.take res.fromVersion.toNat ++ res.events
  state : res.state = M.fold (log.take res.toVersion.toNat)
  notTerminal : M.terminal (M.fold (log.take res.fromVersion.toNat)) = false
  decided : ∃ constraints,
    M.decider.decide (M.fold (log.take res.fromVersion.toNat)) cmd = .ok (res.events, constraints)

/-- History stays as it is. -/
theorem Committed.mono {res : Result S E} {log log' : List E} (h : Committed M cmd res log)
    (hlog : log <+: log') : Committed M cmd res log' := by
  obtain ⟨more, rfl⟩ := hlog
  have htake : ∀ n, n ≤ log.length → (log ++ more).take n = log.take n :=
    fun n hn => List.take_append_of_le_length hn
  have hto := htake _ h.reached
  have hfrom := htake _ (h.ordered.trans h.reached)
  refine ⟨h.ordered, h.reached.trans (by simp), ?_, ?_, ?_, ?_⟩
  · rw [hto, hfrom, h.batch]
  · rw [hto, h.state]
  · rw [hfrom, h.notTerminal]
  · rw [hfrom]
    exact h.decided

/-! ## The database holds the state of the serial machine -/

/-- Decode-then-upcast of a freshly encoded event gives back that event. A payload is compared as
bytes: an empty one may come back from the store as `nil`. -/
def RoundTrips (M : Model S C E) : Prop :=
  ∀ ev enc payload, M.codec.encode ev = .ok enc → payload.getD [] = enc.payload.getD [] →
    ∃ ev', M.codec.decode ⟨enc.typeURL, enc.schemaVersion, payload⟩ = .ok ev' ∧
      M.upcast enc.typeURL enc.schemaVersion ev' = .ok ev

/-- The encoded event `d` is an encoding of `ev`. -/
def EncodedAs (M : Model S C E) (d : Bytes × UInt32 × Bytes) (ev : E) : Prop :=
  ∃ enc, M.codec.encode ev = .ok enc ∧ d = (enc.typeURL, enc.schemaVersion, enc.payload.getD [])

/-- The columns of a row are an encoding of `ev`. -/
def StoredAs (M : Model S C E) (r : Sqlite.EventRow) (ev : E) : Prop :=
  ∃ d, EncodedAs M d ev ∧ r.typeURL = d.1 ∧ r.schemaVersion = d.2.1.toNat ∧ r.payload = d.2.2

/-- The rows of a stream, in the order in which they were written. -/
def streamRows (db : Sqlite.Db) (sid : StreamID) : List Sqlite.EventRow :=
  db.events.rows.filter (·.streamID = sid.canonical)

/-- **Refinement.** The database was written by appends, and its tables hold the streams and the
claims of the serial machine. -/
structure Stores (T : GoText) (M : Model S C E) (db : Sqlite.Db) (st : SerialState E) : Prop where
  written : ∃ log, Sqlite.Written T db log
  rows : ∀ sid, sid.Valid → List.Forall₂ (StoredAs M) (streamRows db sid) (st.log sid)
  /-- No event has a stream id that does not validate. -/
  invalid : ∀ sid, ¬ sid.Valid → st.log sid = []
  claims : db.claims = st.claims

theorem stores_empty (T : GoText) (M : Model S C E) : Stores T M .empty .empty :=
  ⟨⟨[], Sqlite.written_empty T⟩, fun _ _ => .nil, fun _ _ => rfl, rfl⟩

section RoundTrip

variable {M : Model S C E} (hcodec : RoundTrips M)

include hcodec

/-- What an encoded event decodes to. -/
theorem decodeEvent_eq_ok {env : Envelope} {ev : E} (h : EncodedAs M (Sqlite.encodedOf env) ev)
    (sid : StreamID) : decodeEvent M sid env = .ok ev := by
  obtain ⟨enc, henc, heq⟩ := h
  simp only [Sqlite.encodedOf, Prod.mk.injEq] at heq
  obtain ⟨htype, hschema, hpayload⟩ := heq
  obtain ⟨ev', hdecode, hupcast⟩ := hcodec ev enc env.payload henc hpayload
  simp only [decodeEvent, htype, hschema, hdecode, hupcast]

/-- A row holds one event. -/
theorem StoredAs.unique {r : Sqlite.EventRow} {ev ev' : E} (h : StoredAs M r ev)
    (h' : StoredAs M r ev') : ev = ev' := by
  obtain ⟨-, ⟨enc, henc, rfl⟩, htype, hschema, hpayload⟩ := h
  obtain ⟨-, ⟨enc', henc', rfl⟩, htype', hschema', hpayload'⟩ := h'
  have htypes : enc'.typeURL = enc.typeURL := htype'.symm.trans htype
  have hschemas : enc'.schemaVersion = enc.schemaVersion :=
    UInt32.toNat_inj.mp (Int.ofNat.inj (hschema'.symm.trans hschema))
  obtain ⟨x, hx, hup⟩ := hcodec ev enc enc.payload henc rfl
  obtain ⟨x', hx', hup'⟩ := hcodec ev' enc' enc.payload henc' (hpayload.symm.trans hpayload')
  rw [htypes, hschemas, hx] at hx'
  rw [htypes, hschemas, ← Except.ok.inj hx', hup] at hup'
  exact Except.ok.inj hup'

/-- The rows of a stream hold one list of events. -/
theorem events_unique {rs : List Sqlite.EventRow} {evs' : List E} (h : List.Forall₂ (StoredAs M) rs evs)
    (h' : List.Forall₂ (StoredAs M) rs evs') : evs = evs' := by
  induction h generalizing evs' with
  | nil =>
    cases h'
    rfl
  | cons hr _ ih =>
    obtain _ | ⟨hr', hrs'⟩ := h'
    rw [hr.unique hcodec hr', ih hrs']

end RoundTrip

/-- The rows of an envelope's event. -/
theorem storedAs_eventRow {e : Envelope} {ev : E} :
    StoredAs M (Sqlite.eventRow T e) ev ↔ EncodedAs M (Sqlite.encodedOf e) ev := by
  constructor
  · rintro ⟨d, hd, htype, hschema, hpayload⟩
    obtain rfl : Sqlite.encodedOf e = d :=
      Prod.ext htype (Prod.ext (UInt32.toNat_inj.mp (Int.ofNat.inj hschema)) hpayload)
    exact hd
  · intro h
    exact ⟨_, h, rfl, rfl, rfl⟩

/-- The rows of a stream number it from 1 on. -/
theorem Stores.versions {db : Sqlite.Db} (h : Stores T M db st) (hsid : sid.Valid) :
    (streamRows db sid).map (·.version) = (List.range' 1 (st.log sid).length).map Int.ofNat := by
  obtain ⟨log, hw⟩ := h.written
  have hlen := (h.rows sid hsid).length_eq
  rw [streamRows, hw.rows_ofStream hsid, List.length_map] at hlen
  rw [streamRows, hw.rows_ofStream hsid, List.map_map, ← hlen,
    ← ChainFrom.versions (hw.chained sid), List.map_map]
  rfl

/-! ## Loading -/

/-- Two lists related to a common one are related. -/
theorem forall₂_of_common {α β γ : Type} {P : α → β → Prop} {Q : α → γ → Prop} {U : β → γ → Prop}
    (h : ∀ a b c, P a b → Q a c → U b c) {as : List α} {bs : List β} {cs : List γ}
    (hb : List.Forall₂ P as bs) (hc : List.Forall₂ Q as cs) : List.Forall₂ U bs cs := by
  induction hb generalizing cs with
  | nil =>
    cases hc
    exact .nil
  | cons hp _ ih =>
    obtain _ | ⟨hq, hqs⟩ := hc
    exact .cons (h _ _ _ hp hq) (ih hqs)

/-- The loop of a load folds the decoded events and ends at the last version. -/
theorem foldEnvelopes_eq_ok {checker : Option ChainChecker} {acc acc' : S × UInt64}
    {envs : List Envelope}
    (hdecode : List.Forall₂ (fun env ev => decodeEvent M sid env = .ok ev) envs evs)
    (hok : foldEnvelopes M sid checker acc envs = .ok acc') :
    acc' = (evs.foldl M.decider.evolve acc.1, (envs.map (·.version)).getLastD acc.2) := by
  induction hdecode generalizing checker acc with
  | nil => exact (Except.ok.inj hok).symm
  | cons hev _ ih =>
    simp only [foldEnvelopes, hev] at hok
    split at hok
    · cases hok
    · rw [ih hok, List.foldl_cons, List.map_cons, List.getLastD_cons]

/-- The last of the `n` versions after `v`. -/
theorem getLastD_versions_after {vs : List UInt64} {v : UInt64} {n : Nat}
    (h : vs.map (·.toNat) = List.range' (v.toNat + 1) n) : (vs.getLastD v).toNat = v.toNat + n := by
  have hlast : (vs.map (·.toNat)).getLastD v.toNat = v.toNat + n := by
    rw [h, List.getLastD_eq_getLast?, List.getLast?_range']
    split
    · rename_i hn
      simp [hn]
    · rw [Option.getD_some]
      omega
  rw [List.getLastD_eq_getLast?, List.getLast?_map] at hlast
  rw [List.getLastD_eq_getLast?]
  cases hv : vs.getLast? with
  | none =>
    rw [hv] at hlast
    exact hlast
  | some w =>
    rw [hv] at hlast
    exact hlast

/-- The last of the versions 1 to `n` is `n`. -/
theorem getLastD_versions {vs : List UInt64} {n : Nat} (h : vs.map (·.toNat) = List.range' 1 n) :
    (vs.getLastD 0).toNat = n :=
  (getLastD_versions_after h).trans (Nat.zero_add n)

/-- **A load** gives the state folded from the stream, and its length. -/
theorem foldRead_eq_ok {R : Runtime S C E} (hcodec : RoundTrips R.toModel) {db : Sqlite.Db}
    (hst : Stores T R.toModel db st)
    (hok : R.foldRead sid 0 (R.decider.initial, 0) (Sqlite.readStream T db.events sid 0 0) =
      .ok (state, version)) :
    sid.Valid ∧ state = R.fold (st.log sid) ∧ version.toNat = (st.log sid).length := by
  obtain ⟨log, hw⟩ := hst.written
  cases hread : Sqlite.readStream T db.events sid 0 0 with
  | error err =>
    -- `ErrStreamNotFound` would be tolerated, but the store does not return it
    rw [hread] at hok
    cases err with
    | sentinel s =>
      obtain rfl := Sqlite.readStream_eq_error hread
      cases hok
    | backend text => cases hok
  | ok envs =>
    obtain ⟨hvalid, henvs⟩ := hw.readStream_eq_ok hread
    have hall : Sqlite.versionRange 0 0 (Sqlite.ofStream sid log) = Sqlite.ofStream sid log := by
      refine List.filter_eq_self.mpr (fun e he => ?_)
      have hpos : 0 < e.versionNat := ((ChainFrom.mem_version (hw.chained sid)).mp ⟨e, he, rfl⟩).1
      simpa [UInt64.lt_iff_toNat_lt, Envelope.versionNat] using hpos
    rw [hall] at henvs
    have hrows := hst.rows sid hvalid
    rw [streamRows, hw.rows_ofStream hvalid, List.forall₂_map_left_iff] at hrows
    have hdecode : List.Forall₂ (fun env ev => decodeEvent R.toModel sid env = .ok ev) envs
        (st.log sid) := by
      refine forall₂_of_common (fun e env ev henv hev => decodeEvent_eq_ok hcodec ?_ sid) henvs hrows
      rw [henv.1]
      exact storedAs_eventRow.mp hev
    have hversions : (envs.map (·.version)).map (·.toNat) = List.range' 1 (st.log sid).length := by
      rw [← hrows.length_eq, ← ChainFrom.versions (hw.chained sid), List.map_map,
        ← List.forall₂_eq_eq_eq, List.forall₂_map_left_iff, List.forall₂_map_right_iff]
      refine henvs.flip.imp (fun env e henv => ?_)
      rw [Function.comp_apply, henv.2]
      rfl
    rw [hread] at hok
    simp only [Runtime.foldRead, envelopesOf] at hok
    split at hok
    · cases hok
    rename_i hfold
    rw [if_neg (fun h => absurd h.1 (by decide))] at hok
    cases hok
    have hacc := foldEnvelopes_eq_ok hdecode hfold
    simp only [Prod.mk.injEq] at hacc
    exact ⟨hvalid, hacc.1, by rw [hacc.2]; exact getLastD_versions hversions⟩

/-! ## Appending -/

/-- Encoding succeeds on every event, or not at all. -/
theorem encodeEvents_eq_ok {i : Nat} {datas : List EventData}
    (h : Runtime.encodeEvents M.codec i evs = .ok datas) :
    List.Forall₂ (fun d ev => EncodedAs M (Sqlite.encodedData d) ev) datas evs := by
  induction evs generalizing i datas with
  | nil =>
    cases h
    exact .nil
  | cons ev evs ih =>
    simp only [Runtime.encodeEvents] at h
    split at h
    · cases h
    rename_i enc henc
    split at h
    · cases h
    rename_i hrest
    cases h
    exact .cons ⟨enc, henc, rfl⟩ (ih hrest)

/-- **An append** that succeeds was made at the stream's length, adds its events to the stream and
applies its uniqueness operations to the claims. -/
theorem stores_append {cap : Int} {inp : Sqlite.AppendInputs} {p : AppendParams} {db db' : Sqlite.Db}
    {res : AppendResult} (hst : Stores T M db st)
    (hevs : List.Forall₂ (fun d ev => EncodedAs M (Sqlite.encodedData d) ev) p.events evs)
    (hok : Sqlite.append T cap inp p db = .ok (db', res)) :
    (st.log p.streamID).length = p.expectedVersion.toNat ∧
      Sqlite.applyClaims p.streamID.canonical st.claims p.constraints = .ok db'.claims ∧
      Stores T M db' (st.extend p.streamID evs db'.claims) ∧
      db.events.rows <+: db'.events.rows ∧ res.fromVersion = p.expectedVersion ∧
      res.toVersion.toNat = p.expectedVersion.toNat + evs.length := by
  obtain ⟨log, hw⟩ := hst.written
  obtain ⟨hvalid, hlen, hw', hstream, hencoded, hclaims, hfrom, hto⟩ :=
    Sqlite.written_append hw hok
  have hrows : db'.events.rows = db.events.rows ++ res.envelopes.map (Sqlite.eventRow T) := by
    rw [hw'.rows, hw.rows, List.map_append]
  -- the new rows of the stream are the new events
  have hnew : List.Forall₂ (StoredAs M) (res.envelopes.map (Sqlite.eventRow T)) evs := by
    rw [List.forall₂_map_left_iff]
    have hdatas := hencoded.symm
    rw [← List.forall₂_eq_eq_eq, List.forall₂_map_left_iff, List.forall₂_map_right_iff] at hdatas
    refine forall₂_of_common (fun d e ev hde hd => storedAs_eventRow.mpr ?_) hdatas hevs
    rw [← hde]
    exact hd
  have hsplit : ∀ sid, streamRows db' sid = streamRows db sid ++
      (res.envelopes.map (Sqlite.eventRow T)).filter (·.streamID = sid.canonical) := by
    intro sid
    rw [streamRows, hrows, List.filter_append, streamRows]
  have hcanonical : ∀ r ∈ res.envelopes.map (Sqlite.eventRow T),
      r.streamID = p.streamID.canonical := by
    intro r hr
    obtain ⟨e, he, rfl⟩ := List.mem_map.mp hr
    rw [← hstream e he]
    rfl
  have hnew_len : res.envelopes.length = evs.length := by
    rw [← hnew.length_eq, List.length_map]
  have hold_len : (st.log p.streamID).length = p.expectedVersion.toNat := by
    rw [← (hst.rows _ hvalid).length_eq, streamRows, hw.rows_ofStream hvalid, List.length_map, hlen]
  refine ⟨hold_len, hst.claims ▸ hclaims, ?_, ⟨_, hrows.symm⟩, hfrom, ?_⟩
  · refine ⟨⟨_, hw'⟩, fun sid hsid => ?_, fun sid hsid => ?_, rfl⟩
    · rw [hsplit]
      by_cases heq : sid = p.streamID
      · subst heq
        rw [SerialState.extend_log_self,
          List.filter_eq_self.mpr (fun r hr => decide_eq_true (hcanonical r hr))]
        exact List.rel_append (hst.rows _ hvalid) hnew
      · rw [SerialState.extend_log_of_ne _ _ _ heq,
          List.filter_eq_nil_iff.mpr (fun r hr h => heq ?_), List.append_nil]
        · exact hst.rows sid hsid
        · exact canonical_inj hsid hvalid ((of_decide_eq_true h).symm.trans (hcanonical r hr))
    · have hne : sid ≠ p.streamID := fun heq => hsid (heq ▸ hvalid)
      rw [SerialState.extend_log_of_ne _ _ _ hne]
      exact hst.invalid sid hsid
  · -- the new version is below the bound of versions, so the sum does not wrap
    have hbound := hw'.length_ofStream_lt p.streamID
    rw [Sqlite.ofStream_append, Sqlite.ofStream_eq_self hstream, List.length_append, hlen,
      hnew_len] at hbound
    rw [hto, hevs.length_eq, UInt64.toNat_add, UInt64.toNat_ofNat_of_lt' (by
      simp only [UInt64.size]
      omega)]
    omega

/-! ## A handler takes effect in its last call -/

/-- What handlers rely on: the database holds a state of the serial machine, and rows stay. -/
def serialLogic (T : GoText) (M : Model S C E) : Logic World Op where
  inv w := ∃ st, Stores T M w.db st
  le w w' := w.db.events.rows <+: w'.db.events.rows
  allowed _ _ := True
  refl _ := List.prefix_rfl
  trans _ _ _ := List.IsPrefix.trans

/-- What an attempt that led from `w` to `w'` in its last call did: nothing if it failed, and a step
of the serial machine if it succeeded. -/
def Handled (T : GoText) (M : Model S C E) (sid : StreamID) (cmd : C) :
    Except HandleError (Result S E) → World → World → Prop
  | .error _, w, w' => w' = w
  | .ok res, w, w' => ∀ st, Stores T M w.db st → ∃ st', serialStep M sid cmd st = some st' ∧
      Stores T M w'.db st' ∧ Committed M cmd res (st'.log sid)

/-- What a call did: its command, as stamped, was handled. -/
def HandledCall (T : GoText) (M : Model S C E) (sid : StreamID) (cmd : C) :
    Except HandleError (C × Result S E) → World → World → Prop
  | .error _, w, w' => w' = w
  | .ok (cmd', res), w, w' => Stamped M cmd cmd' ∧ Handled T M sid cmd' (.ok res) w w'

/-- What a handler knows of the state it has loaded: it is folded from the first events of the
stream, as many as the version says. -/
def Loaded (M : Model S C E) (sid : StreamID) (state : S) (version : UInt64) (w : World) : Prop :=
  sid.Valid ∧ ∃ rs evs, rs <+: streamRows w.db sid ∧ List.Forall₂ (StoredAs M) rs evs ∧
    state = M.fold evs ∧ version.toNat = evs.length

theorem Loaded.mono {w w' : World} (h : Loaded M sid state version w)
    (hle : w.db.events.rows <+: w'.db.events.rows) : Loaded M sid state version w' := by
  obtain ⟨hvalid, rs, evs, hrs, hevs⟩ := h
  exact ⟨hvalid, rs, evs, hrs.trans (hle.filter _), hevs⟩

/-- **The version check is enough.** If the stream still has the version that was loaded, the loaded
state is still current. -/
theorem Loaded.current (hcodec : RoundTrips M) {w : World} (h : Loaded M sid state version w)
    (hst : Stores T M w.db st) (hlen : (st.log sid).length = version.toNat) :
    state = M.fold (st.log sid) := by
  obtain ⟨hvalid, rs, evs, hrs, hevs, hstate, hversion⟩ := h
  have hrows := hst.rows sid hvalid
  have hall : rs = streamRows w.db sid :=
    hrs.eq_of_length (by rw [hevs.length_eq, hrows.length_eq, hlen, hversion])
  rw [hall] at hevs
  rw [hstate, events_unique hcodec hevs hrows]

/-- A batch at the end of its stream. -/
theorem committed_append (res : Result S E) {log : List E} {constraints : List ConstraintOp}
    (hfrom : res.fromVersion.toNat = log.length)
    (hto : res.toVersion.toNat = log.length + res.events.length)
    (hstate : res.state = M.fold (log ++ res.events)) (hterm : M.terminal (M.fold log) = false)
    (hdecide : M.decider.decide (M.fold log) cmd = .ok (res.events, constraints)) :
    Committed M cmd res (log ++ res.events) := by
  have htake : (log ++ res.events).take res.fromVersion.toNat = log := by
    rw [hfrom, List.take_left']
    rfl
  have hall : (log ++ res.events).take res.toVersion.toNat = log ++ res.events := by
    rw [hto, ← List.length_append, List.take_length]
  refine ⟨by omega, by rw [hto, List.length_append], ?_, ?_, ?_, constraints, ?_⟩
  · rw [htake, hall]
  · rw [hall, hstate]
  · rw [htake, hterm]
  · rw [htake, hdecide]

/-- What the checks on a loaded state let through. -/
theorem decideOn_eq_ok {R : Runtime S C E} {d : Runtime.Decision E}
    (h : R.decideOn sid cmd expected state version = .ok d) :
    R.terminal state = false ∧ ((d = .noop ∧ R.decider.decide state cmd = .ok ([], [])) ∨
      ∃ events encoded constraints, d = .append events encoded constraints ∧
        R.decider.decide state cmd = .ok (events, constraints) ∧
        Runtime.encodeEvents R.codec 0 events = .ok encoded) := by
  unfold Runtime.decideOn at h
  split at h
  · cases h
  split at h
  · cases h
  rename_i hterm
  refine ⟨Bool.eq_false_iff.mpr hterm, ?_⟩
  split at h
  · cases h
  rename_i events constraints hdecide
  split at h
  · rename_i hempty
    cases h
    exact .inl ⟨rfl, by rw [hdecide, List.isEmpty_iff.mp hempty.1, List.isEmpty_iff.mp hempty.2]⟩
  · split at h
    · cases h
    rename_i encoded hencoded
    cases h
    exact .inr ⟨events, encoded, constraints, rfl, hdecide, hencoded⟩

/-- What a read returns. -/
theorem exec_readStream {Rs : ι → Runtime S C E} {cap : Int} {fromVersion toVersion : UInt64}
    {ch : Choice} {w w' : World} {r : Except StoreError (List Envelope)}
    (h : (runtimes Rs T cap).exec (.readStream sid fromVersion toVersion) ch w = some (w', r)) :
    w' = w ∧ ((∃ text, r = .error (.backend text)) ∨
      r = Sqlite.readStream T w.db.events sid fromVersion toVersion) := by
  simp only [runtimes, exec] at h
  cases h
  refine ⟨rfl, ?_⟩
  cases ch.fault with
  | none => exact .inr rfl
  | some text => exact .inl ⟨text, rfl⟩

/-- What an append can do to the store. -/
theorem exec_append {Rs : ι → Runtime S C E} {cap : Int} {p : AppendParams} {ch : Choice} {w w' : World}
    {r : Except AppendError AppendResult}
    (h : (runtimes Rs T cap).exec (.append p) ch w = some (w', r)) :
    (w' = w ∧ ∃ err, r = .error err) ∨
      ∃ db res, Sqlite.append T cap ch.inputs p w.db = .ok (db, res) ∧ w' = { w with db := db } ∧
        r = .ok res := by
  simp only [runtimes, exec] at h
  split at h
  · cases h
    exact .inl ⟨rfl, _, rfl⟩
  split at h
  · cases h
    exact .inl ⟨rfl, _, rfl⟩
  · rename_i db res happend
    cases h
    exact .inr ⟨db, res, happend, rfl, rfl⟩

section Handlers

variable {ι : Type} {Rs : ι → Runtime S C E} {T : GoText} {cap : Int} {R : Runtime S C E}
  (hcache : R.snapshots = none)

include hcache

/-- Without a cache a load is one read. -/
theorem run_load (sid : StreamID) : (ExceptT.adapt HandleError.load (R.load sid 0 .zero)).run =
    .call (.readStream sid 0 0) (fun r =>
      .ret ((R.foldRead sid 0 (R.decider.initial, 0) r).mapError HandleError.load)) := by
  unfold Runtime.load Runtime.seed
  rw [hcache]
  rfl

/-- Without a cache the last call of a handler is the append. -/
theorem run_commit (sid : StreamID) (m : Meta) (occurredAt : Time) (state : S) (version : UInt64)
    (events : List E) (encoded : List EventData) (constraints : List ConstraintOp) :
    (R.commit sid m occurredAt {} state version (.append events encoded constraints)).run =
      .call (.append (Runtime.appendParams sid version encoded constraints m occurredAt)) (fun r =>
        .ret (match r with
          | .error err => .error (.append err)
          | .ok res => .ok ⟨events.foldl R.decider.evolve state, events, res.fromVersion,
              res.toVersion, res.envelopes⟩)) := by
  unfold Runtime.commit Runtime.appendFn Runtime.saveSnapshot
  rw [hcache]
  refine congrArg (Prog.call _) (funext fun r => ?_)
  cases r <;> rfl

variable (hcodec : RoundTrips R.toModel)

include hcodec

/-- **The append** of a decision on a state that was loaded: if it goes through, the state was still
current. -/
theorem lin_commit {occurredAt : Time} {events : List E} {encoded : List EventData}
    {constraints : List ConstraintOp} {w : World} (hterm : R.terminal state = false)
    (hdecide : R.decider.decide state cmd = .ok (events, constraints))
    (hencode : Runtime.encodeEvents R.codec 0 events = .ok encoded)
    (hloaded : Loaded R.toModel sid state version w) :
    (serialLogic T R.toModel).Lin (runtimes Rs T cap) (Handled T R.toModel sid cmd)
      (R.commit sid m occurredAt {} state version (.append events encoded constraints)).run w := by
  rw [run_commit hcache]
  refine Lin.call (fun w₁ hle hinv _ ch w₂ r hex => ?_)
  rcases exec_append hex with ⟨rfl, err, rfl⟩ | ⟨db, res, happend, rfl, rfl⟩
  · exact ⟨hinv, List.prefix_rfl, .ret rfl⟩
  obtain ⟨st, hst⟩ := hinv
  have hstep : ∀ st, Stores T R.toModel w₁.db st → (st.log sid).length = version.toNat ∧
      Sqlite.applyClaims sid.canonical st.claims constraints = .ok db.claims ∧
      Stores T R.toModel db (st.extend sid events db.claims) ∧
      w₁.db.events.rows <+: db.events.rows ∧ res.fromVersion = version ∧
      res.toVersion.toNat = version.toNat + events.length :=
    fun st hst => stores_append hst (encodeEvents_eq_ok hencode) happend
  obtain ⟨-, -, hst', hrows, -, -⟩ := hstep st hst
  refine ⟨⟨_, hst'⟩, hrows, .ret (fun st hst => ?_)⟩
  obtain ⟨hlen, hclaims, hst', -, hfrom, hto⟩ := hstep st hst
  -- the append passed the version check, so nothing was appended since the load
  have hcurrent : state = R.fold (st.log sid) := (hloaded.mono hle).current hcodec hst hlen
  subst hcurrent
  refine ⟨_, serialStep_eq_some.mpr ⟨hterm, events, constraints, db.claims, hdecide, hclaims, rfl⟩,
    hst', ?_⟩
  rw [SerialState.extend_log_self]
  refine committed_append ⟨_, events, _, _, _⟩ ?_ ?_ ?_ hterm hdecide
  · rw [hfrom, hlen]
  · rw [hto, hlen]
  · exact (List.foldl_append ..).symm

/-- **One pass.** Every call but the last leaves the store as it is, and the last one is the step. -/
theorem lin_handleOnce {occurredAt : Time} (w : World) :
    (serialLogic T R.toModel).Lin (runtimes Rs T cap) (Handled T R.toModel sid cmd)
      (R.handleOnce sid cmd m occurredAt expected {}).run w := by
  refine Lin.andThen ?_
  rw [run_load hcache]
  refine Lin.read (fun ch t t' r hex => (exec_readStream hex).1) (fun w₁ _ hinv ch r hex => .ret ?_)
  cases hfold : R.foldRead sid 0 (R.decider.initial, 0) r with
  | error err => exact rfl
  | ok acc =>
    obtain ⟨state, version⟩ := acc
    -- the read went through, so it gave the stream as it is now
    have hread : r = Sqlite.readStream T w₁.db.events sid 0 0 := by
      rcases (exec_readStream hex).2 with ⟨text, rfl⟩ | hread
      · cases hfold
      · exact hread
    rw [hread] at hfold
    have hload : ∀ st, Stores T R.toModel w₁.db st →
        sid.Valid ∧ state = R.fold (st.log sid) ∧ version.toNat = (st.log sid).length :=
      fun st hst => foldRead_eq_ok hcodec hst hfold
    change Left _ _ _ (Prog.ofResult (R.decideOn sid cmd expected state version) >>=
      R.commit sid m occurredAt {} state version).run w₁ w₁
    cases hdecision : R.decideOn sid cmd expected state version with
    | error err => exact .ret rfl
    | ok d =>
      obtain ⟨hterm, ⟨rfl, hdecide⟩ | ⟨events, encoded, constraints, rfl, hdecide, hencode⟩⟩ :=
        decideOn_eq_ok hdecision
      · -- nothing to append: the load itself is the step
        refine .ret (fun st hst => ?_)
        obtain ⟨hvalid, rfl, hversion⟩ := hload st hst
        refine ⟨st, serialStep_eq_some.mpr ⟨hterm, [], [], st.claims, hdecide, rfl, by simp⟩, hst, ?_⟩
        rw [← List.append_nil (st.log sid)]
        exact committed_append ⟨_, [], _, _, _⟩ hversion hversion
          (by rw [List.append_nil]) hterm hdecide
      · obtain ⟨st, hst⟩ := hinv
        obtain ⟨hvalid, hstate, hversion⟩ := hload st hst
        exact .silent (lin_commit hcache hcodec hterm hdecide hencode
          ⟨hvalid, _, _, List.prefix_rfl, hst.rows sid hvalid, hstate, hversion⟩)

omit hcodec hcache in
/-- **The retry loop** takes effect in its last attempt: an attempt that failed did nothing. -/
theorem lin_attempts {once : Act HandleError (Result S E)}
    (honce : ∀ w, (serialLogic T M).Lin (runtimes Rs T cap) (Handled T M sid cmd) once.run w)
    (attempt left : Nat) (w : World) :
    (serialLogic T M).Lin (runtimes Rs T cap) (Handled T M sid cmd)
      (Runtime.attempts once attempt left) w := by
  induction left generalizing attempt w with
  | zero =>
    refine Lin.bind ((honce w).weaken (fun r t t' _ h => ?_))
    cases r with
    | ok res => exact .ret h
    | error err => exact .ret h
  | succ left ih =>
    refine Lin.bind ((honce w).weaken (fun r t t' _ h => ?_))
    cases r with
    | ok res => exact .ret h
    | error err =>
      obtain rfl : t' = t := h
      dsimp only
      split
      · -- a conflict with another writer: pause, and try again on a fresh load
        refine .silent (Lin.read (fun ch u u' x hex => ?_) (fun u _ _ ch x hex => ?_))
        · cases hex
          rfl
        · cases x with
          | some x => exact .ret rfl
          | none => exact .silent (ih (attempt + 1) u)
      · exact .ret rfl

omit hcodec hcache in
/-- Only the caller's command, or the caller's command with the clock's time, is decided. -/
theorem stampCommand_eq_ok {now : Time} {cmd' : C} (h : R.stampCommand now cmd = .ok cmd') :
    Stamped R.toModel cmd cmd' := by
  unfold Runtime.stampCommand at h
  split at h
  · rename_i hnone
    exact .inl ⟨hnone, (Except.ok.inj h).symm⟩
  · split at h
    · cases h
    split at h
    · cases h
    · exact .inr ⟨now, (Except.ok.inj h).symm⟩

omit hcodec hcache in
/-- Filling in the ids does not touch the store. -/
theorem lin_fillMeta {α : Type} {spec : Except HandleError α → World → World → Prop}
    {f : Meta → Act HandleError α}
    (h : ∀ m' w, (serialLogic T M).Lin (runtimes Rs T cap) spec (f m').run w) (w : World) :
    (serialLogic T M).Lin (runtimes Rs T cap) spec (Runtime.fillMeta m >>= f).run w := by
  refine Lin.andThen ?_
  unfold Runtime.fillMeta
  dsimp only
  split
  · refine Lin.read (fun ch u u' x hex => ?_) (fun u _ _ ch x hex => .ret (.silent (h _ u)))
    cases hex
    rfl
  · exact fun u _ _ => .silent (h _ u)

/-- **A call of a handler** takes effect in its last call to the store. -/
theorem lin_handleAt (w : World) :
    (serialLogic T R.toModel).Lin (runtimes Rs T cap) (HandledCall T R.toModel sid cmd)
      (R.handleAt sid cmd m expected {}).run w := by
  refine Lin.andThen (Lin.read (fun ch u u' x hex => ?_) (fun u _ _ ch now hex => .ret ?_))
  · cases hex
    rfl
  change Left _ _ _ (Prog.ofResult (R.stampCommand now cmd) >>= _).run u u
  cases hstamp : R.stampCommand now cmd with
  | error err => exact .ret rfl
  | ok cmd' =>
    refine .silent (lin_fillMeta (fun m' u' => Lin.andThen ?_) u)
    refine (lin_attempts (fun u'' => lin_handleOnce hcache hcodec u'') 0 R.retries u').weaken
      (fun r t t' _ h => ?_)
    cases r with
    | ok res => exact .ret ⟨stampCommand_eq_ok hstamp, h⟩
    | error err => exact h

end Handlers

/-! ## Serializability -/

/-- What a call that returned has to do with the streams. -/
def Accounted {ι : Type} (M : Model S C E) (x : Finished ι S C E) (st : SerialState E) : Prop :=
  ∀ cmd res, x.2.2 = .ok (cmd, res) →
    Stamped M x.2.1.cmd cmd ∧ Committed M cmd res (st.log x.2.1.sid)

/-- Later calls leave the account of a call as it is. -/
theorem Accounted.keep {x y : Finished ι S C E} (hy : serialCall M st y = some st')
    (h : Accounted M x st) : Accounted M x st' := by
  intro cmd res hx
  obtain ⟨hstamped, hcommitted⟩ := h cmd res hx
  refine ⟨hstamped, hcommitted.mono ?_⟩
  unfold serialCall at hy
  split at hy
  · cases hy
    exact List.prefix_rfl
  · exact serialStep_grows hy _

/-- One call that returned is one step of the serial machine. -/
theorem serialCall_of_handled {x : Finished ι S C E} {w w' : World}
    (h : HandledCall T M x.2.1.sid x.2.1.cmd x.2.2 w w') (hst : Stores T M w.db st) :
    ∃ st', serialCall M st x = some st' ∧ Stores T M w'.db st' ∧ Accounted M x st' := by
  obtain ⟨i, c, r⟩ := x
  cases r with
  | error err =>
    obtain rfl : w' = w := h
    exact ⟨st, rfl, hst, fun cmd res hx => (by cases hx)⟩
  | ok out =>
    obtain ⟨cmd, res⟩ := out
    obtain ⟨hstamped, hhandled⟩ := h
    obtain ⟨st', hstep, hst', hcommitted⟩ := hhandled st hst
    refine ⟨st', hstep, hst', fun cmd' res' hx => ?_⟩
    cases hx
    exact ⟨hstamped, hcommitted⟩

/-- **Command handling is serializable.** Take any number of runtimes with the same decider and codec
and without a snapshot cache over one SQLite store, any number of calls of `Handle` and `HandleAt` on
them, and any interleaving of their reads and appends, from a database that holds `st₀`. The calls
that returned, in the order in which they did, which is the order of their commits, run through on the
serial machine one at a time: a call that failed does nothing there, and one that succeeded handles
its command. The serial machine ends with exactly the events and the claims that the database holds;
every call that succeeded decided on a stream that was not closed and returned the state folded from
the events up to its `ToVersion`; and no call returned twice. -/
theorem handle_serializable {ι : Type} {R : ι → Runtime S C E} {T : GoText} {cap : Int}
    {M : Model S C E} (hmodel : ∀ i, (R i).toModel = M) (hcache : ∀ i, (R i).snapshots = none)
    (hcodec : RoundTrips M) {w₀ : World} {st₀ : SerialState E} (hstart : Stores T M w₀.db st₀)
    {as : List (PoolAction (Call ι C) Choice Empty)}
    {P : Pool World (Call ι C) Op Res (Except HandleError (C × Result S E))}
    (hrun : runActions (runtimes R T cap).step (Pool.start w₀) as = some P) :
    ∃ st, serialRun M st₀ P.finished = some st ∧
      (∀ sid, sid.Valid → List.Forall₂ (StoredAs M) (streamRows P.shared.db sid) (st.log sid) ∧
        (streamRows P.shared.db sid).map (·.version) =
          (List.range' 1 (st.log sid).length).map Int.ofNat) ∧
      (∀ r ∈ P.shared.db.events.rows, ∃ sid : StreamID, sid.Valid ∧ r.streamID = sid.canonical) ∧
      P.shared.db.claims = st.claims ∧
      (∀ i c cmd res, (i, c, .ok (cmd, res)) ∈ P.finished →
        Stamped M c.cmd cmd ∧ Committed M cmd res (st.log c.sid)) ∧
      (P.finished.map (·.1)).Nodup := by
  have hprog : ∀ c w, (serialLogic T M).inv w → (serialLogic T M).Lin (runtimes R T cap)
      (HandledCall T M c.sid c.cmd) ((runtimes R T cap).prog c) w := by
    intro c w _
    have hlin : ∀ expected, (serialLogic T M).Lin (runtimes R T cap) (HandledCall T M c.sid c.cmd)
        ((R c.runtime).handleAt c.sid c.cmd c.info expected {}).run w := by
      intro expected
      rw [← hmodel c.runtime] at hcodec ⊢
      exact lin_handleAt (hcache c.runtime) hcodec w
    unfold runtimes
    dsimp only
    split
    · exact hlin 0
    · exact hlin _
  have hlinear := Linear.run (fun _ _ => trivial) nofun hprog hrun (Linear.start ⟨st₀, hstart⟩)
  obtain ⟨st, hserial, hst, hall⟩ := Trace.simulates
    (fun x w w' st h hst => serialCall_of_handled h hst) (fun y x st st' hy h => h.keep hy)
    hlinear.finished hstart
  refine ⟨st, hserial, fun sid hsid => ⟨hst.rows sid hsid, hst.versions hsid⟩, fun r hr => ?_,
    hst.claims, fun i c cmd res hmem => hall _ hmem cmd res rfl, hlinear.once⟩
  obtain ⟨log, hw⟩ := hst.written
  rw [hw.rows] at hr
  obtain ⟨e, he, rfl⟩ := List.mem_map.mp hr
  exact ⟨e.streamID, hw.valid e he, rfl⟩

/-- A counter that is closed at 2. -/
def counterModel : Model Nat Unit Unit where
  decider :=
    { initial := 0
      decide := fun _ _ => .ok ([()], [])
      evolve := fun n _ => n + 1
      isTerminal := some (fun n => n == 2) }
  codec :=
    { encode := fun _ => .ok ⟨str "counter.v1.Incremented", 1, some [1]⟩
      decode := fun _ => .ok () }
  upcaster := none
  decisionTime _ := none
  stampDecisionTime cmd _ := cmd

theorem roundTrips_counter : RoundTrips counterModel := fun _ _ _ _ _ => ⟨(), rfl, rfl⟩

/-- A runtime for the counter with one retry. -/
def counterRuntime : Runtime Nat Unit Unit :=
  { counterModel with snapshots := none, retries := 1, verifyChain := true }

/-- A command on `counter:main`. -/
def increment : Call Unit Unit :=
  ⟨(), counterMain, (), ⟨.zero 16, .zero 16, .zero 16, ⟨str "user", str "alice"⟩⟩, none⟩

/-- Answers of the environment at the epoch without errors, with the id of the event to append. -/
def quietChoice (b : UInt8) : Choice :=
  ⟨⟨0⟩, .fill 16 b, ⟨⟨0⟩, ⟨0⟩, fun _ => .fill 16 b⟩, none, none⟩

/-- Two commands load the empty stream; the first commits, and the second loses the race, pauses,
loads again and commits. -/
def lostRace : List (PoolAction (Call Unit Unit) Choice Empty) :=
  [.spawn 0 increment, .spawn 1 increment] ++
    List.replicate 3 (.step 0 (quietChoice 1)) ++ List.replicate 3 (.step 1 (quietChoice 2)) ++
    [.step 0 (quietChoice 1)] ++ List.replicate 4 (.step 1 (quietChoice 2))

/-- The versions that a call occupied, if it succeeded. -/
def Result.range {ε : Type} : Except ε (C × Result S E) → Option (UInt64 × UInt64)
  | .ok (_, res) => some (res.fromVersion, res.toVersion)
  | .error _ => none

/-- The run in which the second command loses the race. -/
theorem handle_serializable_lost_race :
    ∃ P, runActions (runtimes (fun _ => counterRuntime) storeText 0).step
        (Pool.start ⟨.empty, fun _ => none⟩) lostRace = some P ∧
      P.finished.map (fun x => Result.range x.2.2) = [some (0, 1), some (1, 2)] ∧
      ∃ st, serialRun counterModel .empty P.finished = some st ∧
        List.Forall₂ (StoredAs counterModel) (streamRows P.shared.db counterMain)
          (st.log counterMain) := by
  refine exists_run_of _ (by decide +kernel) fun P hrun hrange => ⟨hrange, ?_⟩
  obtain ⟨st, hserial, hrows, -⟩ := handle_serializable (fun _ => rfl) (fun _ => rfl)
    roundTrips_counter (stores_empty storeText counterModel) hrun
  exact ⟨st, hserial, (hrows counterMain (by decide)).1⟩

end EsLite.Aggregate
