import EsLite.Sqlite.Store

/-!
# What appends write

`Migrated T db pre log` says that a database holds exactly the rows of `pre`, written before the hash
columns existed, and then those of `log`, written by appends: each stream is a number of unhashed
versions from 1 on, and after them a hash chain. Appends keep that, successful or not
(`migrated_append`, `migrated_appendRun`). `Written` is the case without rows from before.
-/

namespace EsLite.Sqlite

/-! ## Streams of a log -/

/-- The envelopes of one stream, in log order. -/
def ofStream (sid : StreamID) (log : List Envelope) : List Envelope :=
  log.filter (fun e => e.streamID = sid)

variable {e : Envelope} {log envs : List Envelope} {inp : AppendInputs} {p : AppendParams} {cap : Int}

theorem mem_ofStream {sid : StreamID} : e ∈ ofStream sid log ↔ e ∈ log ∧ e.streamID = sid := by
  simp [ofStream]

theorem ofStream_append (sid : StreamID) (xs ys : List Envelope) :
    ofStream sid (xs ++ ys) = ofStream sid xs ++ ofStream sid ys := List.filter_append xs ys

theorem ofStream_eq_self {sid : StreamID} (h : ∀ e ∈ log, e.streamID = sid) : ofStream sid log = log :=
  List.filter_eq_self.mpr (fun e he => decide_eq_true (h e he))

theorem ofStream_eq_nil {sid sid' : StreamID} (hne : sid' ≠ sid) (h : ∀ e ∈ log, e.streamID = sid') :
    ofStream sid log = [] :=
  List.filter_eq_nil_iff.mpr (fun e he hs => hne ((h e he).symm.trans (of_decide_eq_true hs)))

/-- Rows with consecutive versions are in version order. -/
theorem pairwise_of_versions {n : Nat} {es : List Envelope}
    (h : es.map Envelope.versionNat = List.range' n es.length) :
    es.Pairwise (fun a b => a.versionNat < b.versionNat) := by
  have hsorted : (es.map Envelope.versionNat).Pairwise (· < ·) := by
    rw [h]
    exact List.pairwise_lt_range'
  exact List.pairwise_map.mp hsorted

/-- The rows a batch of inserts adds are a chain that continues at `prev`. -/
theorem chainFrom_insertEvents {T : GoText} {i : Nat} {prev : Digest} {db db' : Db}
    {evs : List EventData} (hi : p.expectedVersion.toNat + i < 2 ^ 63)
    (h : insertEvents T inp p i prev db evs = .ok (db', envs)) :
    ChainFrom p.streamID (p.expectedVersion.toNat + i) prev envs := by
  induction evs generalizing i prev db envs with
  | nil =>
    cases h
    trivial
  | cons ev evs ih =>
    simp only [insertEvents] at h
    split at h
    · cases h
    · cases h
    rename_i env hins
    split at h
    · cases h
    rename_i hrest
    cases h
    have hversion := versionNat_appendEnvelope inp prev ev hi
    obtain ⟨hbound, -, -, henv, -⟩ := Db.insertEvent_eq_ok hins
    rw [hversion] at hbound
    -- the position is not hashed, so the next event links to the row as it is stored
    have hhash : envelopeHash env = envelopeHash (appendEnvelope inp p i prev ev) := by
      rw [henv]
      exact envelopeHash_congr rfl
    have htail := ih (by omega) hrest
    rw [← hhash] at htail
    refine ⟨⟨?_, ?_, ?_, ?_⟩, htail⟩
    · rw [henv]
      rfl
    · rw [henv]
      exact hversion
    · rw [henv]
      rfl
    · rw [hhash, henv]
      rfl

/-! ## The invariant -/

/-- The database holds the rows of `pre`, which are not hashed, followed by those of `log`, which
appends have written: every stream is its unhashed versions from 1 on and then a hash chain. -/
structure Migrated (T : GoText) (db : Db) (pre log : List Envelope) : Prop where
  rows : db.events.rows = (pre ++ log).map (eventRow T)
  unhashed : ∀ e ∈ pre, e.prevHash = none ∧ e.hash = none
  contiguous : ∀ sid, (ofStream sid pre).map Envelope.versionNat =
    List.range' 1 (ofStream sid pre).length
  chained : ∀ sid, ChainFrom sid (ofStream sid pre).length
    (chainBase sid (ofStream sid pre).length) (ofStream sid log)
  valid : ∀ e ∈ pre ++ log, e.streamID.Valid
  workspace : ∀ e ∈ pre ++ log, e.workspace = []
  version : ∀ e ∈ pre ++ log, e.versionNat < 2 ^ 63
  payload : ∀ e ∈ pre ++ log, e.payload.isSome
  sorted : (pre ++ log).Pairwise (fun a b => a.globalPosition.toNat < b.globalPosition.toNat)

/-- The hash that the next event of a stream links to. -/
def nextPrev (sid : StreamID) (pre log : List Envelope) : Digest :=
  headDigest (chainBase sid (ofStream sid pre).length) (ofStream sid log)

section Migrated

variable {T : GoText} {db db' : Db} {pre log : List Envelope} {sid : StreamID} (h : Migrated T db pre log)

include h

/-- The versions of a stream are consecutive from 1 on. -/
theorem Migrated.versions (sid : StreamID) :
    (ofStream sid (pre ++ log)).map Envelope.versionNat =
      List.range' 1 (ofStream sid (pre ++ log)).length := by
  rw [ofStream_append, List.map_append, h.contiguous, (h.chained sid).versions, List.length_append,
    Nat.add_comm _ 1, List.range'_append_1]

/-- A stream's length is below the bound of its versions. -/
theorem Migrated.length_lt (sid : StreamID) : (ofStream sid (pre ++ log)).length < 2 ^ 63 := by
  cases hlen : (ofStream sid (pre ++ log)).length with
  | zero => decide
  | succ n =>
    have hmem : n + 1 ∈ (ofStream sid (pre ++ log)).map Envelope.versionNat := by
      rw [h.versions, List.mem_range'_1]
      omega
    obtain ⟨e, he, hev⟩ := List.mem_map.mp hmem
    rw [← hev]
    exact h.version e (mem_ofStream.mp he).1

/-- The rows of a stream are those of its envelopes. -/
theorem Migrated.rows_ofStream (hsid : sid.Valid) :
    db.events.rows.filter (·.streamID = sid.canonical) =
      (ofStream sid (pre ++ log)).map (eventRow T) := by
  rw [h.rows, List.filter_map, ofStream]
  refine congrArg _ (List.filter_congr (fun e he => ?_))
  have hiff : e.streamID.canonical = sid.canonical ↔ e.streamID = sid :=
    ⟨canonical_inj (h.valid e he) hsid, congrArg _⟩
  simp only [Function.comp_apply, eventRow, hiff]

/-- The rows of a stream are in version order. -/
theorem Migrated.sorted_ofStream (sid : StreamID) :
    ((ofStream sid (pre ++ log)).map (eventRow T)).Pairwise (fun a b => a.version < b.version) := by
  rw [List.pairwise_map]
  exact (pairwise_of_versions (h.versions sid)).imp (fun hab => Int.ofNat_lt.mpr hab)

/-- The last row of a stream has as version the number of its rows. -/
theorem Migrated.version_getLast (hlast : (ofStream sid (pre ++ log)).getLast? = some e) :
    e.versionNat = (ofStream sid (pre ++ log)).length := by
  have hv := congrArg List.getLast? (h.versions sid)
  rw [List.getLast?_map, hlast, List.getLast?_range'] at hv
  obtain ⟨es, hes⟩ := List.getLast?_eq_some_iff.mp hlast
  rw [hes, List.length_append, List.length_singleton] at hv ⊢
  rw [if_neg (by omega)] at hv
  have := Option.some.inj hv
  omega

/-- The last row of a stream in the table. -/
theorem Migrated.maxOn?_eq (hsid : sid.Valid) :
    (db.events.rows.filter (·.streamID = sid.canonical)).maxOn? (·.version) =
      ((ofStream sid (pre ++ log)).getLast?).map (eventRow T) := by
  rw [h.rows_ofStream hsid, maxOn?_eq_getLast? (h.sorted_ofStream sid), List.getLast?_map]

/-- **The version of a stream** is its number of rows. -/
theorem Migrated.currentStreamVersion_eq (hsid : sid.Valid) :
    currentStreamVersion db.events sid = .ok (UInt64.ofNat (ofStream sid (pre ++ log)).length) := by
  have hvalid : sid.validate = .ok () := hsid
  simp only [currentStreamVersion, hvalid]
  rw [h.maxOn?_eq hsid]
  cases hlast : (ofStream sid (pre ++ log)).getLast? with
  | none =>
    rw [List.getLast?_eq_none_iff.mp hlast]
    rfl
  | some e =>
    have hmem : e ∈ pre ++ log := (mem_ofStream.mp (List.mem_of_getLast? hlast)).1
    have hscan : scanUint64 (eventRow T e).version = some e.version :=
      scanUint64_natCast (h.version e hmem)
    have hcurrent : UInt64.ofNat (ofStream sid (pre ++ log)).length = e.version := by
      rw [← h.version_getLast hlast]
      exact UInt64.ofNat_toNat
    rw [Option.map_some, Option.map_some, Option.getD_some, hscan, hcurrent]

/-- A hashed head gives its own hash. -/
theorem Migrated.scanHeadRow_hashed (hlast : (ofStream sid log).getLast? = some e) :
    scanHeadRow T sid (eventRow T e) = .ok (e.version, nextPrev sid pre log) := by
  have hmem : e ∈ log := (mem_ofStream.mp (List.mem_of_getLast? hlast)).1
  obtain ⟨es, hes⟩ := List.getLast?_eq_some_iff.mp hlast
  have hchain := h.chained sid
  rw [hes] at hchain
  obtain ⟨-, hrow, -⟩ := chainFrom_append.mp hchain
  have hdigest : nextPrev sid pre log = envelopeHash e := by simp [nextPrev, headDigest, hes]
  rw [hdigest]
  exact scanHeadRow_eventRow (h.version e (List.mem_append_right _ hmem)) hrow.hashed

/-- An unhashed head, where every row of the stream is unhashed, gives the hash that stands for it. -/
theorem Migrated.scanHeadRow_unhashed (hlog : ofStream sid log = [])
    (hlast : (ofStream sid pre).getLast? = some e)
    (hversion : e.versionNat = (ofStream sid pre).length) :
    scanHeadRow T sid (eventRow T e) = .ok (e.version, nextPrev sid pre log) := by
  have hmem : e ∈ pre := (mem_ofStream.mp (List.mem_of_getLast? hlast)).1
  have hne : (ofStream sid pre).length ≠ 0 :=
    fun h0 => List.ne_nil_of_mem (List.mem_of_getLast? hlast) (List.length_eq_zero_iff.mp h0)
  have hdigest : nextPrev sid pre log = unchainedHeadHash sid e.version := by
    rw [nextPrev, hlog, headDigest, chainBase, if_neg hne, ← hversion, Envelope.versionNat,
      UInt64.ofNat_toNat]
    rfl
  have hscan : scanUint64 (eventRow T e).version = some e.version :=
    scanUint64_natCast (h.version e (List.mem_append_left _ hmem))
  have hnone : (eventRow T e).hash = none := (h.unhashed e hmem).2
  rw [hdigest, scanHeadRow_eq hscan, hnone]
  rfl

/-- **The head of a stream**: its number of rows, and the hash of its last row, or the one that stands
for an unhashed row. -/
theorem Migrated.readHead_eq (hsid : sid.Valid) :
    readHead T db.events sid =
      .ok (UInt64.ofNat (ofStream sid (pre ++ log)).length, nextPrev sid pre log) := by
  unfold readHead
  rw [h.maxOn?_eq hsid]
  cases hlast : (ofStream sid (pre ++ log)).getLast? with
  | none =>
    have hnil := List.getLast?_eq_none_iff.mp hlast
    obtain ⟨hpre, hlog⟩ := List.append_eq_nil_iff.mp ((ofStream_append sid pre log).symm.trans hnil)
    rw [hnil, nextPrev, hpre, hlog]
    rfl
  | some e =>
    have hversion := h.version_getLast hlast
    have hcurrent : UInt64.ofNat (ofStream sid (pre ++ log)).length = e.version := by
      rw [← hversion]
      exact UInt64.ofNat_toNat
    rw [hcurrent]
    rw [ofStream_append, List.getLast?_append] at hlast
    show scanHeadRow T sid (eventRow T e) = _
    cases hlog : (ofStream sid log).getLast? with
    | some l =>
      rw [hlog] at hlast
      obtain rfl : l = e := by simpa using hlast
      exact h.scanHeadRow_hashed hlog
    | none =>
      have hnil := List.getLast?_eq_none_iff.mp hlog
      rw [hlog] at hlast
      rw [ofStream_append, hnil, List.append_nil] at hversion
      exact h.scanHeadRow_unhashed hnil (by simpa using hlast) hversion

/-- **A batch of inserts** at the head of a stream keeps the invariant. -/
theorem migrated_insertEvents (hvalid : p.streamID.Valid)
    (hlen : (ofStream p.streamID (pre ++ log)).length = p.expectedVersion.toNat)
    (hok : insertEvents T inp p 0 (nextPrev p.streamID pre log) db p.events = .ok (db', envs)) :
    Migrated T db' pre (log ++ envs) := by
  have hi : p.expectedVersion.toNat + 0 < 2 ^ 63 := by
    have := h.length_lt p.streamID
    omega
  obtain ⟨hrows, -, -, happended, -, hpositions⟩ := insertEvents_eq_ok hi hok
  have hchain := chainFrom_insertEvents hi hok
  have hmem : ∀ {P : Envelope → Prop}, (∀ x ∈ pre ++ log, P x) → (∀ x ∈ envs, P x) →
      ∀ x ∈ pre ++ (log ++ envs), P x := by
    intro P hold hnew x hx
    rw [← List.append_assoc] at hx
    rcases List.mem_append.mp hx with hx | hx
    · exact hold x hx
    · exact hnew x hx
  have hstream : ∀ e ∈ envs, e.streamID = p.streamID := fun e he => (happended e he).streamID
  refine
    { rows := by rw [hrows, h.rows, ← List.map_append, List.append_assoc]
      unhashed := h.unhashed
      contiguous := h.contiguous
      chained := fun sid => ?_
      valid := hmem h.valid (fun e he => by rw [hstream e he]; exact hvalid)
      workspace := hmem h.workspace (fun e he => (happended e he).workspace)
      version := hmem h.version (fun e he => (happended e he).version)
      payload := hmem h.payload (fun e he => (happended e he).payload)
      sorted := ?_ }
  · rw [ofStream_append]
    by_cases hsid : p.streamID = sid
    · -- the stream that grows
      subst hsid
      rw [ofStream_eq_self hstream]
      refine chainFrom_append.mpr ⟨h.chained _, ?_⟩
      rw [← List.length_append, ← ofStream_append, hlen]
      exact hchain
    · rw [ofStream_eq_nil hsid hstream, List.append_nil]
      exact h.chained sid
  · rw [← List.append_assoc]
    refine List.pairwise_append.mpr ⟨h.sorted, ?_, fun a ha b hb => ?_⟩
    · have hsorted : (envs.map (·.globalPosition.toNat)).Pairwise (· < ·) := by
        rw [hpositions]
        exact List.pairwise_lt_range'
      exact List.pairwise_map.mp hsorted
    · have hold : (eventRow T a).globalPosition ≤ db.lastPosition :=
        Db.position_le (by rw [h.rows]; exact List.mem_map_of_mem ha)
      have hnew : b.globalPosition.toNat ∈ List.range' (db.lastPosition + 1) envs.length := by
        rw [← hpositions]
        exact List.mem_map_of_mem hb
      have hlow := (List.mem_range'_1.mp hnew).1
      have hcast : (eventRow T a).globalPosition = (a.globalPosition.toNat : Int) := rfl
      omega

/-- **An append** that succeeds was made at the stream's current version, keeps the invariant, and
adds exactly its events to its stream. -/
theorem migrated_append {res : AppendResult} (hok : append T cap inp p db = .ok (db', res)) :
    p.streamID.Valid ∧ (ofStream p.streamID (pre ++ log)).length = p.expectedVersion.toNat ∧
      Migrated T db' pre (log ++ res.envelopes) ∧ (∀ e ∈ res.envelopes, Appended inp p e) ∧
      res.envelopes.map encodedOf = p.events.map encodedData ∧
      applyClaims p.streamID.canonical db.claims p.constraints = .ok db'.claims ∧
      res.fromVersion = p.expectedVersion ∧
      res.toVersion = p.expectedVersion + UInt64.ofNat p.events.length := by
  obtain ⟨hvalid, htx⟩ := append_eq_ok hok
  have hlt := h.length_lt p.streamID
  simp only [appendTx, h.readHead_eq hvalid] at htx
  split at htx
  · cases htx
  rename_i hcurrent
  have hlen : (ofStream p.streamID (pre ++ log)).length = p.expectedVersion.toNat := by
    rw [← not_not.mp hcurrent]
    exact (UInt64.toNat_ofNat_of_lt' (hlt.trans (by decide))).symm
  split at htx
  · cases htx
  rename_i db₁ envs hins
  split at htx
  · cases htx
  rename_i claims hclaims
  cases htx
  have hmig := migrated_insertEvents h hvalid hlen hins
  obtain ⟨-, hsame, hencoded, happended, -⟩ := insertEvents_eq_ok (by omega) hins
  rw [hsame] at hclaims
  exact ⟨hvalid, hlen, { hmig with rows := hmig.rows }, happended, hencoded, hclaims, rfl, rfl⟩

/-- **Every run of appends** keeps the invariant. -/
theorem migrated_appendRun (calls : List (AppendInputs × AppendParams)) :
    Migrated T (appendRun T cap (db, log) calls).1 pre (appendRun T cap (db, log) calls).2 := by
  induction calls generalizing db log with
  | nil => exact h
  | cons call calls ih =>
    obtain ⟨inp, p⟩ := call
    simp only [appendRun]
    rcases hres : append T cap inp p db with err | ⟨db', res⟩
    · exact ih h
    · exact ih (migrated_append h hres).2.2.1

/-- Every envelope that a run of appends returned came from one of its calls. -/
theorem appended_of_appendRun (calls : List (AppendInputs × AppendParams)) :
    ∀ e ∈ (appendRun T cap (db, log) calls).2, e ∈ log ∨ ∃ c ∈ calls, Appended c.1 c.2 e := by
  induction calls generalizing db log with
  | nil => exact fun e he => .inl he
  | cons call calls ih =>
    obtain ⟨inp, p⟩ := call
    intro e he
    simp only [appendRun] at he
    rcases hres : append T cap inp p db with err | ⟨db', res⟩
    · rw [hres] at he
      rcases ih h e he with hold | ⟨c, hc, hnew⟩
      · exact .inl hold
      · exact .inr ⟨c, List.mem_cons_of_mem _ hc, hnew⟩
    · rw [hres] at he
      obtain ⟨-, -, hmig, happended, -⟩ := migrated_append h hres
      rcases ih hmig e he with hold | ⟨c, hc, hnew⟩
      · rcases List.mem_append.mp hold with hold | hnew
        · exact .inl hold
        · exact .inr ⟨(inp, p), List.mem_cons_self, happended e hnew⟩
      · exact .inr ⟨c, List.mem_cons_of_mem _ hc, hnew⟩

/-! ## Reading a stream -/

/-- The rows of a stream in a range of versions are those of its envelopes in that range. -/
theorem Migrated.rows_versionRange (hsid : sid.Valid) (fromVersion toVersion : UInt64) :
    db.events.rows.filter (fun r => r.streamID = sid.canonical &&
      (fromVersion.toNat : Int) < r.version &&
        (toVersion == 0 || r.version ≤ (toVersion.toNat : Int))) =
      (versionRange fromVersion toVersion (ofStream sid (pre ++ log))).map (eventRow T) := by
  have hsplit : db.events.rows.filter (fun r => r.streamID = sid.canonical &&
      (fromVersion.toNat : Int) < r.version &&
        (toVersion == 0 || r.version ≤ (toVersion.toNat : Int))) =
      (db.events.rows.filter (·.streamID = sid.canonical)).filter (fun r =>
        (fromVersion.toNat : Int) < r.version &&
          (toVersion == 0 || r.version ≤ (toVersion.toNat : Int))) := by
    rw [List.filter_filter]
    exact List.filter_congr (fun r _ => by rw [Bool.and_assoc, Bool.and_comm])
  rw [hsplit, h.rows_ofStream hsid, List.filter_map, versionRange]
  refine congrArg _ (List.filter_congr (fun e _ => ?_))
  simp only [Function.comp_apply, eventRow, Int.ofNat_lt, Int.ofNat_le, UInt64.lt_iff_toNat_lt,
    UInt64.le_iff_toNat_le]

/-- Reading a stream scans the rows of its envelopes in the range, in version order. -/
theorem Migrated.readStream_eq (hsid : sid.Valid) {fromVersion toVersion : UInt64}
    (hfrom : fromVersion.toNat < 2 ^ 63) (hto : toVersion.toNat < 2 ^ 63) :
    readStream T db.events sid fromVersion toVersion = scanAll (scanEnvelope T)
      ((versionRange fromVersion toVersion (ofStream sid (pre ++ log))).map (eventRow T)) := by
  have hvalid : sid.validate = .ok () := hsid
  have hbounds : ¬ (2 ^ 63 ≤ fromVersion.toNat ∨ 2 ^ 63 ≤ toVersion.toNat) := by omega
  have hsub : (versionRange fromVersion toVersion (ofStream sid (pre ++ log))).Sublist
      (ofStream sid (pre ++ log)) := List.filter_sublist
  simp only [readStream, hvalid, if_neg hbounds]
  rw [h.rows_versionRange hsid,
    orderByVersion_of_sorted ((h.sorted_ofStream sid).sublist (hsub.map _))]

/-- **Reading a stream** gives back the encoded events it was written with, at their versions. -/
theorem Migrated.readStream_eq_ok {fromVersion toVersion : UInt64}
    (hok : readStream T db.events sid fromVersion toVersion = .ok envs) :
    sid.Valid ∧ List.Forall₂ (fun e env => encodedOf env = encodedOf e ∧ env.version = e.version)
      (versionRange fromVersion toVersion (ofStream sid (pre ++ log))) envs := by
  have hbounds : sid.Valid ∧ fromVersion.toNat < 2 ^ 63 ∧ toVersion.toNat < 2 ^ 63 := by
    unfold readStream at hok
    split at hok
    · cases hok
    rename_i hvalid
    split at hok
    · cases hok
    · exact ⟨hvalid, by omega, by omega⟩
  obtain ⟨hvalid, hfrom, hto⟩ := hbounds
  rw [h.readStream_eq hvalid hfrom hto, scanAll_eq_ok, ← List.forall₂_eq_eq_eq,
    List.forall₂_map_left_iff, List.forall₂_map_left_iff, List.forall₂_map_right_iff] at hok
  exact ⟨hvalid, hok.imp (fun _ _ hscan => scanEnvelope_eventRow hscan)⟩

end Migrated

/-! ## Databases without rows from before -/

/-- The database holds exactly the rows of `log`, which the store has written: every stream is a hash
chain from version 1 on. -/
structure Written (T : GoText) (db : Db) (log : List Envelope) : Prop where
  rows : db.events.rows = log.map (eventRow T)
  chained : ∀ sid, Chained sid (ofStream sid log)
  valid : ∀ e ∈ log, e.streamID.Valid
  workspace : ∀ e ∈ log, e.workspace = []
  version : ∀ e ∈ log, e.versionNat < 2 ^ 63
  payload : ∀ e ∈ log, e.payload.isSome
  sorted : log.Pairwise (fun a b => a.globalPosition.toNat < b.globalPosition.toNat)

theorem written_empty (T : GoText) : Written T .empty [] :=
  ⟨rfl, fun _ => trivial, by simp, by simp, by simp, by simp, .nil⟩

section Written

variable {T : GoText} {db db' : Db} {log : List Envelope} {sid : StreamID}

/-- No rows from before is the case of an empty `pre`. -/
theorem Written.migrated (h : Written T db log) : Migrated T db [] log where
  rows := h.rows
  unhashed := by simp
  contiguous := fun _ => rfl
  chained := h.chained
  valid := h.valid
  workspace := h.workspace
  version := h.version
  payload := h.payload
  sorted := h.sorted

theorem Migrated.written (h : Migrated T db [] log) : Written T db log where
  rows := h.rows
  chained := h.chained
  valid := h.valid
  workspace := h.workspace
  version := h.version
  payload := h.payload
  sorted := h.sorted

variable (h : Written T db log)

include h

/-- The rows of a stream are those of its envelopes. -/
theorem Written.rows_ofStream (hsid : sid.Valid) :
    db.events.rows.filter (·.streamID = sid.canonical) = (ofStream sid log).map (eventRow T) :=
  h.migrated.rows_ofStream hsid

/-- The rows of a stream are in version order. -/
theorem Written.sorted_ofStream (sid : StreamID) :
    ((ofStream sid log).map (eventRow T)).Pairwise (fun a b => a.version < b.version) :=
  h.migrated.sorted_ofStream sid

/-- The versions of a stream are consecutive from 1 on. -/
theorem Written.versions (sid : StreamID) :
    (ofStream sid log).map Envelope.versionNat = List.range' 1 (ofStream sid log).length :=
  h.migrated.versions sid

/-- A stream's length is below the bound of its versions. -/
theorem Written.length_ofStream_lt (sid : StreamID) :
    (ofStream sid log).length < 2 ^ 63 := h.migrated.length_lt sid

/-- **Reading a stream** gives back the encoded events it was written with, at their versions. -/
theorem Written.readStream_eq_ok {fromVersion toVersion : UInt64}
    (hok : readStream T db.events sid fromVersion toVersion = .ok envs) :
    sid.Valid ∧ List.Forall₂ (fun e env => encodedOf env = encodedOf e ∧ env.version = e.version)
      (versionRange fromVersion toVersion (ofStream sid log)) envs :=
  h.migrated.readStream_eq_ok hok

/-- **An append** that succeeds was made at the stream's current version, keeps the database as the
store writes it, and adds exactly its events to its stream. -/
theorem written_append {res : AppendResult} (hok : append T cap inp p db = .ok (db', res)) :
    p.streamID.Valid ∧ (ofStream p.streamID log).length = p.expectedVersion.toNat ∧
      Written T db' (log ++ res.envelopes) ∧ (∀ e ∈ res.envelopes, e.streamID = p.streamID) ∧
      res.envelopes.map encodedOf = p.events.map encodedData ∧
      applyClaims p.streamID.canonical db.claims p.constraints = .ok db'.claims ∧
      res.fromVersion = p.expectedVersion ∧
      res.toVersion = p.expectedVersion + UInt64.ofNat p.events.length := by
  obtain ⟨hvalid, hlen, hmig, happended, hrest⟩ := migrated_append h.migrated hok
  exact ⟨hvalid, hlen, hmig.written, fun e he => (happended e he).streamID, hrest⟩

/-- **Every run of appends** leaves the database as the store writes it. -/
theorem written_appendRun (calls : List (AppendInputs × AppendParams)) :
    Written T (appendRun T cap (db, log) calls).1 (appendRun T cap (db, log) calls).2 :=
  (migrated_appendRun h.migrated calls).written

end Written

end EsLite.Sqlite
