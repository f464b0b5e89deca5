import EsLite.Sqlite.Claims
import EsLite.Sqlite.Pages

/-!
# What a conflict means

`Append` returns `ErrConflict` from two places: the check of the version, and an `INSERT` that violates a
unique key. Next to position, and stream and version, the events table has a third unique key: the event
id, which the caller may choose. An id that is stored already, or occurs twice in a batch, is reported as
a conflict of versions, although the stream is where the caller expects it.

`append_conflict_iff`: a conflict means another version exactly for the batches whose ids are new.
-/

namespace EsLite.Sqlite

/-- The id that the event with an index gets. -/
def eventIDAt (inp : AppendInputs) (i : Nat) (ev : EventData) : UUID :=
  if ev.eventID = .zero 16 then inp.newV7 i else ev.eventID

/-- The texts of the ids that a batch stores, from an index on. -/
def batchIDs (T : GoText) (inp : AppendInputs) : Nat → List EventData → List Bytes
  | _, [] => []
  | i, ev :: evs => T.uuidString (eventIDAt inp i ev) :: batchIDs T inp (i + 1) evs

/-- The stored ids, and those of a batch as far as there are positions for its events. -/
def idsAfter (T : GoText) (inp : AppendInputs) (db : Db) (i : Nat) (evs : List EventData) : List Bytes :=
  db.events.rows.map (·.eventID) ++ (batchIDs T inp i evs).take (2 ^ 63 - 1 - db.lastPosition)

/-- **The ids are new**: those that a batch stores are different from each other and from the stored
ones. -/
def IDsNew (T : GoText) (inp : AppendInputs) (p : AppendParams) (db : Db) : Prop :=
  (idsAfter T inp db 0 p.events).Nodup

instance (T : GoText) (inp : AppendInputs) (p : AppendParams) (db : Db) : Decidable (IDsNew T inp p db) :=
  inferInstanceAs (Decidable (List.Nodup _))

/-- The append fails with an error that matches `ErrConflict`. -/
def Conflicts {α : Type} (r : Except AppendError α) : Prop :=
  ∃ err, r = .error err ∧ err.sentinel = some .conflict

variable {t : EventsTable} {ev : EventData}

section Inserts

variable {T : GoText} {inp : AppendInputs} {p : AppendParams} {db : Db} {e : Envelope} {i : Nat}
  {prev : Digest} {evs : List EventData}

theorem not_conflicts_ok {α : Type} {a : α} : ¬ Conflicts (.ok a : Except AppendError α) := by
  rintro ⟨err, h, -⟩
  cases h

theorem conflicts_error {α : Type} {err : AppendError} :
    Conflicts (.error err : Except AppendError α) ↔ err.sentinel = some .conflict :=
  ⟨fun ⟨_, h, hs⟩ => Except.error.inj h ▸ hs, fun h => ⟨err, rfl, h⟩⟩

theorem insert_eq_none {r : EventRow} (h : ¬ t.Fresh r) : t.insert r = none := dif_neg h

theorem exists_insert {r : EventRow} (h : t.Fresh r) : ∃ t', t.insert r = some t' :=
  ⟨_, dif_pos h⟩

/-- **An insert after the head of its stream** has one key that can be taken: its id. -/
theorem fresh_iff (hfull : db.lastPosition + 1 < 2 ^ 63)
    (hversion : ∀ r ∈ db.events.rows, r.streamID = e.streamID.canonical → r.version < e.version.toNat)
    (hposition : e.globalPosition = UInt64.ofNat (db.lastPosition + 1)) :
    db.events.Fresh (eventRow T e) ↔ T.uuidString e.eventID ∉ db.events.rows.map (·.eventID) := by
  refine ⟨fun h => h.2.2, fun h => ⟨fun hmem => ?_, fun hmem => ?_, h⟩⟩
  · obtain ⟨r, hr, heq⟩ := List.mem_map.mp hmem
    have hle := Db.position_le hr
    have hpos : e.globalPosition.toNat = db.lastPosition + 1 := by
      rw [hposition]
      exact UInt64.toNat_ofNat_of_lt' (hfull.trans (by decide))
    rw [heq, show (eventRow T e).globalPosition = (e.globalPosition.toNat : Int) from rfl, hpos] at hle
    omega
  · obtain ⟨r, hr, heq⟩ := List.mem_map.mp hmem
    obtain ⟨hstream, hv⟩ := Prod.mk.inj heq
    have hlt := hversion r hr hstream
    rw [hv] at hlt
    exact lt_irrefl _ hlt

/-- What an insert can do when the version and the payload are fine. -/
theorem insertEvent_cases (T : GoText) (db : Db) (e : Envelope) (hversion : e.version.toNat < 2 ^ 63)
    (hpayload : e.payload.isSome)
    (hhead : ∀ r ∈ db.events.rows, r.streamID = e.streamID.canonical → r.version < e.version.toNat) :
    (2 ^ 63 ≤ db.lastPosition + 1 ∧ db.insertEvent T e = .error .full) ∨
    (db.lastPosition + 1 < 2 ^ 63 ∧ T.uuidString e.eventID ∈ db.events.rows.map (·.eventID) ∧
      db.insertEvent T e = .error .unique) ∨
    (db.lastPosition + 1 < 2 ^ 63 ∧ T.uuidString e.eventID ∉ db.events.rows.map (·.eventID) ∧
      ∃ x, db.insertEvent T e = .ok x) := by
  rw [Db.insertEvent, if_neg (Nat.not_le.mpr hversion), if_neg (by simp [Option.ne_none_iff_isSome, hpayload])]
  by_cases hfull : 2 ^ 63 ≤ db.lastPosition + 1
  · exact .inl ⟨hfull, if_pos hfull⟩
  · rw [if_neg hfull]
    have hlt := Nat.not_le.mp hfull
    have hfresh := fresh_iff (T := T) (e := { e with globalPosition := UInt64.ofNat (db.lastPosition + 1) })
      hlt hhead rfl
    refine .inr ?_
    by_cases hid : T.uuidString e.eventID ∈ db.events.rows.map (·.eventID)
    · have hins := insert_eq_none fun h => hfresh.mp h hid
      exact .inl ⟨hlt, hid, by simp only [hins]⟩
    · obtain ⟨t', hins⟩ := exists_insert (hfresh.mpr hid)
      refine .inr ⟨hlt, hid, ⟨{ db with events := t', seq := db.lastPosition + 1 },
        { e with globalPosition := UInt64.ofNat (db.lastPosition + 1) }⟩, ?_⟩
      simp only [hins]

/-- Without a position left only the stored ids count. -/
theorem idsAfter_full (h : 2 ^ 63 ≤ db.lastPosition + 1) :
    idsAfter T inp db i evs = db.events.rows.map (·.eventID) := by
  rw [idsAfter, show 2 ^ 63 - 1 - db.lastPosition = 0 by omega, List.take_zero, List.append_nil]

theorem idsAfter_cons (h : db.lastPosition + 1 < 2 ^ 63) :
    idsAfter T inp db i (ev :: evs) = db.events.rows.map (·.eventID) ++
      T.uuidString (eventIDAt inp i ev) :: (batchIDs T inp (i + 1) evs).take
        (2 ^ 63 - 1 - (db.lastPosition + 1)) := by
  rw [idsAfter, batchIDs,
    show 2 ^ 63 - 1 - db.lastPosition = 2 ^ 63 - 1 - (db.lastPosition + 1) + 1 by omega, List.take_succ_cons]

/-- An event that is inserted moves from the batch to the stored ones. -/
theorem idsAfter_insertEvent {db' : Db} {e' : Envelope} (h : db.lastPosition + 1 < 2 ^ 63)
    (hins : db.insertEvent T (appendEnvelope inp p i prev ev) = .ok (db', e')) :
    idsAfter T inp db i (ev :: evs) = idsAfter T inp db' (i + 1) evs := by
  have hlast := Db.lastPosition_insertEvent hins
  obtain ⟨-, -, -, rfl, hrows, -, -⟩ := Db.insertEvent_eq_ok hins
  rw [idsAfter_cons h, idsAfter, hrows, hlast, List.map_append, List.append_assoc]
  rfl

/-- The head of the stream moves on with the row that is inserted. -/
theorem head_insertEvent {db' : Db} {e' : Envelope}
    (hins : db.insertEvent T (appendEnvelope inp p i prev ev) = .ok (db', e'))
    (hversion : (appendEnvelope inp p i prev ev).version.toNat = p.expectedVersion.toNat + i + 1)
    (hhead : ∀ r ∈ db.events.rows, r.streamID = p.streamID.canonical →
      r.version ≤ (p.expectedVersion.toNat + i : Nat)) :
    ∀ r ∈ db'.events.rows, r.streamID = p.streamID.canonical →
      r.version ≤ (p.expectedVersion.toNat + (i + 1) : Nat) := by
  intro r hr hstream
  obtain ⟨-, -, -, rfl, hrows, -, -⟩ := Db.insertEvent_eq_ok hins
  rw [hrows] at hr
  obtain hr | hr := List.mem_append.mp hr
  · have := hhead r hr hstream
    omega
  · rw [List.mem_singleton.mp hr]
    change ((appendEnvelope inp p i prev ev).version.toNat : Int) ≤ _
    omega

/-- **A batch after the head of its stream** ends in a conflict exactly if its ids are not new. -/
theorem conflicts_insertEvents_iff (hpayload : ∀ ev ∈ evs, ev.payload.isSome)
    (hbound : p.expectedVersion.toNat + i + evs.length < 2 ^ 63)
    (hhead : ∀ r ∈ db.events.rows, r.streamID = p.streamID.canonical →
      r.version ≤ (p.expectedVersion.toNat + i : Nat)) :
    Conflicts (insertEvents T inp p i prev db evs) ↔ ¬ (idsAfter T inp db i evs).Nodup := by
  induction evs generalizing i prev db with
  | nil =>
    rw [idsAfter, batchIDs, List.take_nil, List.append_nil, insertEvents]
    exact iff_of_false not_conflicts_ok (not_not.mpr db.events.eventIDs)
  | cons ev evs ih =>
    rw [List.forall_mem_cons] at hpayload
    rw [List.length_cons] at hbound
    have hversion : (appendEnvelope inp p i prev ev).version.toNat = p.expectedVersion.toNat + i + 1 :=
      versionNat_appendEnvelope inp prev ev (by omega)
    have hcases := insertEvent_cases T db (appendEnvelope inp p i prev ev) (by omega)
      hpayload.1 (fun r hr hstream => by have := hhead r hr hstream; omega)
    rw [insertEvents]
    obtain ⟨hfull, hins⟩ | ⟨hlt, hid, hins⟩ | ⟨hlt, hid, ⟨db', e'⟩, hins⟩ := hcases
    · -- no position is left: the error is another one, and no id of the batch counts
      rw [idsAfter_full hfull]
      simp only [hins]
      refine iff_of_false (fun h => ?_) (not_not.mpr db.events.eventIDs)
      cases conflicts_error.mp h
    · -- the id is stored already
      rw [idsAfter_cons hlt]
      simp only [hins]
      refine iff_of_true (conflicts_error.mpr rfl) fun hnodup => ?_
      exact List.disjoint_of_nodup_append hnodup hid List.mem_cons_self
    · -- the row is inserted, and the rest of the batch decides
      rw [idsAfter_insertEvent hlt hins,
        ← ih hpayload.2 (by omega) (head_insertEvent hins hversion hhead)]
      simp only [hins]
      cases hres : insertEvents T inp p (i + 1) (envelopeHash (appendEnvelope inp p i prev ev)) db' evs with
      | error err => exact conflicts_error.trans conflicts_error.symm
      | ok res => exact iff_of_false not_conflicts_ok not_conflicts_ok

end Inserts

/-- The version that a stream has is the one that an append compares. -/
theorem readHead_of_currentStreamVersion {T : GoText} {sid : StreamID} {current : UInt64}
    (h : currentStreamVersion t sid = .ok current) : ∃ prev, readHead T t sid = .ok (current, prev) := by
  unfold currentStreamVersion at h
  split at h
  · cases h
  simp only at h
  unfold readHead
  cases hmax : (t.rows.filter (·.streamID = sid.canonical)).maxOn? (·.version) with
  | none =>
    rw [hmax] at h
    obtain rfl : (0 : UInt64) = current := Except.ok.inj h
    exact ⟨zeroHash, rfl⟩
  | some r =>
    rw [hmax] at h
    simp only [Option.map_some, Option.getD_some] at h
    cases hscan : scanUint64 r.version with
    | none =>
      rw [hscan] at h
      cases h
    | some v =>
      rw [hscan] at h
      cases h
      exact ⟨_, scanHeadRow_eq hscan⟩

section Append

variable {T : GoText} {cap : Int} {inp : AppendInputs} {p : AppendParams} {db : Db} {current : UInt64}

/-- **When an append conflicts**: the version differs, or an id of the batch is taken. -/
theorem conflicts_append_iff (hvalid : p.streamID.validate = .ok ())
    (hconstraints : checkConstraints p.constraints = .ok ())
    (hcap : checkPayloads cap p.streamID p.expectedVersion p.events = .ok ())
    (hpayload : ∀ ev ∈ p.events, ev.payload.isSome)
    (hbound : p.expectedVersion.toNat + p.events.length < 2 ^ 63)
    (hcurrent : currentStreamVersion db.events p.streamID = .ok current) :
    Conflicts (append T cap inp p db) ↔ current ≠ p.expectedVersion ∨ ¬ IDsNew T inp p db := by
  obtain ⟨prev, hhead⟩ := readHead_of_currentStreamVersion (T := T) hcurrent
  simp only [append, hvalid, hconstraints, hcap, appendTx, hhead]
  by_cases hversion : current = p.expectedVersion
  · have hinsert : Conflicts (insertEvents T inp p 0 prev db p.events) ↔ ¬ IDsNew T inp p db := by
      refine conflicts_insertEvents_iff hpayload hbound fun r hr hstream => ?_
      rw [← hversion]
      exact (version_le_of_readHead hhead).2 r hr hstream
    rw [if_neg (not_not.mpr hversion), ← hinsert, or_iff_right (not_not.mpr hversion)]
    cases insertEvents T inp p 0 prev db p.events with
    | error err => exact conflicts_error.trans conflicts_error.symm
    | ok x =>
      refine iff_of_false (fun h => ?_) not_conflicts_ok
      -- the claims come after the inserts, and fail with an error of their own
      cases hclaims : applyClaims p.streamID.canonical x.1.claims p.constraints with
      | error err =>
        simp only [hclaims] at h
        have hsentinel := (insertClaims_error_sentinel hclaims).symm.trans (conflicts_error.mp h)
        cases hsentinel
      | ok claims =>
        simp only [hclaims] at h
        exact not_conflicts_ok h
  · rw [if_pos hversion]
    exact iff_of_true (conflicts_error.mpr rfl) (.inl hversion)

/-- **A conflict means another version, for batches with new ids.** For every content of the database and
every append with a valid stream id, valid operations, payloads that are there and within the cap, and
versions below `2 ^ 63`: "`Append` returns an error that matches `ErrConflict` if and only if the version
of the stream differs from `ExpectedVersion`" holds exactly if the versions differ or the ids are new. -/
theorem append_conflict_iff (T : GoText) (cap : Int) (inp : AppendInputs) (p : AppendParams) (db : Db)
    (hvalid : p.streamID.validate = .ok ()) (hconstraints : checkConstraints p.constraints = .ok ())
    (hcap : checkPayloads cap p.streamID p.expectedVersion p.events = .ok ())
    (hpayload : ∀ ev ∈ p.events, ev.payload.isSome)
    (hbound : p.expectedVersion.toNat + p.events.length < 2 ^ 63)
    (hcurrent : currentStreamVersion db.events p.streamID = .ok current) :
    (Conflicts (append T cap inp p db) ↔ current ≠ p.expectedVersion) ↔
      (current ≠ p.expectedVersion ∨ IDsNew T inp p db) := by
  rw [conflicts_append_iff hvalid hconstraints hcap hpayload hbound hcurrent]
  by_cases hversion : current = p.expectedVersion
  · simp only [ne_eq, hversion, not_true_eq_false, false_or, iff_false, not_not]
  · simp only [ne_eq, hversion, not_false_eq_true, true_or]

end Append

/-- An append of one event with a chosen id, to a stream at version 1. -/
def appendWithID (id : UUID) : AppendParams where
  streamID := counterMain
  expectedVersion := 1
  events := [⟨id, str "counter.v1.Incremented", 1, some [1]⟩]
  constraints := []
  commandID := .zero 16
  correlationID := .zero 16
  causationID := .zero 16
  actor := ⟨str "user", str "alice"⟩
  occurredAt := .zero

/-- A stream at version 1, whose event has a chosen id. -/
def storedWithID (id : UUID) : Db where
  events :=
    { rows := [eventRow storeText { unhashedRow counterMain 1 with eventID := id }]
      positions := List.nodup_singleton _
      versions := List.nodup_singleton _
      eventIDs := List.nodup_singleton _ }
  claims := []
  anchors := []
  seq := 1

/-- With an id that is new there is no conflict at the expected version. -/
theorem append_conflict_iff_new_id :
    currentStreamVersion (storedWithID (.fill 16 7)).events counterMain = .ok 1 ∧
      ¬ Conflicts (append storeText 0 epochInputs (appendWithID (.fill 16 8)) (storedWithID (.fill 16 7))) := by
  have hcurrent : currentStreamVersion (storedWithID (.fill 16 7)).events counterMain = .ok 1 := rfl
  refine ⟨hcurrent, fun h => ?_⟩
  have hiff := append_conflict_iff storeText 0 epochInputs (appendWithID (.fill 16 8))
    (storedWithID (.fill 16 7)) rfl rfl rfl (by decide) (by decide) hcurrent
  exact (hiff.mpr (.inr (by decide +kernel))).mp h rfl

/-- **A conflict without another writer.** The stream is at version 1, as the caller expects; its only
event has the id that the caller gives to the next one. -/
theorem append_conflicts_at_expected_version :
    currentStreamVersion (storedWithID (.fill 16 7)).events counterMain = .ok 1 ∧
      (appendWithID (.fill 16 7)).expectedVersion = 1 ∧
      Conflicts (append storeText 0 epochInputs (appendWithID (.fill 16 7)) (storedWithID (.fill 16 7))) := by
  have hcurrent : currentStreamVersion (storedWithID (.fill 16 7)).events counterMain = .ok 1 := rfl
  refine ⟨hcurrent, rfl, ?_⟩
  exact (conflicts_append_iff rfl rfl rfl (by decide) (by decide) hcurrent).mpr (.inr (by decide +kernel))

end EsLite.Sqlite
