import EsLite.Sqlite.Anchor
import EsLite.Sqlite.Readback
import Mathlib.Logic.Equiv.Basic

/-!
# Anchors and the order of rows

A row's hash does not cover its position, and an anchor's root covers, of every stream, the head at or
below a position. So all that a verified table and a matching anchor say of the positions is which rows
lie at or below the anchored one: the rows can be moved to any other positions on the same side
(`allVerify_moved`, `checkAnchor_moved`). In particular two rows below the anchor can change places, and
the order of rows is attested only where there is nothing to order (`anchor_attests_order_iff`).
-/

namespace EsLite

variable {T : GoText} {t : EventsTable} {upto : UInt64} {since : Time}

namespace Sqlite

/-! ## Moving rows -/

/-- The row at another position. -/
def EventRow.moved (f : Int → Int) (r : EventRow) : EventRow :=
  { r with globalPosition := f r.globalPosition }

/-- The envelope at another position. -/
def movedEnvelope (f : Int → Int) (e : Envelope) : Envelope :=
  { e with globalPosition := UInt64.ofNat (f e.globalPosition.toNat).toNat }

/-- The table with its rows at other positions. -/
def EventsTable.moved (t : EventsTable) {f : Int → Int} (hf : Function.Injective f) : EventsTable where
  rows := t.rows.map (EventRow.moved f)
  positions := by
    rw [List.map_map]
    exact List.map_map (g := f) (l := t.rows) ▸ t.positions.map hf
  versions := by
    rw [List.map_map]
    exact t.versions
  eventIDs := by
    rw [List.map_map]
    exact t.eventIDs

/-- Only the position of an envelope is read from the position of its row. -/
theorem scanEnvelope_withPosition {r : EventRow} {p u : UInt64} {q : Int}
    (hp : scanUint64 r.globalPosition = some p) (hq : scanUint64 q = some u) :
    scanEnvelope T { r with globalPosition := q } =
      (scanEnvelope T r).map (fun e => { e with globalPosition := u }) := by
  unfold scanEnvelope
  rw [hp, hq]
  cases scanUint64 r.version with
  | none => rfl
  | some version =>
    cases scanUint32 r.schemaVersion with
    | none => rfl
    | some schemaVersion =>
      rcases T.uuidParse r.eventID with ⟨eventID, _ | _⟩
      · rfl
      · cases parseCanonical r.streamID with
        | error err => rfl
        | ok sid => cases T.parseTS r.occurredAt <;> cases T.parseTS r.recordedAt <;> rfl

/-- A row that scans, scans at another position. -/
theorem scanEnvelope_moved {f : Int → Int} {r : EventRow} {e : Envelope} (h : scanEnvelope T r = .ok e)
    (hf : (scanUint64 (f r.globalPosition)).isSome) :
    scanEnvelope T (r.moved f) = .ok (movedEnvelope f e) := by
  obtain ⟨u, hu⟩ := Option.isSome_iff_exists.mp hf
  have hposition := position_of_scanEnvelope h
  have hmoved : UInt64.ofNat (f e.globalPosition.toNat).toNat = u := by
    rw [← (scanUint64_eq_some hposition).1, (scanUint64_eq_some hu).1, Int.toNat_natCast,
      UInt64.ofNat_toNat]
  rw [EventRow.moved, scanEnvelope_withPosition hposition hu, h, movedEnvelope, hmoved]
  rfl

/-- A chain is still one when its rows are moved. -/
theorem chainFrom_moved (f : Int → Int) {sid : StreamID} {n : Nat} {prev : Digest} {es : List Envelope}
    (h : ChainFrom sid n prev es) : ChainFrom sid n prev (es.map (movedEnvelope f)) := by
  induction es generalizing n prev with
  | nil => trivial
  | cons e es ih =>
    obtain ⟨hrow, htail⟩ := h
    have hsame : envelopeHash (movedEnvelope f e) = envelopeHash e := envelopeHash_congr rfl
    rw [List.map_cons]
    refine ⟨hrow.withPosition _, ?_⟩
    rw [hsame]
    exact ih htail

/-! ## What is checked -/

section Moved

variable {T : GoText} {t : EventsTable} {f : Int → Int} (hf : Function.Injective f)

/-- The rows of a stream in version order, after a move. -/
theorem orderByVersion_moved (f : Int → Int) (rows : List EventRow) :
    orderByVersion (rows.map (EventRow.moved f)) = (orderByVersion rows).map (EventRow.moved f) :=
  (List.map_mergeSort (f := EventRow.moved f) (fun _ _ _ _ => rfl)).symm

/-- **Verification does not look at the positions**, as long as they can be read. -/
theorem allVerify_moved (hscan : ∀ r ∈ t.rows, (scanUint64 (f r.globalPosition)).isSome)
    (h : AllVerify T since t) : AllVerify T since (t.moved hf) := by
  intro r' hr'
  obtain ⟨r, hr, rfl⟩ := List.mem_map.mp hr'
  obtain ⟨sid, envs, hverifies⟩ := h r hr
  have hfirst : (envs.map (movedEnvelope f)).head?.map (·.version) = some 1 := by
    rw [List.head?_map, Option.map_map]
    exact hverifies.first
  refine ⟨sid, envs.map (movedEnvelope f),
    { parse := hverifies.parse
      scan := ?_
      accepted := ?_
      first := hfirst }⟩
  · have hfilter : (t.moved hf).rows.filter (·.streamID = (r.moved f).streamID) =
        (t.rows.filter (·.streamID = r.streamID)).map (EventRow.moved f) := List.filter_map
    rw [hfilter, orderByVersion_moved]
    refine scanAll_map hverifies.scan (fun s hs e hse => scanEnvelope_moved hse (hscan s ?_))
    rw [orderByVersion, List.mem_mergeSort] at hs
    exact List.mem_of_mem_filter hs
  · refine ChainChecker.feed_chained (chainFrom_moved f hverifies.chained) ?_ ?_
    · intro hnil
      rw [hnil] at hfirst
      cases hfirst
    · intro e' he'
      obtain ⟨e, he, rfl⟩ := List.mem_map.mp he'
      obtain ⟨s, hs⟩ := hverifies.exists_row e he
      exact (scanUint64_eq_some (scanEnvelope_eq_ok hs).1).2

/-- The heads at a position are those before the move, if no row crosses it. -/
theorem heads_moved (hside : ∀ r ∈ t.rows, f r.globalPosition ≤ (upto.toNat : Int) ↔
      r.globalPosition ≤ (upto.toNat : Int)) : heads T (t.moved hf) upto = heads T t upto := by
  have hmax : ∀ streamID, maxVersionUpTo (t.moved hf).rows upto streamID =
      maxVersionUpTo t.rows upto streamID := by
    intro streamID
    have hfilter : (t.moved hf).rows.filter (fun r => r.streamID = streamID &&
        r.globalPosition ≤ (upto.toNat : Int)) =
        (t.rows.filter (fun r => r.streamID = streamID &&
          r.globalPosition ≤ (upto.toNat : Int))).map (EventRow.moved f) := by
      rw [EventsTable.moved, List.filter_map]
      refine congrArg _ (List.filter_congr (fun r hr => ?_))
      exact congrArg (_ && ·) (decide_eq_decide.mpr (hside r hr))
    rw [maxVersionUpTo, maxVersionUpTo, hfilter, List.map_map]
    rfl
  have hheads : (t.moved hf).rows.filter (fun r => IsHead (t.moved hf).rows upto r) =
      (t.rows.filter (fun r => IsHead t.rows upto r)).map (EventRow.moved f) := by
    simp only [IsHead, hmax]
    exact List.filter_map
  have horder : orderByStream ((t.rows.filter (fun r => IsHead t.rows upto r)).map (EventRow.moved f)) =
      (orderByStream (t.rows.filter (fun r => IsHead t.rows upto r))).map (EventRow.moved f) :=
    (List.map_mergeSort (f := EventRow.moved f) (fun _ _ _ _ => rfl)).symm
  rw [heads, heads, hheads, horder]
  -- a head is read without its position
  have hsame : ∀ rows, scanAll (scanHead T) (rows.map (EventRow.moved f)) = scanAll (scanHead T) rows := by
    intro rows
    induction rows with
    | nil => rfl
    | cons r rows ih =>
      rw [List.map_cons, scanAll, scanAll, ih]
      rfl
  rw [hsame]

/-- **An anchor does not look at the positions** either, as long as no row crosses the anchored one. -/
theorem checkAnchor_moved {a : Anchor}
    (hside : ∀ r ∈ t.rows, f r.globalPosition ≤ (a.uptoGlobalPosition.toNat : Int) ↔
      r.globalPosition ≤ (a.uptoGlobalPosition.toNat : Int)) :
    checkAnchor T (t.moved hf) a = checkAnchor T t a := by
  rw [checkAnchor, checkAnchor, heads_moved hf hside]

end Moved

/-! ## Order -/

/-- Two rows at or below the position are in the same order in the other table, where a row is found by
its stream and version. -/
def SameOrder (t t' : EventsTable) (upto : UInt64) : Prop :=
  ∀ r ∈ t.rows, ∀ s ∈ t.rows, r.globalPosition ≤ (upto.toNat : Int) →
    s.globalPosition ≤ (upto.toNat : Int) →
    ∀ r' ∈ t'.rows, ∀ s' ∈ t'.rows, (r'.streamID, r'.version) = (r.streamID, r.version) →
      (s'.streamID, s'.version) = (s.streamID, s.version) →
      (r'.globalPosition < s'.globalPosition ↔ r.globalPosition < s.globalPosition)

/-- There are no two rows at or below the position. -/
def AtMostOneUpTo (t : EventsTable) (upto : UInt64) : Prop :=
  ∀ r ∈ t.rows, ∀ s ∈ t.rows, r.globalPosition ≤ (upto.toNat : Int) →
    s.globalPosition ≤ (upto.toNat : Int) → r = s

/-- Nothing is out of order where there is nothing to order. -/
theorem AtMostOneUpTo.sameOrder (h : AtMostOneUpTo t upto) (t' : EventsTable) : SameOrder t t' upto := by
  intro r hr s hs hrle hsle r' hr' s' hs' hrkey hskey
  obtain rfl := h r hr s hs hrle hsle
  obtain rfl : r' = s' := List.inj_on_of_nodup_map t'.versions hr' hs' (hrkey.trans hskey.symm)
  exact iff_of_false (lt_irrefl _) (lt_irrefl _)

/-- Two rows that change places are in another order. -/
theorem not_sameOrder_swap {r s : EventRow} (hr : r ∈ t.rows) (hs : s ∈ t.rows)
    (hrle : r.globalPosition ≤ (upto.toNat : Int)) (hsle : s.globalPosition ≤ (upto.toNat : Int))
    (hne : r ≠ s) :
    ¬ SameOrder t (t.moved (Equiv.swap r.globalPosition s.globalPosition).injective) upto := by
  intro h
  have hpositions : r.globalPosition ≠ s.globalPosition :=
    fun heq => hne (List.inj_on_of_nodup_map t.positions hr hs heq)
  have hswapped := h r hr s hs hrle hsle _ (List.mem_map_of_mem hr) _ (List.mem_map_of_mem hs) rfl rfl
  simp only [EventRow.moved, Equiv.swap_apply_left, Equiv.swap_apply_right] at hswapped
  omega

/-- An anchor checks out against the table that it was taken on. -/
theorem checkAnchor_of_anchor {id : Bytes} {createdAt : Time} {db db' : Db} {a : Anchor}
    (ha : anchor T id createdAt upto db = .ok (db', a)) : checkAnchor T db.events a = .ok () := by
  obtain ⟨hs, hheads, ha⟩ := anchor_eq_ok ha
  rw [ha]
  exact checkAnchor_anchorOf hheads id createdAt

/-- A swap of two positions that can be read moves every row to a position that can be read. -/
theorem scan_swap (h : AllVerify T since t) {r s : EventRow} (hr : r ∈ t.rows) (hs : s ∈ t.rows) :
    ∀ x ∈ t.rows, (scanUint64 (Equiv.swap r.globalPosition s.globalPosition
      x.globalPosition)).isSome := by
  have hscan : ∀ x ∈ t.rows, (scanUint64 x.globalPosition).isSome := by
    intro x hx
    obtain ⟨sid, envs, hverifies⟩ := h x hx
    obtain ⟨e, -, he⟩ := hverifies.exists_env hx rfl
    rw [position_of_scanEnvelope he]
    rfl
  intro x hx
  rw [Equiv.swap_apply_def]
  split
  · exact hscan s hs
  split
  · exact hscan r hr
  · exact hscan x hx

/-- **Two rows below an anchor can change places**: every stream verifies as before, and so does the
anchor. -/
theorem verifies_swap {a : Anchor} (h : AllVerify T since t) {r s : EventRow} (hr : r ∈ t.rows)
    (hs : s ∈ t.rows) (hrle : r.globalPosition ≤ (a.uptoGlobalPosition.toNat : Int))
    (hsle : s.globalPosition ≤ (a.uptoGlobalPosition.toNat : Int)) :
    AllVerify T since (t.moved (Equiv.swap r.globalPosition s.globalPosition).injective) ∧
      checkAnchor T (t.moved (Equiv.swap r.globalPosition s.globalPosition).injective) a =
        checkAnchor T t a := by
  refine ⟨allVerify_moved _ (scan_swap h hr hs) h, checkAnchor_moved _ (fun x _ => ?_)⟩
  rw [Equiv.swap_apply_def]
  split
  · rename_i heq
    exact iff_of_true hsle (heq ▸ hrle)
  split
  · rename_i heq
    exact iff_of_true hrle (heq ▸ hsle)
  · rfl

/-- The database that honest appends have written verifies, with all times in range. -/
theorem allVerify_appendRun (hT : T.Documented) (cap : Int) {calls : List (AppendInputs × AppendParams)}
    (hcalls : ∀ c ∈ calls, TimesInRange c) (since : Time) :
    AllVerify T since (appendRun T cap (.empty, []) calls).1.events := by
  have hw : Written T (appendRun T cap (.empty, []) calls).1 (appendRun T cap (.empty, []) calls).2 :=
    written_appendRun (written_empty T) calls
  exact allVerify_of_scan hw since (scanEnvelope_appendRun hT (written_empty T).migrated hcalls)
    (fun sid => chainFrom_readBack T (hw.chained sid))

/-- **Anchors attest the order of rows only where there is nothing to order.** Take any calls of append,
successful or not, and an anchor on the database that they leave. If at most one row lies at or below the
anchored position, then in every table in which every stream verifies and the anchor matches, the rows
below it are in the same order; and for times in the years 1 to 9999, where the database itself can be
read and verifies, only then. -/
theorem anchor_attests_order_iff {T : GoText} (hT : T.Documented) (cap : Int)
    (calls : List (AppendInputs × AppendParams)) {id : Bytes} {createdAt : Time} {upto : UInt64}
    {db' : Db} {a : Anchor}
    (ha : anchor T id createdAt upto (appendRun T cap (.empty, []) calls).1 = .ok (db', a))
    (since : Time) :
    let t := (appendRun T cap (.empty, []) calls).1.events
    (AtMostOneUpTo t a.uptoGlobalPosition → ∀ t', AllVerify T since t' →
      checkAnchor T t' a = .ok () → SameOrder t t' a.uptoGlobalPosition) ∧
    ((∀ c ∈ calls, TimesInRange c) →
      (∀ t', AllVerify T since t' → checkAnchor T t' a = .ok () →
        SameOrder t t' a.uptoGlobalPosition) → AtMostOneUpTo t a.uptoGlobalPosition) := by
  refine ⟨fun h t' _ _ => h.sameOrder t', fun hcalls h r hr s hs hrle hsle => ?_⟩
  by_contra hne
  obtain ⟨hverify, hcheck⟩ := verifies_swap (allVerify_appendRun hT cap hcalls since) hr hs hrle hsle
  exact not_sameOrder_swap hr hs hrle hsle hne (h _ hverify (hcheck.trans (checkAnchor_of_anchor ha)))

/-- With one event below the anchor there is nothing to order. -/
theorem anchor_attests_order_first :
    ∃ db' a, anchor storeText [] ⟨0⟩ 1 (appendRun storeText 0 (.empty, []) [firstAppend]).1 =
        .ok (db', a) ∧
      ∀ t', AllVerify storeText .zero t' → checkAnchor storeText t' a = .ok () →
        SameOrder (appendRun storeText 0 (.empty, []) [firstAppend]).1.events t' 1 := by
  have hw : Written storeText (appendRun storeText 0 (.empty, []) [firstAppend]).1
      (appendRun storeText 0 (.empty, []) [firstAppend]).2 :=
    written_appendRun (written_empty storeText) [firstAppend]
  obtain ⟨db', a, ha, hupto, -⟩ := exists_anchor hw [] ⟨0⟩ 1 (by decide) (by decide) rfl
  refine ⟨db', a, ha, ?_⟩
  have horder := (anchor_attests_order_iff documented_storeText 0 [firstAppend] ha .zero).1
  rw [hupto] at horder
  have hone : (appendRun storeText 0 (.empty, []) [firstAppend]).1.events.rows.length = 1 := by
    decide +kernel
  refine horder (fun r hr s hs _ _ => ?_)
  obtain ⟨x, hx⟩ := List.length_eq_one_iff.mp hone
  rw [hx, List.mem_singleton] at hr hs
  rw [hr, hs]

/-- The first event of `counter:main`, and then the first of `counter:other`. -/
def twoStreams : List (AppendInputs × AppendParams) :=
  [firstAppend, (epochInputs, { firstAppend.2 with streamID := ⟨str "counter", str "other"⟩ })]

/-- Stream, version and position of the rows. -/
def EventsTable.placed (t : EventsTable) : List (Bytes × Int × Int) :=
  t.rows.map (fun r => (r.streamID, r.version, r.globalPosition))

/-- **The events of two streams change places** below an anchor: every stream verifies and the anchor
matches, but what was written last comes first. -/
theorem anchor_misses_order :
    ∃ db' a t', anchor storeText [] ⟨0⟩ 2 (appendRun storeText 0 (.empty, []) twoStreams).1 =
        .ok (db', a) ∧
      AllVerify storeText .zero t' ∧ checkAnchor storeText t' a = .ok () ∧
      (appendRun storeText 0 (.empty, []) twoStreams).1.events.placed =
        [(str "counter:main", 1, 1), (str "counter:other", 1, 2)] ∧
      t'.placed = [(str "counter:main", 1, 2), (str "counter:other", 1, 1)] := by
  have hw : Written storeText (appendRun storeText 0 (.empty, []) twoStreams).1
      (appendRun storeText 0 (.empty, []) twoStreams).2 :=
    written_appendRun (written_empty storeText) twoStreams
  have hcalls : ∀ c ∈ twoStreams, TimesInRange c := by
    intro c hc
    rcases List.mem_cons.mp hc with rfl | hc
    · exact ⟨by decide, by decide, by decide⟩
    · rw [List.mem_singleton.mp hc]
      exact ⟨by decide, by decide, by decide⟩
  obtain ⟨db', a, ha, hupto, hcheck⟩ := exists_anchor hw [] ⟨0⟩ 2 (by decide) (by decide) rfl
  refine ⟨db', a, EventsTable.moved _ (Equiv.swap (1 : Int) 2).injective, ha,
    allVerify_moved _ (by decide +kernel) (allVerify_appendRun documented_storeText 0 hcalls .zero), ?_,
    by decide +kernel, by decide +kernel⟩
  rw [checkAnchor_moved _ (by rw [hupto]; decide +kernel)]
  exact hcheck

end Sqlite

end EsLite
