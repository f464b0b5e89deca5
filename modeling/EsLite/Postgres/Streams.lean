import EsLite.Es.Honest
import EsLite.Foundation.Numbered
import EsLite.Foundation.Windows
import EsLite.Postgres.Settled

/-!
# Streams under concurrent appends

Head read, clock sample, position draw and insert are separate statements of an append, and any number
of other appends run between them. The primary key decides which of them go through: an insert that
does not violate it comes right after the head that its transaction read (`EsLite.Foundation.Numbered`).
So the committed rows of every stream are the versions `1, …, n`, in the order of their positions and
timestamps, and each hashed row links to the one before it (`no_forks`).
-/

namespace EsLite.Postgres

open Prog (perform ofResult issues_perform)

/-! ## Rows of a stream -/

/-- The row may come right after `prev` in its stream. -/
structure Succeeds (prev : Option (Placed Envelope)) (r : Placed Envelope) : Prop where
  position : ∀ q ∈ prev, q.position < r.position
  recordedAt : ∀ q ∈ prev, q.row.recordedAt.ns ≤ r.row.recordedAt.ns
  hash : r.row.hash.isSome → r.row.hash = some (envelopeHash r.row).bytes
  prevHash : r.row.hash.isSome → r.row.prevHash = some (headOf r.row.streamID prev).2.bytes

/-- The streams of the events table. -/
def streams : Numbering Envelope (Bytes × Bytes) where
  key e := (e.workspace, e.streamID.canonical)
  num e := e.versionNat
  next := Succeeds

/-- The primary key admits one row for each stream and version. -/
theorem clash_of_version {a b : Envelope} (hkey : streams.key a = streams.key b)
    (hnum : streams.num a = streams.num b) : clash a b = true := by
  obtain ⟨hws, hstream⟩ := Prod.mk.inj hkey
  have hversion : a.version = b.version := UInt64.toNat_inj.mp hnum
  simp [clash, hws, hstream, hversion]

/-- The head of a stream is its last row. -/
theorem selectHead_eq {rows : List (Placed Envelope)} {ws stream : Bytes}
    (h : streams.Seq (streams.stream (ws, stream) rows)) :
    selectHead rows ws stream = (streams.stream (ws, stream) rows).getLast? := by
  have hfilter : rows.filter (fun r => r.row.workspace = ws && r.row.streamID.canonical = stream) =
      streams.stream (ws, stream) rows := by
    refine List.filter_congr (fun r _ => ?_)
    simp [streams]
  rw [selectHead, hfilter]
  exact maxOn?_eq_getLast? h.pairwise_num

/-- The version of a head is its number. -/
theorem headOf_version (sid : StreamID) (prev : Option (Placed Envelope)) :
    (headOf sid prev).1.toNat = streams.numOf prev := by
  cases prev <;> rfl

/-! ## The invariant -/

/-- What holds in every reachable state besides `Inv`: the streams are numbered, no row was recorded
after the present, and claims are changed in transactions. -/
structure Chains (s : State) : Prop where
  numbered : streams.Numbered s.events
  clock : ∀ e ∈ s.events.rows, e.recordedAt.ns ≤ s.now.ns
  /-- The column has the precision of a microsecond. -/
  micros : ∀ e ∈ s.events.rows, e.recordedAt.ns % 1000 = 0
  writers : ∀ w ∈ s.claimWrites, w.1 < s.events.nextTx

/-- The state has numbered streams, and open transactions see in it what they saw before. -/
structure Grows (s s' : State) : Prop where
  chains : Chains s'
  retains : s.events.Retains s'.events
  now : s.now.ns ≤ s'.now.ns

variable {s s' : State} {prev : Option (Placed Envelope)} {sid : StreamID} {t : Nat} {version : UInt64}

theorem Grows.refl (h : Chains s) : Grows s s := ⟨h, .refl _, le_rfl⟩

theorem Grows.trans {t u : State} (hst : Grows s t) (htu : Grows t u) : Grows s u :=
  ⟨htu.chains, hst.retains.trans htu.retains, hst.now.trans htu.now⟩

/-- A step that adds no row, and changes claims in known transactions. -/
theorem Chains.grows (h : Chains s) (hnumbered : streams.Numbered s'.events)
    (hretains : s.events.Retains s'.events) (hrows : ∀ e ∈ s'.events.rows, e ∈ s.events.rows)
    (hnow : s.now.ns ≤ s'.now.ns)
    (hwriters : ∀ w ∈ s'.claimWrites, w ∈ s.claimWrites ∨ w.1 < s.events.nextTx) : Grows s s' := by
  refine ⟨⟨hnumbered, fun e he => (h.clock e (hrows e he)).trans hnow,
    fun e he => h.micros e (hrows e he), fun w hw => ?_⟩, hretains, hnow⟩
  rcases hwriters w hw with hw | hw
  · exact (h.writers w hw).trans_le hretains.nextTx
  · exact hw.trans_le hretains.nextTx

/-- A step that leaves the events alone. -/
theorem Chains.grows_of_events_eq (h : Chains s) (he : s'.events = s.events)
    (hnow : s.now.ns ≤ s'.now.ns)
    (hwriters : ∀ w ∈ s'.claimWrites, w ∈ s.claimWrites ∨ w.1 < s.events.nextTx) : Grows s s' :=
  h.grows (he ▸ h.numbered) (he ▸ .refl _) (he ▸ fun _ h => h) hnow hwriters

theorem Chains.abort (h : Chains s) (t : Nat) : Grows s (s.abort t) := by
  refine h.grows (h.numbered.abort t) (Mvcc.retains_abort t) (fun e he => ?_) le_rfl
    (fun w hw => .inl (List.mem_filter.mp hw).1)
  have hrows := Mvcc.rows_finish (List.nil_sublist (s.events.ownRows t))
  rw [List.append_nil] at hrows
  exact hrows.subset he

theorem Chains.commit (h : Chains s) (hs : Inv s) (t : Nat) : Grows s (s.commit t) :=
  h.grows (h.numbered.commit clash_comm (fun _ _ => clash_of_version) hs.valid t)
    (Mvcc.retains_commit t) (fun _ he => (Mvcc.rows_finish (List.Sublist.refl _)).subset he) le_rfl
    (fun _ hw => .inl (List.mem_filter.mp hw).1)

/-! ## Statements -/

/-- The calls that insert no row. -/
def Op.insertsNothing : Op → Prop
  | .insertEvent .. => False
  | _ => True

theorem Op.anchors.insertsNothing {o : Op} (h : o.anchors) : o.insertsNothing := by
  cases o <;> first | exact trivial | exact h.elim

/-- What is written other than a row grows. -/
theorem wrote_grows {o : Op} (ho : o.insertsNothing) (hi : Inv s) (hs : Chains s) (h : Wrote s o s') :
    Grows s s' := by
  have hsame : ∀ w ∈ s.claimWrites, w ∈ s.claimWrites ∨ w.1 < s.events.nextTx := fun _ hw => .inl hw
  have hone : ∀ {t : Nat} {x : ClaimWrite}, t ∈ s.events.opened →
      ∀ w ∈ s.claimWrites ++ [(t, x)], w ∈ s.claimWrites ∨ w.1 < s.events.nextTx := by
    intro t x ht w hw
    refine (List.mem_append.mp hw).imp_right (fun hw => ?_)
    rw [List.mem_singleton.mp hw]
    exact hi.valid.opened_lt t ht
  cases h with
  | nothing => exact .refl hs
  | began =>
    exact hs.grows (hs.numbered.of_frame rfl rfl) Mvcc.retains_openTx (fun _ he => he) le_rfl
      hsame
  | xid ht =>
    rename_i t
    -- an id changes neither the rows nor who is open
    have hframe : (s.events.assignXid t).1.committed = s.events.committed ∧
        (s.events.assignXid t).1.pending = s.events.pending := by
      rcases Mvcc.assignXid_cases t s.events with ⟨x, -, heq⟩ | ⟨-, heq⟩ <;> rw [heq] <;>
        exact ⟨rfl, rfl⟩
    refine hs.grows (hs.numbered.of_frame hframe.1 hframe.2) (Mvcc.retains_assignXid t)
      (fun e he => ?_) le_rfl hsame
    rwa [Mvcc.rows, hframe.1, hframe.2] at he
  | drew ht hlt =>
    exact hs.grows (hs.numbered.of_frame rfl rfl) (Mvcc.retains_draw _) (fun _ he => he) le_rfl
      hsame
  | inserted ht hdb => exact ho.elim
  | released c ht => exact hs.grows_of_events_eq rfl le_rfl (hone ht)
  | claimed c ht => exact hs.grows_of_events_eq rfl le_rfl (hone ht)
  | locked => exact hs.grows_of_events_eq rfl le_rfl hsame
  | unlocked => exact hs.grows_of_events_eq rfl le_rfl hsame
  | fenced l r => exact hs.grows_of_events_eq rfl le_rfl hsame

/-- **Every call that inserts no row grows.** -/
theorem exec_grows {o : Op} (ho : o.insertsNothing) {c : Choice} {r : Res o} (hi : Inv s) (hs : Chains s)
    (h : exec o c s = some (s', r)) : Grows s s' := by
  cases exec_effect h with
  | wrote hw => exact wrote_grows ho hi hs hw
  | aborted ht hw =>
    have hgrows := wrote_grows ho hi hs hw
    exact hgrows.trans (hgrows.chains.abort _)
  | committed => exact hs.commit hi _

theorem envStep_grows {e : EnvStep} (hs : Chains s) (h : envStep e s = some s') : Grows s s' := by
  cases e with
  | advance ns =>
    cases h
    refine hs.grows_of_events_eq rfl ?_ (fun _ hw => .inl hw)
    show s.now.ns ≤ s.now.ns + ns
    omega
  | kill t =>
    cases h
    exact hs.abort t

/-! ## The logic of streams -/

/-- What the programs of the store rely on for the streams, in states that satisfy `Inv`. -/
def streamLogic : Logic State Op where
  inv := Chains
  le s t := s.events.Retains t.events ∧ s.now.ns ≤ t.now.ns
  allowed _ s := Inv s
  refl _ := ⟨.refl _, le_rfl⟩
  trans _ _ _ h h' := ⟨h.1.trans h'.1, h.2.trans h'.2⟩

theorem Grows.respects (h : Grows s s') : streamLogic.inv s' ∧ streamLogic.le s s' :=
  ⟨h.chains, h.retains, h.now⟩

/-- What an append knows of the row before its next one: its transaction sees it, and its position and
timestamp are in the past. -/
structure Last (t : Nat) (ws : Bytes) (sid : StreamID) (prev : Option (Placed Envelope)) (s : State) :
    Prop where
  sees : streams.Sees t (ws, sid.canonical) prev s.events
  position : ∀ q ∈ prev, q.position ≤ s.events.drawn
  recordedAt : ∀ q ∈ prev, q.row.recordedAt.ns ≤ s.now.ns
  micros : ∀ q ∈ prev, q.row.recordedAt.ns % 1000 = 0

theorem Last.mono {ws : Bytes} (h : Last t ws sid prev s) (hle : streamLogic.le s s') :
    Last t ws sid prev s' where
  sees := h.sees.mono hle.1
  position q hq := (h.position q hq).trans hle.1.drawn
  recordedAt q hq := (h.recordedAt q hq).trans hle.2
  micros := h.micros

/-- The head that a transaction reads. -/
theorem last_selectHead (hi : Inv s) (hs : Chains s) (ht : t ∈ s.events.opened) (ws : Bytes)
    (sid : StreamID) : Last t ws sid (selectHead (s.events.visible t) ws sid.canonical) s := by
  rw [selectHead_eq (hs.numbered t _)]
  have hmem : ∀ q ∈ (streams.stream (ws, sid.canonical) (s.events.visible t)).getLast?,
      q ∈ s.events.visible t :=
    fun q hq => (Numbering.mem_stream.mp (List.mem_of_getLast? hq)).1
  refine ⟨Numbering.sees_getLast? hi.valid ht, fun q hq => ?_,
    fun q hq => hs.clock _ (Mvcc.mem_rows_of_visible (hmem q hq)),
    fun q hq => hs.micros _ (Mvcc.mem_rows_of_visible (hmem q hq))⟩
  exact (hi.valid.positions_drawn _ (Mvcc.mem_positions_of_visible (hmem q hq))).2

/-- Versions do not wrap: a stream has no more rows than positions were drawn. -/
theorem version_succ (hi : Inv s) (hs : Chains s) (ht : t ∈ s.events.opened) {k : Bytes × Bytes}
    (hsees : streams.Sees t k prev s.events) (hversion : version.toNat = streams.numOf prev) :
    (version + 1).toNat = streams.numOf prev + 1 := by
  have hlen := (hsees.numOf_le hs.numbered ht).trans (hi.valid.length_visible_le t)
  have hdrawn := hi.drawn_lt
  rw [UInt64.toNat_add, hversion, show (1 : UInt64).toNat = 1 from rfl]
  omega

/-- **The insert of an append** right after the row it saw grows. -/
theorem insertEvent_grows {gp : Nat} {e : Envelope} {c : Choice} {r : Except DbError Unit}
    (h : exec (.insertEvent t gp e) c s = some (s', r)) (hs : Chains s)
    (hsees : streams.Sees t (streams.key e) prev s.events)
    (hnum : t ∈ s.events.opened → e.versionNat = streams.numOf prev + 1) (hnext : Succeeds prev ⟨gp, e⟩)
    (hclock : e.recordedAt.ns ≤ s.now.ns) (hmicros : e.recordedAt.ns % 1000 = 0) : Grows s s' := by
  have hwrote : ∀ {x : State}, Wrote s (.insertEvent t gp e) x → Grows s x := by
    intro x hw
    cases hw with
    | nothing => exact .refl hs
    | inserted ht hdb =>
      rename_i db
      have hrows : ∀ e' ∈ db.rows, e' ∈ s.events.rows ∨ e' = e := by
        rcases Mvcc.insert_cases hdb with ⟨h0, -⟩ | ⟨-, -, -, rfl⟩
        · cases h0
        · intro e' he'
          simp only [Mvcc.rows, List.map_append, List.map_cons, List.map_nil, List.mem_append,
            List.mem_singleton] at he' ⊢
          tauto
      have hretains := Mvcc.retains_insert hdb
      refine ⟨⟨?_, fun e' he' => ?_, fun e' he' => ?_,
        fun w hw => (hs.writers w hw).trans_le hretains.nextTx⟩, hretains, le_rfl⟩
      · exact hs.numbered.insert (fun _ _ => clash_of_version) hsees ht (hnum ht) hnext hdb
      · rcases hrows e' he' with he' | rfl
        · exact hs.clock e' he'
        · exact hclock
      · rcases hrows e' he' with he' | rfl
        · exact hs.micros e' he'
        · exact hmicros
  cases exec_effect h with
  | wrote hw => exact hwrote hw
  | aborted ht hw => exact (hwrote hw).trans ((hwrote hw).chains.abort _)
  | committed ho ht => cases ho

/-- The transaction then sees the row, unless the insert failed. -/
theorem sees_insertEvent {gp : Nat} {e : Envelope} (hi : Inv s) (ht : t ∈ s.events.opened)
    (h : s.insertEvent t gp e = some (s', .ok ())) :
    streams.Sees t (streams.key e) (some ⟨gp, e⟩) s'.events ∧ ⟨gp, e⟩ ∈ s'.events.ownRows t ∧
      s'.events.drawn = s.events.drawn ∧ s'.now = s.now := by
  unfold State.insertEvent at h
  split at h
  · cases h
  · obtain ⟨⟨db, ok⟩, hins, hx⟩ := Option.map_eq_some_iff.mp h
    cases ok with
    | false => cases hx
    | true =>
      cases hx
      refine ⟨Numbering.sees_insert hi.valid ht hins, ?_⟩
      rcases Mvcc.insert_cases hins with ⟨h0, -⟩ | ⟨-, -, -, rfl⟩
      · cases h0
      · exact ⟨Mvcc.mem_ownRows.mpr (List.mem_append_right _ (List.mem_singleton_self _)), rfl, rfl⟩

/-! ## Appends -/

/-- The transaction has ended. -/
structure Closed (t : Nat) (s : State) : Prop where
  lt : t < s.events.nextTx
  notMem : t ∉ s.events.opened

theorem Closed.mono (h : Closed t s) (hle : streamLogic.le s s') : Closed t s' :=
  ⟨h.lt.trans_le hle.1.nextTx, fun ht => h.notMem (hle.1.opened t ht h.lt).1⟩

section Appends

open Logic

variable {cap : Int} {ws ws' : Bytes} {s : State} {p : AppendParams} {t : Nat}

/-- Calls that insert no row need no reason. -/
theorem keeps_insertsNothing : streamLogic.Keeps (postgres cap ws) Op.insertsNothing :=
  fun _ ho _ hs hi _ _ _ hex => (exec_grows ho hi hs hex).respects

/-- The rule for one call that inserts no row: only its reply matters. -/
theorem wp_free_op {o : Op} (ho : o.insertsNothing) {R : Res o → State → Prop}
    (h : ∀ c u u' r, streamLogic.le s u → Chains u → Inv u → Grows u u' →
      exec o c u = some (u', r) → streamLogic.Always (R r) u') :
    streamLogic.WP (postgres cap ws) R (Prog.op o) s :=
  WP.call (fun u hu hs hi c u' r hex =>
    have hgrows := exec_grows ho hi hs hex
    ⟨hgrows.respects.1, hgrows.respects.2, WP.ret (h c u u' r hu hs hi hgrows hex)⟩)

/-- A failed statement in a run of statements of `t` leaves `t` closed. -/
theorem closed_of_error {α : Type} {u u' : State} {f : Fault} {r : Option (State × Except DbError α)}
    {e : DbError} (hlt : t < s.events.nextTx) (hu : streamLogic.le s u) (hgrows : Grows u u')
    (h : u.statement t f r = some (u', .error e)) : streamLogic.Always (Closed t) u' :=
  fun _ hv _ => Closed.mono
    ⟨(hlt.trans_le hu.1.nextTx).trans_le hgrows.retains.nextTx, statement_error h⟩ hv

/-- The head that an append reads, and what it knows of it from then on. -/
theorem wp_selectHead (hlt : t < s.events.nextTx) :
    streamLogic.WP (postgres cap ws) (Ends (fun _ => Closed t) (fun row u => Last t ws' sid row u))
      (Prog.op (Op.readHead t ws' sid.canonical)) s := by
  refine wp_free_op (by trivial) (fun c u u' r hu hs hi hgrows hex => ?_)
  cases r with
  | error e => exact closed_of_error hlt hu hgrows hex
  | ok row =>
    obtain ⟨ht, -⟩ := statement_ok hex
    obtain ⟨rfl, rfl⟩ := query_ok hex
    exact fun v hv _ => (last_selectHead hi hs ht ws' sid).mono hv

theorem wp_readHead (hlt : t < s.events.nextTx) :
    streamLogic.WP (postgres cap ws)
      (Ends (fun _ => Closed t) (fun head u => ∃ prev, head = headOf sid prev ∧ Last t ws' sid prev u))
      (readHead ws' sid t).run s :=
  WP.thenEnds (wp_stmt_ends (wp_selectHead hlt))
    (fun row _ _ _ hlast => WP.ret (fun v hv hs => ⟨row, rfl, hlast v hv hs⟩))

/-- The transaction holds a row of the stream with this version, as long as it is open. -/
structure Holds (t : Nat) (ws : Bytes) (sid : StreamID) (n : Nat) (s : State) : Prop where
  lt : t < s.events.nextTx
  mem : t ∈ s.events.opened →
    ∃ r ∈ streams.stream (ws, sid.canonical) (s.events.ownRows t), r.row.versionNat = n

theorem Holds.mono {n : Nat} (h : Holds t ws sid n s) (hle : streamLogic.le s s') :
    Holds t ws sid n s' := by
  refine ⟨h.lt.trans_le hle.1.nextTx, fun ht => ?_⟩
  obtain ⟨hopen, hown⟩ := hle.1.opened t ht h.lt
  obtain ⟨r, hr, hv⟩ := h.mem hopen
  obtain ⟨hr, hk⟩ := Numbering.mem_stream.mp hr
  exact ⟨r, Numbering.mem_stream.mpr ⟨hown r hr, hk⟩, hv⟩

/-- One event of an append: the position is drawn after the row before it was seen, and the insert
goes through only right after that row. -/
theorem wp_insertRow_after {occurred recorded : Time} {id : UUID} {ev : EventData} {env : Envelope}
    (henv : env = appendEnvelope ws' p occurred recorded id (version + 1)
      (headOf p.streamID prev).2 ev) (hlast : Last t ws' p.streamID prev s)
    (hversion : version.toNat = streams.numOf prev)
    (hafter : ∀ q ∈ prev, q.row.recordedAt.ns ≤ recorded.ns) (hnow : recorded.ns ≤ s.now.ns)
    (hmicros : recorded.ns % 1000 = 0) :
    streamLogic.WP (postgres cap ws)
      (Ends (fun _ => Closed t) (fun gp u => Last t ws' p.streamID (some ⟨gp, env⟩) u ∧
        Holds t ws' p.streamID (streams.numOf prev + 1) u))
      (insertRow t env).run s := by
  subst henv
  -- the draw: a position above that of the row before
  refine WP.thenEnds (R := fun gp u => gp ≤ u.events.drawn ∧ ∀ q ∈ prev, q.position < gp)
    (wp_stmt_ends (wp_free_op (by trivial) (fun c u u' r hu _ _ hgrows hex => ?_)))
    (fun gp u hu _ hgp => ?_)
  · cases r with
    | error e => exact closed_of_error hlast.sees.lt hu hgrows hex
    | ok gp =>
      have hval := Option.some.inj (statement_ok hex).2
      unfold State.nextval at hval
      split at hval
      · cases hval
        refine fun v hv _ => ⟨hv.1.drawn, fun q hq => ?_⟩
        exact Nat.lt_succ_of_le (((hlast.mono hu).position) q hq)
      · cases hval
  -- the insert
  refine WP.thenEnds (R := fun _ v => Last t ws' p.streamID (some ⟨gp, _⟩) v ∧
      Holds t ws' p.streamID (streams.numOf prev + 1) v)
    (wp_stmt_ends (WP.call (fun v hv hs hi c v' r hex => ?_)))
    (fun _ v _ _ hpost => WP.ret hpost)
  have hlast' : Last t ws' p.streamID prev v := (hlast.mono hu).mono hv
  have hnow' : recorded.ns ≤ v.now.ns := (hnow.trans hu.2).trans hv.2
  obtain ⟨hdrawn, hpos⟩ := hgp v hv hs
  have hgrows : Grows v v' := insertEvent_grows hex hs hlast'.sees
    (fun ht => version_succ hi hs ht hlast'.sees hversion)
    ⟨hpos, hafter, fun _ => rfl, fun _ => rfl⟩ hnow' hmicros
  refine ⟨hgrows.respects.1, hgrows.respects.2, WP.ret ?_⟩
  cases r with
  | error e => exact closed_of_error hlast'.sees.lt (streamLogic.refl v) hgrows hex
  | ok _ =>
    obtain ⟨ht, hx⟩ := statement_ok hex
    obtain ⟨hsees, hown, hdrawn', hnow''⟩ := sees_insertEvent hi ht hx
    have hlt : t < v'.events.nextTx := hsees.lt
    refine fun w hw _ => ⟨Last.mono ⟨hsees, ?_, ?_, ?_⟩ hw, Holds.mono ⟨hlt, fun _ => ⟨_,
      Numbering.mem_stream.mpr ⟨hown, rfl⟩, version_succ hi hs ht hlast'.sees hversion⟩⟩ hw⟩
    · rintro q ⟨⟩
      rwa [hdrawn']
    · rintro q ⟨⟩
      rwa [hnow'']
    · rintro q ⟨⟩
      exact hmicros

/-- The id of an event is not a matter of the database. -/
theorem wp_eventID {E : AppendError → State → Prop} {ev : EventData} :
    streamLogic.WP (postgres cap ws) (Ends E (fun _ _ => True)) (eventID ev).run s := by
  unfold eventID
  split
  · refine wp_perform_ends (WP.of_issues keeps_insertsNothing (.op ?_) s)
    exact trivial
  · exact WP.ret (fun _ _ _ => trivial)

/-- The events of an append, each right after the one before. -/
theorem wp_insertEvents_after {occurred recorded : Time} {evs : List EventData}
    (hlast : Last t ws' p.streamID prev s) (hversion : version.toNat = streams.numOf prev)
    (hafter : ∀ q ∈ prev, q.row.recordedAt.ns ≤ recorded.ns) (hnow : recorded.ns ≤ s.now.ns)
    (hmicros : recorded.ns % 1000 = 0) :
    streamLogic.WP (postgres cap ws)
      (Ends (fun _ => Closed t)
        (fun _ u => evs ≠ [] → Holds t ws' p.streamID (streams.numOf prev + 1) u))
      (insertEvents ws' p t occurred recorded version (headOf p.streamID prev).2 evs).run s := by
  induction evs generalizing version prev s with
  | nil => exact WP.ret (fun _ _ _ h => absurd rfl h)
  | cons ev evs ih =>
    refine WP.thenEnds wp_eventID (fun id u hu _ _ => ?_)
    refine WP.thenEnds (wp_insertRow_after rfl (hlast.mono hu) hversion hafter (hnow.trans hu.2)
      hmicros) (fun gp v hv hs hpost => ?_)
    obtain ⟨hnext, -⟩ := hpost v (streamLogic.refl v) hs
    -- the rest links to the row just inserted
    have hrest := ih hnext (show (version + 1).toNat = _ from rfl)
      (fun q hq => by cases hq; exact le_rfl) ((hnow.trans hu.2).trans hv.2)
    rw [headOf, show ∀ e d, digestOr (appendEnvelope ws' p occurred recorded id (version + 1) e ev).hash d =
      envelopeHash (appendEnvelope ws' p occurred recorded id (version + 1) e ev) from
        fun e d => digestOr_some _ _] at hrest
    exact WP.thenEnds hrest (fun _ w hw _ _ => WP.ret (fun x hx hxs _ =>
      (hpost x (streamLogic.trans _ _ _ hw hx) hxs).2))

/-- A change of a claim ends the transaction when it fails. -/
theorem wp_claim {wrap : DbError → AppendError} {c : ClaimRow} (hlt : t < s.events.nextTx) :
    streamLogic.WP (postgres cap ws) (Ends (fun _ => Closed t) (fun _ _ => True))
        (stmt wrap (Prog.op (Op.deleteClaim t c))).run s ∧
      streamLogic.WP (postgres cap ws) (Ends (fun _ => Closed t) (fun _ _ => True))
        (stmt wrap (Prog.op (Op.insertClaim t c))).run s := by
  constructor
  · refine wp_stmt_ends (wp_free_op (by trivial) (fun c u u' r hu _ _ hgrows hex => ?_))
    cases r with
    | error e => exact closed_of_error hlt hu hgrows hex
    | ok _ => exact fun _ _ _ => trivial
  · refine wp_stmt_ends (wp_free_op (by trivial) (fun c u u' r hu _ _ hgrows hex => ?_))
    cases r with
    | error e => exact closed_of_error hlt hu hgrows hex
    | ok _ => exact fun _ _ _ => trivial

theorem wp_applyClaims {stream : Bytes} {ops : List ConstraintOp} (hlt : t < s.events.nextTx) :
    streamLogic.WP (postgres cap ws) (Ends (fun _ => Closed t) (fun _ _ => True))
      (applyClaims ws' stream t ops).run s := by
  have hrelease : ∀ ops (s : State), t < s.events.nextTx →
      streamLogic.WP (postgres cap ws) (Ends (fun _ => Closed t) (fun _ _ => True))
        (releaseClaims ws' stream t ops).run s := by
    intro ops
    induction ops with
    | nil => exact fun s _ => WP.ret (fun _ _ _ => trivial)
    | cons o os ih =>
      intro s hlt
      rw [releaseClaims]
      split
      · exact WP.thenEnds (wp_claim hlt).1 (fun _ u hu _ _ => ih u (hlt.trans_le hu.1.nextTx))
      · exact ih s hlt
  have hinsert : ∀ ops (s : State), t < s.events.nextTx →
      streamLogic.WP (postgres cap ws) (Ends (fun _ => Closed t) (fun _ _ => True))
        (insertClaims ws' stream t ops).run s := by
    intro ops
    induction ops with
    | nil => exact fun s _ => WP.ret (fun _ _ _ => trivial)
    | cons o os ih =>
      intro s hlt
      rw [insertClaims]
      split
      · exact WP.thenEnds (wp_claim hlt).2 (fun _ u hu _ _ => ih u (hlt.trans_le hu.1.nextTx))
      · exact ih s hlt
  exact WP.thenEnds (hrelease ops s hlt) (fun _ u hu _ _ => hinsert ops u (hlt.trans_le hu.1.nextTx))

/-- What an append does once it has read the head of its stream and found the expected version. -/
def appendRows (ws : Bytes) (p : AppendParams) (t : Nat) (occurred : Time) (head : UInt64 × Digest) :
    Pg AppendError AppendResult := do
  let recorded ← stmt (appendErr "read commit clock") (.op (Op.clockTimestamp t))
  let envs ← insertEvents ws p t (truncateMicros occurred) (truncateMicros recorded)
    p.expectedVersion head.2 p.events
  applyClaims ws p.streamID.canonical t p.constraints
  pure ⟨p.expectedVersion, p.expectedVersion + UInt64.ofNat p.events.length, envs⟩

theorem append_eq (cap : Int) (ws : Bytes) (p : AppendParams) (t : Nat) : append cap ws p t = (do
    ofResult (checkPayloads cap p.streamID p.expectedVersion p.events)
    let _ ← stmt (appendErr "assign append xid") (.op (Op.currentXid t))
    let occurred ← occurredAt p
    let head ← readHead ws p.streamID t
    ofResult (checkVersion p head.1)
    appendRows ws p t occurred head) := rfl

theorem checkVersion_ok {u : Unit} (h : checkVersion p (headOf p.streamID prev).1 = .ok u) :
    p.expectedVersion.toNat = streams.numOf prev := by
  unfold checkVersion at h
  split at h
  · cases h
  · rename_i heq
    rw [← headOf_version p.streamID prev, not_not.mp heq]

theorem truncateMicros_le (x : Time) : (truncateMicros x).ns ≤ x.ns := by
  show x.ns - x.ns % 1000 ≤ x.ns
  omega

theorem truncateMicros_micros (x : Time) : (truncateMicros x).ns % 1000 = 0 := by
  show (x.ns - x.ns % 1000) % 1000 = 0
  omega

/-- A whole microsecond in the past is not after the present cut to the microsecond. -/
theorem le_truncateMicros {x y : Time} (hy : y.ns % 1000 = 0) (h : y.ns ≤ x.ns) :
    y.ns ≤ (truncateMicros x).ns := by
  show y.ns ≤ x.ns - x.ns % 1000
  omega

/-- **What an append does after its head read keeps the streams.** When it succeeds, its transaction
holds the version after the expected one; when it fails, its transaction has ended. -/
theorem wp_appendRows {occurred : Time} (hlast : Last t ws' p.streamID prev s)
    (hversion : p.expectedVersion.toNat = streams.numOf prev) :
    streamLogic.WP (postgres cap ws)
      (Ends (fun _ => Closed t)
        (fun _ u => p.events ≠ [] → Holds t ws' p.streamID (p.expectedVersion.toNat + 1) u))
      (appendRows ws' p t occurred (headOf p.streamID prev)).run s := by
  -- the clock is read after the head
  refine WP.thenEnds (R := fun recorded v => recorded.ns ≤ v.now.ns ∧
      ∀ q ∈ prev, q.row.recordedAt.ns ≤ recorded.ns)
    (wp_stmt_ends (wp_free_op (by trivial) (fun c v v' r hv _ _ hgrows hex => ?_)))
    (fun recorded v hv hs hrec => ?_)
  · cases r with
    | error e => exact closed_of_error hlast.sees.lt hv hgrows hex
    | ok recorded =>
      obtain ⟨rfl, rfl⟩ := query_ok hex
      exact fun w hw _ => ⟨hw.2, fun q hq => (hlast.mono hv).recordedAt q hq⟩
  obtain ⟨hnow, hafter⟩ := hrec v (streamLogic.refl v) hs
  refine WP.thenEnds (wp_insertEvents_after (hlast.mono hv) hversion
    (fun q hq => le_truncateMicros (hlast.micros q hq) (hafter q hq))
    ((truncateMicros_le recorded).trans hnow) (truncateMicros_micros recorded))
    (fun envs w hw _ hholds => ?_)
  refine WP.thenEnds (wp_applyClaims ((hlast.mono hv).mono hw).sees.lt) (fun _ x hx _ _ => ?_)
  refine WP.ret (fun y hy hs hne => ?_)
  rw [hversion]
  exact hholds y (streamLogic.trans _ _ _ hx hy) hs hne

end Appends

end EsLite.Postgres
