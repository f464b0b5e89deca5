import EsLite.Es.Honest
import EsLite.Postgres.Streams

/-!
# No forks

Every program of the store keeps the streams numbered, so every interleaving of them does: the committed
rows of each stream are the versions `1, …, n`, and each hashed row links to the one before it
(`no_forks`).
-/

namespace EsLite.Postgres

open Prog (perform ofResult issues_perform)

/-! ## Appends -/

variable {s : State} {steps : List CallerStep} {rows : List (Placed Envelope)}
  {as : List (PoolAction Call Choice EnvStep)}

section Appends

open Logic

variable {cap : Int} {ws ws' : Bytes} {s : State} {p : AppendParams} {t : Nat}

/-- **An append that succeeds** has put the next version of its stream into its transaction. -/
theorem wp_append_streams :
    streamLogic.WP (postgres cap ws)
      (OnOk fun _ u => p.events ≠ [] → Holds t ws' p.streamID (p.expectedVersion.toNat + 1) u)
      (append cap ws' p t).run s := by
  rw [append_eq]
  refine WP.issues_then keeps_insertsNothing trivial (fun _ _ _ _ => ?_)
  -- an open transaction has a name that was given out, which is all that the head read needs
  refine WP.andThen (R := fun _ u => t < u.events.nextTx)
    (wp_stmt (wp_free_op (by trivial) (fun c u u' r _ _ hi hgrows hex => ?_))) (fun _ u _ hs hlt => ?_)
  · cases r with
    | error e => exact fun _ _ _ => trivial
    | ok x =>
      have ht := hi.valid.opened_lt t (statement_ok hex).1
      exact fun v hv _ => (ht.trans_le hgrows.retains.nextTx).trans_le hv.1.nextTx
  have hlt : t < u.events.nextTx := hlt u (streamLogic.refl u) hs
  refine WP.issues_then keeps_insertsNothing (issues_occurredAt trivial) (fun _ v hv _ => ?_)
  refine WP.andThen (wp_readHead (hlt.trans_le hv.1.nextTx)).onOk (fun head w _ hs hhead => ?_)
  obtain ⟨prev, rfl, hlast⟩ := hhead w (streamLogic.refl w) hs
  refine WP.andThen (R := fun _ _ => p.expectedVersion.toNat = streams.numOf prev)
    (wp_ofResult (fun _ hok => fun _ _ _ => checkVersion_ok hok)) (fun _ x hx hs hversion => ?_)
  exact (wp_appendRows (hlast.mono hx) (hversion x (streamLogic.refl x) hs)).onOk

/-- The same in a transaction of the caller. -/
theorem wp_appendTx_streams :
    streamLogic.WP (postgres cap ws)
      (OnOk fun _ u => p.events ≠ [] → Holds t ws' p.streamID (p.expectedVersion.toNat + 1) u)
      (appendTx cap ws' p t).run s := by
  refine WP.issues_then keeps_insertsNothing trivial (fun _ _ _ _ => ?_)
  exact WP.issues_then keeps_insertsNothing (issues_stmt (.op trivial))
    (fun _ _ _ _ => wp_append_streams)

/-- A row of the stream with this version is committed. -/
def Recorded (ws : Bytes) (sid : StreamID) (n : Nat) (s : State) : Prop :=
  ∃ r ∈ streams.stream (ws, sid.canonical) s.events.committed, r.row.versionNat = n

/-- What is recorded stays recorded. -/
theorem Recorded.mono {sid : StreamID} {n : Nat} {s' : State} (h : Recorded ws sid n s)
    (hle : streamLogic.le s s') : Recorded ws sid n s' := by
  obtain ⟨r, hr, hv⟩ := h
  obtain ⟨hr, hk⟩ := Numbering.mem_stream.mp hr
  exact ⟨r, Numbering.mem_stream.mpr ⟨hle.1.committed r hr, hk⟩, hv⟩

/-- A commit that is confirmed records what the transaction holds. -/
theorem wp_commit_streams {wrap : DbError → AppendError} {sid : StreamID} {n : Nat} {q : Prop}
    (h : q → Holds t ws' sid n s) :
    streamLogic.WP (postgres cap ws) (OnOk fun _ u => q → Recorded ws' sid n u)
      (stmt wrap (.op (Op.commit t))).run s := by
  refine wp_stmt (wp_free_op (by trivial) (fun c u u' r hu _ _ _ hex => ?_))
  cases r with
  | error e => exact fun _ _ _ => trivial
  | ok _ =>
    refine fun v hv _ hq => Recorded.mono ?_ hv
    simp only [exec] at hex
    split at hex
    · cases hex
    · rename_i ht
      obtain ⟨r, hr, hr'⟩ := ((h hq).mono hu).mem (not_not.mp ht)
      obtain ⟨hr, hk⟩ := Numbering.mem_stream.mp hr
      cases hf : c.fault <;> simp only [hf] at hex
      · cases hex
        exact ⟨r, Numbering.mem_stream.mpr ⟨List.mem_append_right _ hr, hk⟩, hr'⟩
      · cases hex
      · cases hex

/-- After an append in a transaction of its own, that version is recorded. -/
theorem wp_appendOwn_streams :
    streamLogic.WP (postgres cap ws)
      (OnOk fun _ u => p.events ≠ [] → Recorded ws' p.streamID (p.expectedVersion.toNat + 1) u)
      (appendOwn cap ws' p).run s := by
  refine WP.issues_then keeps_insertsNothing trivial (fun _ _ _ _ => ?_)
  refine WP.issues_then keeps_insertsNothing (issues_stmt (.op trivial))
    (fun t _ _ _ => ?_)
  refine wp_rollbackAfter_of keeps_insertsNothing trivial ?_
  refine WP.issues_then keeps_insertsNothing (issues_stmt (.op trivial))
    (fun _ _ _ _ => WP.andThen wp_append_streams (fun res u _ hs hholds => ?_))
  exact WP.andThen (wp_commit_streams (hholds u (streamLogic.refl u) hs))
    (fun _ _ _ _ hrecorded => wp_pure hrecorded)

/-- A program that inserts no row needs no proof. -/
theorem wp_free {α : Type} {q : Prog Op Res α} (hq : Prog.Issues Op.insertsNothing q) :
    streamLogic.WP (postgres cap ws) (fun _ _ => True) q s :=
  WP.of_issues keeps_insertsNothing hq s

/-- The steps of a caller keep the streams. -/
theorem wp_callerSteps_streams :
    streamLogic.WP (postgres cap ws) (fun _ _ => True) (callerSteps cap t steps) s := by
  induction steps generalizing s with
  | nil => exact wp_free trivial
  | cons step steps ih =>
    cases step with
    | appendTx ws' p => exact WP.bind wp_appendTx_streams (fun _ _ _ _ _ => ih)
    | other => exact WP.bind (wp_free (.op trivial)) (fun _ _ _ _ _ => ih)

/-- A transaction of a caller keeps the streams. -/
theorem wp_callerTx_streams {commits : Bool} :
    streamLogic.WP (postgres cap ws) (fun _ _ => True) (callerTx cap steps commits) s := by
  refine WP.bind (wp_free (.op trivial)) (fun r _ _ _ _ => ?_)
  cases r with
  | error e => exact wp_free trivial
  | ok t =>
    refine WP.bind wp_callerSteps_streams (fun _ _ _ _ _ => wp_free ?_)
    cases commits with
    | true => exact .bind (.op trivial) (fun _ => trivial)
    | false => exact .op trivial

end Appends

/-! ## Reads -/

section Reads

variable {cap : Int} {ws : Bytes}

/-- A body and the rollback after it. -/
theorem issues_rollbackAfter {ε α : Type} {O : Op → Prop} {t : Nat} {body : Pg ε α}
    (hbody : Prog.Issues O body.run) (ht : O (.rollback t)) : Prog.Issues O (rollbackAfter t body).run :=
  hbody.bind (fun _ => .bind (.op ht) (fun _ => trivial))

/-- The calls of a round of the fence. -/
def Op.fences : Op → Prop
  | .lock | .unlock | .readFence | .writeFence .. | .lastValue | .horizonReached _ => True
  | .beginTx | .currentXid _ | .rollback _ => True
  | _ => False

/-- The calls of the fence insert nothing. -/
theorem Op.fences.insertsNothing {o : Op} (h : o.fences) : o.insertsNothing := by
  cases o <;> first | exact trivial | exact h.elim

/-- One look at the fence. -/
theorem issues_fenceCleared {r : Nat} : Prog.Issues Op.fences (fenceCleared r).run :=
  issues_stmt (.op trivial)

/-- The whole fence. -/
theorem issues_fenceBound {start : Nat} : Prog.Issues Op.fences (fenceBound start).run := by
  have hdraw : Prog.Issues Op.fences drawFence.run :=
    Prog.Issues.bindExcept (issues_stmt (.op trivial))
      (fun _ => issues_rollbackAfter (issues_stmt (.op trivial)) trivial)
  have hstored : ∀ l r, Prog.Issues Op.fences (checkStored l r).run := by
    intro l r
    refine issues_fenceCleared.bindExcept (fun cleared => ?_)
    cases cleared with
    | false => exact trivial
    | true => exact (issues_perform trivial).bindExcept (fun _ => trivial)
  have hlast : ∀ last, Prog.Issues Op.fences (fenceLast last).run := by
    intro last
    refine hdraw.bindExcept (fun r => issues_fenceCleared.bindExcept (fun cleared => ?_))
    cases cleared with
    | true => exact trivial
    | false => exact (issues_perform trivial).bindExcept (fun _ => trivial)
  have hround : Prog.Issues Op.fences (fenceRound start).run := by
    refine (issues_perform trivial).bindExcept (fun fence => ?_)
    split
    · exact hstored _ _
    · refine .bindExcept (issues_stmt (.op trivial)) (fun last => ?_)
      split
      · exact trivial
      · exact hlast last
  exact ⟨trivial, fun _ => hround.bind (fun _ => ⟨trivial, fun _ => trivial⟩)⟩

/-- A page read inserts nothing. -/
theorem issues_readAllBounded {start : Nat} {limit maxBytes : Int} {types : List Bytes} :
    Prog.Issues Op.insertsNothing (readAllBounded cap ws start limit maxBytes types).run := by
  unfold readAllBounded
  split
  · exact trivial
  · refine (issues_fenceBound.mono fun _ ho => ho.insertsNothing).bindExcept (fun bound => ?_)
    split
    · exact trivial
    · refine .bindExcept (issues_stmt (.op trivial)) (fun t => ?_)
      refine issues_rollbackAfter ?_ trivial
      refine .bindExcept (issues_stmt (.op trivial)) (fun _ => ?_)
      refine .bindExcept (issues_stmt (.op trivial)) (fun rows => ?_)
      refine .bindExcept trivial (fun chosen => ?_)
      unfold fetchPage
      split
      · exact trivial
      · exact .bindExcept (issues_stmt (.op trivial)) (fun _ => trivial)

/-- Nor does the read of the relay and the poller. -/
theorem issues_readSettled {q : Nat → Placed Envelope → Bool} :
    Prog.Issues Op.insertsNothing (readSettled q).run := by
  refine (issues_fenceBound.mono fun _ ho => ho.insertsNothing).bindExcept (fun bound => ?_)
  split
  · exact trivial
  · refine .bindExcept (issues_stmt (.op trivial)) (fun t => ?_)
    refine issues_rollbackAfter ?_ trivial
    exact .bindExcept (issues_stmt (.op trivial))
      (fun _ => issues_stmt (.op trivial))

end Reads

/-! ## Every run -/

/-- **No fork**: the rows of a stream are the versions `1, …, n`, in the order of their positions and
timestamps, and each hashed row carries its own hash and that of the row before it. -/
structure Unforked (rows : List (Placed Envelope)) : Prop where
  versions : rows.map (·.row.versionNat) = List.range' 1 rows.length
  position : ∀ q ∈ rows, ∀ r ∈ rows, q.row.versionNat < r.row.versionNat → q.position < r.position
  recordedAt : ∀ q ∈ rows, ∀ r ∈ rows, q.row.versionNat < r.row.versionNat →
    q.row.recordedAt.ns ≤ r.row.recordedAt.ns
  hash : ∀ r ∈ rows, r.row.hash.isSome → r.row.hash = some (envelopeHash r.row).bytes
  first : ∀ r ∈ rows, r.row.hash.isSome → r.row.versionNat = 1 →
    r.row.prevHash = some zeroHash.bytes
  linked : ∀ q ∈ rows, ∀ r ∈ rows, r.row.hash.isSome → r.row.versionNat = q.row.versionNat + 1 →
    r.row.prevHash =
      some (q.row.hash.getD (unchainedHeadHash r.row.streamID q.row.version).bytes)

/-- What the row after `q` links to. -/
theorem headOf_hash {q : Placed Envelope} (sid : StreamID)
    (hq : q.row.hash.isSome → q.row.hash = some (envelopeHash q.row).bytes) :
    (headOf sid (some q)).2.bytes = q.row.hash.getD (unchainedHeadHash sid q.row.version).bytes := by
  show (digestOr q.row.hash (unchainedHeadHash sid q.row.version)).bytes = _
  cases hhash : q.row.hash with
  | none => rfl
  | some b =>
    have heq := hq (by rw [hhash]; rfl)
    rw [hhash] at heq
    rw [heq, digestOr_some]
    rfl

/-- A sequence of rows that succeed each other has no fork. -/
theorem unforked_of_seq (h : streams.Seq rows) : Unforked rows := by
  have hhash : ∀ r ∈ rows, r.row.hash.isSome → r.row.hash = some (envelopeHash r.row).bytes := by
    intro r hr
    obtain ⟨prev, hnext, -⟩ := h.next_of_mem hr
    exact hnext.hash
  -- positions and timestamps grow from row to row, hence along the stream
  have hpairs : ∀ {R : Placed Envelope → Placed Envelope → Prop}, rows.Pairwise R →
      ∀ q ∈ rows, ∀ r ∈ rows, q.row.versionNat < r.row.versionNat → R q r := by
    intro R hR q hq r hr hlt
    have hboth := h.pairwise_num.and hR
    obtain ⟨xs, ys, rfl⟩ := List.append_of_mem hq
    rcases List.mem_append.mp hr with hr | hr
    · have hrq := ((List.pairwise_append.mp hboth).2.2 r hr q List.mem_cons_self).1
      exact absurd hrq (Nat.lt_asymm hlt)
    · rcases List.mem_cons.mp hr with rfl | hr
      · exact absurd hlt (lt_irrefl _)
      · exact ((List.pairwise_cons.mp (List.pairwise_append.mp hboth).2.1).1 r hr).2
  refine ⟨h.nums,
    hpairs (h.pairwise (fun a b (hab : Succeeds (some a) b) => hab.position a rfl)
      fun _ _ _ => lt_trans),
    hpairs (h.pairwise (fun a b (hab : Succeeds (some a) b) => hab.recordedAt a rfl)
      fun _ _ _ => le_trans),
    hhash, fun r hr hsome h1 => ?_, fun q hq r hr hsome hv => ?_⟩
  · obtain ⟨prev, hnext, hmem, hnum⟩ := h.next_of_mem hr
    cases prev with
    | none => exact hnext.prevHash hsome
    | some q =>
      have hq1 := (h.num_mem (hmem q rfl)).1
      have hr1 : streams.num r.row = 1 := h1
      rw [hnum] at hr1
      simp only [Option.map_some, Option.getD_some] at hr1
      omega
  · obtain ⟨prev, hnext, hmem, hnum⟩ := h.next_of_mem hr
    have hr1 : streams.num r.row = streams.num q.row + 1 := hv
    have hq1 := (h.num_mem hq).1
    cases prev with
    | none =>
      rw [hnum] at hr1
      simp only [Option.map_none, Option.getD_none] at hr1
      omega
    | some q' =>
      have heq : q' = q := h.num_inj (hmem q' rfl) hq (Nat.succ.inj (hnum.symm.trans hr1))
      subst heq
      rw [hnext.prevHash hsome, headOf_hash _ (hhash q' hq)]

/-- Rows without a fork are a sequence of rows that succeed each other. -/
theorem seq_of_unforked (h : Unforked rows) : streams.Seq rows := by
  induction rows using List.reverseRecOn with
  | nil => exact trivial
  | append_singleton xs r ih =>
    have hversions := h.versions
    rw [List.map_append, List.length_append, List.length_singleton, List.range'_1_concat] at hversions
    obtain ⟨hxs, hr⟩ := List.append_inj' hversions rfl
    have hmem : ∀ {q}, q ∈ xs → q ∈ xs ++ [r] := fun hq => List.mem_append_left _ hq
    have hlast : r ∈ xs ++ [r] := List.mem_append_right _ (List.mem_singleton_self r)
    have hv : r.row.versionNat = xs.length + 1 :=
      (List.singleton_inj.mp hr).trans (Nat.add_comm 1 xs.length)
    have hseq : streams.Seq xs := ih
      { versions := hxs
        position := fun q hq r hr => h.position q (hmem hq) r (hmem hr)
        recordedAt := fun q hq r hr => h.recordedAt q (hmem hq) r (hmem hr)
        hash := fun r hr => h.hash r (hmem hr)
        first := fun r hr => h.first r (hmem hr)
        linked := fun q hq r hr => h.linked q (hmem hq) r (hmem hr) }
    refine Numbering.seq_concat.mpr ⟨hseq, hv, ?_⟩
    -- the row before is the one with the version before
    have hprev : ∀ q ∈ xs.getLast?, q ∈ xs ∧ q.row.versionNat = xs.length := by
      intro q hq
      refine ⟨List.mem_of_getLast? hq, ?_⟩
      obtain ⟨zs, rfl⟩ := List.getLast?_eq_some_iff.mp hq
      rw [List.length_append, List.length_singleton]
      exact (Numbering.seq_concat.mp hseq).2.1
    refine ⟨fun q hq => h.position q (hmem (hprev q hq).1) r hlast ?_,
      fun q hq => h.recordedAt q (hmem (hprev q hq).1) r hlast ?_, h.hash r hlast, fun hsome => ?_⟩
    · rw [(hprev q hq).2, hv]
      exact Nat.lt_succ_self _
    · rw [(hprev q hq).2, hv]
      exact Nat.lt_succ_self _
    · cases hq : xs.getLast? with
      | none =>
        rw [List.getLast?_eq_none_iff.mp hq] at hv
        exact h.first r hlast hsome hv
      | some q =>
        obtain ⟨hq, hqv⟩ := hprev q hq
        rw [headOf_hash _ (h.hash q (hmem hq))]
        exact h.linked q (hmem hq) r hlast hsome (hv.trans (congrArg (· + 1) hqv.symm))

/-- A database that no transaction is using: freshly migrated, with the rows that were written before
the hashes were introduced, or at any quiet moment later. -/
structure Quiet (s : State) : Prop where
  inv : Inv s
  opened : s.events.opened = []
  claimWrites : s.claimWrites = []
  unforked : ∀ ws stream, Unforked (streams.stream (ws, stream) s.events.committed)
  clock : ∀ r ∈ s.events.committed, r.row.recordedAt.ns ≤ s.now.ns
  micros : ∀ r ∈ s.events.committed, r.row.recordedAt.ns % 1000 = 0

/-- When all is quiet no row is pending. -/
theorem Quiet.pending (h : Quiet s) : s.events.pending = [] := by
  by_contra hne
  obtain ⟨e, es, he⟩ := List.exists_cons_of_ne_nil hne
  have hheld : (e.1, e.2.position) ∈ s.events.held := by
    rw [Mvcc.held, he]
    exact List.mem_append_right _ List.mem_cons_self
  obtain ⟨x, hx⟩ := h.inv.valid.held_xid _ hheld
  have hopened := h.inv.valid.xid_opened _ hx
  rw [h.opened] at hopened
  cases hopened

/-- When all is quiet the streams are chains. -/
theorem Quiet.chains (h : Quiet s) : Chains s := by
  have hrows : ∀ e ∈ s.events.rows, ∃ r ∈ s.events.committed, r.row = e := by
    intro e he
    rw [Mvcc.rows, h.pending] at he
    exact List.mem_map.mp he
  refine ⟨fun t k => ?_, fun e he => ?_, fun e he => ?_, fun w hw => ?_⟩
  · rw [Mvcc.visible, Mvcc.ownRows, h.pending]
    show streams.Seq (streams.stream k (s.events.committed ++ []))
    rw [List.append_nil]
    exact seq_of_unforked (h.unforked k.1 k.2)
  · obtain ⟨r, hr, rfl⟩ := hrows e he
    exact h.clock r hr
  · obtain ⟨r, hr, rfl⟩ := hrows e he
    exact h.micros r hr
  · rw [h.claimWrites] at hw
    cases hw

section Runs

variable {cap : Int} {ws : Bytes}

/-- What an append that succeeded leaves behind. -/
def AppendPost : Call → Reply → State → Prop
  | .append ws p, .appended (.ok _), s =>
    p.events ≠ [] → Recorded ws p.streamID (p.expectedVersion.toNat + 1) s
  | _, _, _ => True

/-- **Every program keeps the streams.** -/
theorem wp_program_streams (c : Call) :
    streamLogic.WP (postgres cap ws) (AppendPost c) (program cap ws c) s := by
  cases c with
  | append ws' p =>
    refine .map (wp_appendOwn_streams.weaken (fun r _ _ _ hr => ?_))
    cases r with
    | ok res => exact hr
    | error e => exact trivial
  | callerTx steps commits => exact .map wp_callerTx_streams
  | readAllBounded start limit maxBytes types => exact .map (wp_free issues_readAllBounded)
  | head => exact .map (wp_free issues_readSettled)
  | matchingHead types =>
    refine .map (wp_free ?_)
    unfold matchingHead
    split
    · exact trivial
    · exact issues_readSettled
  | anchor upto =>
    exact .map (wp_free (issues_anchor.mono fun _ => Op.anchors.insertsNothing))
  | checkAnchor a =>
    exact .map (wp_free (issues_checkAnchor.mono fun _ => Op.anchors.insertsNothing))

/-- Every run goes through states that satisfy `Inv`. -/
theorem guardedRun_inv {P P' : Pool State Call Op Res Reply}
    (hrun : runActions (postgres cap ws).step P as = some P')
    (h : (storeLogic fun _ _ => True).Sound (postgres cap ws) (ReadPost ws) P) :
    GuardedRun (postgres cap ws).step (System.Allows (fun _ _ => True) streamLogic.allowed) P as P' := by
  have hsound := (guardedRun_store hrun).strengthen (fun P a P' hP hok hs =>
    (hP.step env_respects (fun c _ _ _ => wp_program c) hok hs).1) h
  exact hsound.mono (fun P a hP => System.allows_of_shared (fun _ => trivial) (fun _ => hP.inv) a)

/-- Every run keeps the streams numbered. -/
theorem run_chains (hs : Quiet s) {P : Pool State Call Op Res Reply}
    (hrun : runActions (postgres cap ws).step (Pool.start s) as = some P) :
    streamLogic.Sound (postgres cap ws) AppendPost P :=
  (Logic.run_sound (fun _ _ _ hi he => (envStep_grows hi he).respects)
    (fun c _ _ _ => wp_program_streams c)
    (guardedRun_inv hrun (Logic.Sound.start hs.inv)) (Logic.Sound.start hs.chains)).1

/-- **No forks.** In every interleaving of appends, in transactions of their own or of their callers,
with any number of appends to a transaction, and of reads and anchors: the committed rows of each
stream are the versions `1, …, n`, with increasing positions and timestamps that never go back, and
each hashed row links to the committed row before it. -/
theorem no_forks {s : State} (hs : Quiet s) {P : Pool State Call Op Res Reply}
    {as : List (PoolAction Call Choice EnvStep)}
    (hrun : runActions (postgres cap ws).step (Pool.start s) as = some P) (ws' stream : Bytes) :
    Unforked (streams.stream (ws', stream) P.shared.events.committed) :=
  unforked_of_seq ((run_chains hs hrun).inv.numbered.committed _)

end Runs

/-- A row from before the hashes. -/
def legacyRow : Placed Envelope := ⟨1, { unhashedRow counterMain 1 with workspace := str "w" }⟩

/-- A database with that row. -/
def legacy : State :=
  { State.fresh ⟨1000⟩ with events := { Mvcc.empty with drawn := 1, committed := [legacyRow] } }

/-- A database of the time before the chain, in which all is quiet. -/
theorem quiet_legacy : Quiet legacy where
  inv :=
    { valid :=
        { opened_lt := fun _ h => absurd h List.not_mem_nil
          xid_opened := fun _ h => absurd h List.not_mem_nil
          xid_lt := fun _ h => absurd h List.not_mem_nil
          held_xid := fun _ h => absurd h List.not_mem_nil
          positions_nodup := List.nodup_singleton _
          positions_drawn := by decide
          unique := List.pairwise_singleton _ _ }
      drawn_lt := Nat.one_lt_two_pow (by decide)
      fence := fun h => absurd rfl h }
  opened := rfl
  claimWrites := rfl
  unforked ws stream := by
    refine unforked_of_seq ?_
    rw [Numbering.stream, show legacy.events.committed = [legacyRow] from rfl,
      List.filter_singleton, Bool.cond_decide]
    split
    · exact ⟨rfl, ⟨fun q hq => (by cases hq), fun q hq => (by cases hq), fun h => (by cases h),
        fun h => (by cases h)⟩, trivial⟩
    · exact trivial
  clock := by decide
  micros := by decide

/-- An append of one event to the counter. -/
def increment (eventID : UInt8) (expectedVersion : UInt64) : AppendParams :=
  { firstOrder "" eventID with streamID := counterMain, expectedVersion := expectedVersion }

/-- Two appends read the same head; one commits, the insert of the other violates the key. A third
append follows. -/
def racingAppends : List (PoolAction Call Choice EnvStep) :=
  .spawn 0 (.append (str "w") (increment 1 1)) :: stepsOf 0 4 ++
    .spawn 1 (.append (str "w") (increment 2 1)) :: stepsOf 1 9 ++ stepsOf 0 4 ++
    .spawn 2 (.append (str "w") (increment 3 2)) :: stepsOf 2 9

/-- The stream goes on from the unhashed row; the position that the refused append drew stays empty. -/
theorem no_forks_racing :
    ∃ P, runActions (postgres 0 (str "w")).step (Pool.start legacy) racingAppends = some P ∧
      P.shared.events.committed.map (fun r => (r.position, r.row.versionNat)) =
        [(1, 1), (2, 2), (4, 3)] ∧
      Unforked (streams.stream (str "w", counterMain.canonical) P.shared.events.committed) := by
  refine exists_run_of _ (by decide +kernel) fun P hrun hrows => ⟨hrows, ?_⟩
  exact no_forks quiet_legacy hrun (str "w") counterMain.canonical

end EsLite.Postgres
