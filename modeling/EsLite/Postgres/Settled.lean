import EsLite.Postgres.Invariant

/-!
# Commit-safe reads

Positions are drawn before their rows are committed, in another order than they are committed in. The
reads of a `Workspace` deliver only up to a bound that the horizon fence has cleared. The argument:
whoever holds a position up to the bound `L` got its transaction id before the reader drew `R`, since
appends get their id before they draw (`wp_append`) and the reader drew `R` after it had read `L`
(`wp_drawFence`). Once the horizon of a snapshot has reached `R`, none of them is in flight
(`wp_fenceBound`). So a page is complete for ever up to its last position, and nothing appears at or
below a head (`reads_settled`).
-/

namespace EsLite.Postgres

open Logic

variable {allowed : Op → State → Prop} {cap : Int} {ws : Bytes} {s : State}

/-! ## The fence -/

/-- A bound that a page may deliver up to. -/
def Cleared (db : Mvcc Envelope) (b : Nat) : Prop := b ≤ 1 ∨ db.Settled b

/-- A committed row up to a cleared bound is at a settled position. -/
theorem Cleared.settled {db : Mvcc Envelope} {b : Nat} (h : Cleared db b) (hv : db.Valid clash)
    {r : Placed Envelope} (hr : r ∈ db.committed) (hb : r.position ≤ b) : db.Settled r.position := by
  rcases h with h | h
  · exact Mvcc.settled_of_le_one hv hr (hb.trans h)
  · exact h.of_le hb

theorem wp_readLastPosition :
    (storeLogic allowed).WP (postgres cap ws) (OnOk (fun l u => l ≤ 1 ∨ l ≤ u.events.drawn))
      readLastPosition.run s := by
  refine wp_stmt (wp_plain_op (by trivial) (fun c u u' r _ hi _ hex => ?_))
  cases r with
  | error e => exact fun _ _ _ => trivial
  | ok l =>
    obtain ⟨rfl, hl⟩ := poolQuery_cases hex
    obtain rfl := hl l rfl
    intro v hv _
    have hdrawn : u'.events.drawn ≤ v.events.drawn := hv.drawn
    show u'.events.lastValue ≤ 1 ∨ u'.events.lastValue ≤ v.events.drawn
    unfold Mvcc.lastValue
    omega

/-- The id drawn after `l` fences `l`. -/
theorem wp_drawFence {l : Nat} (hl : l ≤ 1 ∨ l ≤ s.events.drawn) :
    (storeLogic allowed).WP (postgres cap ws) (OnOk (fun r u => FencedBound u.events l r))
      drawFence.run s := by
  -- the reader's transaction is younger than everyone who holds a position up to `l`
  refine WP.andThen (R := fun t u => l ≤ 1 ∨ u.events.After l t)
    (wp_stmt (wp_plain_op (by trivial) (fun c u u' r hu hi _ hex => ?_))) (fun t u _ _ ht => ?_)
  · cases r with
    | error e => exact fun _ _ _ => trivial
    | ok t =>
      simp only [exec] at hex
      split at hex
      · cases hex
        rcases hl with hl | hl
        · exact fun _ _ _ => .inl hl
        · have hafter := Mvcc.after_openTx hi.valid (hl.trans hu.drawn)
          exact fun v hv _ => .inr (hafter.mono (Mvcc.valid_openTx hi.valid) hv)
      · cases hex
  · refine wp_rollbackAfter (wp_stmt (wp_plain_op (by trivial) (fun c v v' r hv hi _ hex => ?_)))
    cases r with
    | error e => exact fun _ _ _ => trivial
    | ok x =>
      obtain ⟨-, hx⟩ := statement_ok hex
      cases hx
      rcases ht v hv hi with hl | hafter
      · exact fun _ _ _ => .inl hl
      · exact fun w hw _ => .inr ((Mvcc.fenced_assignXid hi.valid hafter).mono hw)

/-- A cleared fence settles its bound. -/
theorem wp_fenceCleared {l r : Nat}
    (hf : (storeLogic allowed).Always (fun u => FencedBound u.events l r) s) :
    (storeLogic allowed).WP (postgres cap ws)
      (OnOk (fun cleared u => cleared = true → Cleared u.events l)) (fenceCleared r).run s := by
  refine wp_stmt (wp_plain_op (by trivial) (fun c u u' y hu hi _ hex => ?_))
  cases y with
  | error e => exact fun _ _ _ => trivial
  | ok b =>
    obtain ⟨rfl, hb⟩ := poolQuery_cases hex
    obtain rfl := hb b rfl
    intro v hv _ hcleared
    rcases hf u' hu hi with hl | hfenced
    · exact .inl hl
    · exact .inr ((Mvcc.settled_of_le_xmin hfenced (of_decide_eq_true hcleared)).mono hv)

/-- Storing a fence that fences its bound keeps the invariant. -/
theorem wp_writeFence {l r : Nat}
    (hf : (storeLogic allowed).Always (fun u => r ≠ 0 → FencedBound u.events l r) s) :
    (storeLogic allowed).WP (postgres cap ws) (fun _ _ => True) (Prog.op (Op.writeFence l r)) s := by
  refine wp_op (fun c u u' y hu hi _ hex => ⟨?_, fun _ _ _ => trivial⟩)
  exact exec_advances hi hex (hf u hu hi)

variable {start : Nat} {types : List Bytes}

/-- **A round of the fence returns a bound that is cleared.** -/
theorem wp_fenceRound :
    (storeLogic allowed).WP (postgres cap ws) (OnOk (fun b u => Cleared u.events b))
      (fenceRound start).run s := by
  have hzero : ∀ u : State, (storeLogic allowed).WP (postgres cap ws)
      (OnOk (fun b u => Cleared u.events b)) (pure 0 : Pg ReadError Nat).run u :=
    fun u => wp_pure (fun _ _ _ => .inl (Nat.zero_le 1))
  refine WP.andThen (R := fun fence u => fence.2 ≠ 0 → FencedBound u.events fence.1 fence.2)
    (wp_perform (wp_plain_op (by trivial) (fun c u u' y _ hi _ hex => ?_))) (fun fence u _ _ hf => ?_)
  · cases hex
    exact fun v hv _ h0 => (hi.fence h0).mono hv
  · obtain ⟨l, r⟩ := fence
    by_cases hr : r = 0
    · -- no fence is stored: read the last position, then draw one
      simp only [hr, ne_eq, not_true_eq_false, if_false]
      refine WP.andThen wp_readLastPosition (fun last v _ hi hlast => ?_)
      by_cases hle : last ≤ start
      · simpa only [if_pos hle] using hzero v
      · simp only [if_neg hle]
        refine WP.andThen (wp_drawFence (hlast v (Mvcc.Le.refl _) hi)) (fun r w _ _ hfence => ?_)
        refine WP.andThen (wp_fenceCleared hfence) (fun cleared x hx _ hcleared => ?_)
        cases cleared with
        | true => exact wp_pure (fun y hy hiy => hcleared y hy hiy rfl)
        | false =>
          exact WP.andThen (R := fun _ _ => True)
            (wp_perform (wp_writeFence (fun y hy hiy _ => (hfence.mono hx) y hy hiy)))
            (fun _ y _ _ _ => hzero y)
    · simp only [ne_eq, hr, not_false_eq_true, if_true]
      refine WP.andThen (wp_fenceCleared (fun v hv hi => hf v hv hi hr))
        (fun cleared v _ _ hcleared => ?_)
      cases cleared with
      | false => exact hzero v
      | true =>
        refine WP.andThen (R := fun _ _ => True)
          (wp_perform (wp_writeFence (fun _ _ _ h0 => absurd rfl h0))) (fun _ w hw _ _ => ?_)
        exact wp_pure (fun x hx hix => hcleared.mono hw x hx hix rfl)

theorem wp_fenceBound :
    (storeLogic allowed).WP (postgres cap ws) (OnOk (fun b u => Cleared u.events b))
      (fenceBound start).run s := by
  refine WP.bind (wp_plain (.op trivial)) (fun _ u _ _ _ => ?_)
  refine WP.bind_always wp_fenceRound (fun r v _ _ hr => ?_)
  exact WP.bind (wp_plain (.op trivial)) (fun _ w hw _ _ => WP.ret (hr.mono hw))

/-! ## Pages -/

/-- The part of a strictly increasing list that a page takes holds everything up to its greatest. -/
theorem exists_top {l ps : List Nat} (hl : l.Pairwise (· < ·)) (hps : ps <+: l) (hne : ps ≠ []) :
    ∃ top ∈ ps, (∀ q ∈ ps, q ≤ top) ∧ ∀ q ∈ l, q ≤ top → q ∈ ps := by
  obtain ⟨rest, rfl⟩ := hps
  obtain ⟨hsorted, -, hlt⟩ := List.pairwise_append.mp hl
  refine ⟨ps.getLast hne, List.getLast_mem hne, fun q hq => ?_, fun q hq hle => ?_⟩
  · rcases List.mem_append.mp ((List.dropLast_append_getLast hne).symm ▸ hq) with hq' | hq'
    · rw [← List.dropLast_append_getLast hne] at hsorted
      exact ((List.pairwise_append.mp hsorted).2.2 q hq' _ (List.mem_singleton_self _)).le
    · exact (List.mem_singleton.mp hq').le
  · rcases List.mem_append.mp hq with hq | hq
    · exact hq
    · exact absurd hle (not_le.mpr (hlt _ (List.getLast_mem hne) q hq))

variable {rows : List (Placed Envelope)} {chosen : List Nat × Bool} {maxBytes : Int}

theorem mem_orderByPosition {r : Placed Envelope} : r ∈ orderByPosition rows ↔ r ∈ rows :=
  List.mem_insertionSort _

/-- The rows come in increasing order. -/
theorem pairwise_le_orderByPosition (rows : List (Placed Envelope)) :
    (orderByPosition rows).Pairwise (fun a b => a.position ≤ b.position) := by
  have : Std.Total (fun a b : Placed Envelope => a.position ≤ b.position) :=
    ⟨fun a b => Nat.le_total a.position b.position⟩
  have : IsTrans (Placed Envelope) (fun a b => a.position ≤ b.position) :=
    ⟨fun _ _ _ => Nat.le_trans⟩
  exact List.pairwise_insertionSort _ rows

/-- Rows at distinct positions come in strictly increasing order. -/
theorem orderByPosition_sorted (h : (rows.map (·.position)).Nodup) :
    ((orderByPosition rows).map (·.position)).Pairwise (· < ·) := by
  have hperm : ((orderByPosition rows).map (·.position)).Perm (rows.map (·.position)) :=
    (List.perm_insertionSort _ rows).map _
  have hle : ((orderByPosition rows).map (·.position)).Pairwise (· ≤ ·) :=
    List.pairwise_map.mpr (pairwise_le_orderByPosition rows)
  exact hle.imp₂ (fun _ _ hab hne => lt_of_le_of_ne hab hne) (hperm.nodup_iff.mpr h)

/-- The row is one that a page from `start` is about. -/
structure Matches (ws : Bytes) (start : Nat) (types : List Bytes) (r : Placed Envelope) : Prop where
  workspace : r.row.workspace = ws
  after : start < r.position
  type : r.row.typeURL ∈ types

/-- The positions hold all matching rows up to a settled position, which is the greatest of them. -/
def Chosen (ws : Bytes) (start : Nat) (types : List Bytes) (ps : List Nat) (db : Mvcc Envelope) :
    Prop :=
  ∃ top, db.Settled top ∧ (∀ q ∈ ps, q ≤ top) ∧
    ∀ r ∈ db.committed, Matches ws start types r → r.position ≤ top → r.position ∈ ps

theorem Chosen.mono {ps : List Nat} {db db' : Mvcc Envelope} (h : Chosen ws start types ps db)
    (hle : db.Le db') : Chosen ws start types ps db' := by
  obtain ⟨top, hsettled, hps, hmem⟩ := h
  refine ⟨top, hsettled.mono hle, hps, fun r hr hm hle' => ?_⟩
  exact hmem r (hsettled.mem_committed hle hr hle') hm hle'

/-- What step 1 chooses from a committed table with a cleared bound. -/
theorem chosen_of_selectSizes {limit bound : Nat} {db : Mvcc Envelope} (hv : db.Valid clash)
    (hb : Cleared db bound)
    (h : choosePositions cap maxBytes (selectSizes db.committed ws start limit types bound) =
      .ok chosen) (hne : chosen.1 ≠ []) : Chosen ws start types chosen.1 db := by
  let rows := db.committed.filter (fun r => r.row.workspace = ws && start < r.position &&
    r.row.typeURL ∈ types && r.position ≤ bound)
  have hnodup : (rows.map (·.position)).Nodup :=
    (List.nodup_append.mp hv.positions_nodup).2.1.sublist (List.filter_sublist.map _)
  have hpre : chosen.1 <+: (orderByPosition rows).map (·.position) := by
    refine (choosePositions_isPrefix h).trans ?_
    simp only [selectSizes, List.map_map]
    exact (List.take_prefix limit _).map _
  obtain ⟨top, htop, hmax, hall⟩ := exists_top (orderByPosition_sorted hnodup) hpre hne
  obtain ⟨r₀, hr₀, rfl⟩ := List.mem_map.mp (hpre.subset htop)
  obtain ⟨hr₀, hq₀⟩ := List.mem_filter.mp (mem_orderByPosition.mp hr₀)
  simp only [Bool.and_eq_true, decide_eq_true_eq] at hq₀
  refine ⟨r₀.position, hb.settled hv hr₀ hq₀.2, hmax, fun r hr hm hle => ?_⟩
  refine hall _ (List.mem_map_of_mem (mem_orderByPosition.mpr (List.mem_filter.mpr ⟨hr, ?_⟩))) hle
  simp only [Bool.and_eq_true, decide_eq_true_eq]
  exact ⟨⟨⟨hm.workspace, hm.after⟩, hm.type⟩, hle.trans hq₀.2⟩

/-- **The page is complete**: it holds every matching row up to its last position. -/
def PageComplete (ws : Bytes) (start : Nat) (types : List Bytes) (page : List (Placed Envelope))
    (db : Mvcc Envelope) : Prop :=
  ∀ last, page.getLast? = some last → ∀ r ∈ db.committed, Matches ws start types r →
    r.position ≤ last.position → r ∈ page

theorem wp_fetchPage {t : Nat} (h : chosen.1 ≠ [] →
      (storeLogic allowed).Always (fun u => Chosen ws start types chosen.1 u.events) s) :
    (storeLogic allowed).WP (postgres cap ws)
      (OnOk (fun x u => PageComplete ws start types x.1 u.events)) (fetchPage ws t chosen).run s := by
  obtain ⟨ps, truncated⟩ := chosen
  cases ps with
  | nil => exact wp_pure (fun _ _ _ last hlast => by cases hlast)
  | cons p ps =>
    have hchosen := h (List.cons_ne_nil p ps)
    refine WP.andThen (R := fun out u => PageComplete ws start types out u.events)
      (wp_stmt (wp_plain_op (by trivial) (fun c u u' y hu hi _ hex => ?_)))
      (fun out u _ _ hout => wp_pure hout)
    cases y with
    | error e => exact fun _ _ _ => trivial
    | ok out =>
      obtain ⟨rfl, rfl⟩ := query_ok hex
      obtain ⟨top, hsettled, hmax, hall⟩ := hchosen u' hu hi
      intro v hv _ last hlast r hr hm hle
      -- the last row of the page is at a chosen position, so at most at the settled one
      have hlast := mem_orderByPosition.mp (List.mem_of_getLast? hlast)
      obtain ⟨-, hq⟩ := List.mem_filter.mp hlast
      simp only [Bool.and_eq_true, decide_eq_true_eq] at hq
      have hrtop := hle.trans (hmax _ hq.2)
      have hr := hsettled.mem_committed hv hr hrtop
      refine mem_orderByPosition.mpr (List.mem_filter.mpr ⟨hr, ?_⟩)
      simp only [Bool.and_eq_true, decide_eq_true_eq]
      exact ⟨hm.workspace, hall r hr hm hrtop⟩

theorem wp_readPage {limit bound t : Nat}
    (hb : (storeLogic allowed).Always (fun u => Cleared u.events bound) s) :
    (storeLogic allowed).WP (postgres cap ws)
      (OnOk (fun x u => PageComplete ws start types x.1 u.events))
      (readPage cap ws start limit maxBytes types bound t).run s := by
  refine wp_plain_then (issues_stmt (.op trivial)) (fun _ s₁ h₁ _ => ?_)
  refine WP.andThen (R := fun rows u => ∀ chosen, choosePositions cap maxBytes rows = .ok chosen →
      chosen.1 ≠ [] → Chosen ws start types chosen.1 u.events)
    (wp_stmt (wp_plain_op (by trivial) (fun c u u' y hu hi _ hex => ?_))) (fun rows s₂ _ _ hrows => ?_)
  · cases y with
    | error e => exact fun _ _ _ => trivial
    | ok rows =>
      obtain ⟨rfl, rfl⟩ := query_ok hex
      intro v hv _ chosen hc hne
      exact (chosen_of_selectSizes hi.valid ((hb.mono h₁) u' hu hi) hc hne).mono hv
  · refine WP.andThen (R := fun chosen u => chosen.1 ≠ [] → Chosen ws start types chosen.1 u.events)
      (wp_ofResult (fun chosen hc u hu hi => hrows u hu hi chosen hc)) (fun chosen s₃ _ _ hc => ?_)
    exact wp_fetchPage (fun hne u hu hi => hc u hu hi hne)

theorem wp_readAllBounded {limit : Int} :
    (storeLogic allowed).WP (postgres cap ws)
      (OnOk (fun x u => PageComplete ws start types x.1 u.events))
      (readAllBounded cap ws start limit maxBytes types).run s := by
  have hempty : ∀ u : State, (storeLogic allowed).WP (postgres cap ws)
      (OnOk (fun x u => PageComplete ws start types x.1 u.events))
      (pure ([], false) : Pg ReadError (List (Placed Envelope) × Bool)).run u :=
    fun u => wp_pure (fun _ _ _ last hlast => by cases hlast)
  unfold readAllBounded
  split
  · exact hempty s
  · refine WP.andThen wp_fenceBound (fun bound s₁ _ _ hbound => ?_)
    split
    · exact hempty s₁
    · refine wp_plain_then (issues_stmt (.op trivial)) (fun t s₂ h₂ _ => ?_)
      exact wp_rollbackAfter (wp_readPage (hbound.mono h₂))

/-! ## Heads -/

/-- A maximum is 0, or the position of a row that was asked for. -/
theorem maxPosition_cases (rows : List (Placed Envelope)) (q : Placed Envelope → Bool) :
    maxPosition rows q = 0 ∨ ∃ r ∈ rows, q r = true ∧ r.position = maxPosition rows q := by
  unfold maxPosition
  cases hm : ((rows.filter q).map (·.position)).max? with
  | none => exact .inl rfl
  | some m =>
    obtain ⟨r, hr, rfl⟩ := List.mem_map.mp (List.max?_mem hm)
    obtain ⟨hr, hq⟩ := List.mem_filter.mp hr
    exact .inr ⟨r, hr, hq, rfl⟩

theorem wp_readSettled {q : Nat → Placed Envelope → Bool} (hq : ∀ b r, q b r = true → r.position ≤ b) :
    (storeLogic allowed).WP (postgres cap ws) (OnOk (fun h u => u.events.Settled h))
      (readSettled q).run s := by
  refine WP.andThen wp_fenceBound (fun bound s₁ _ _ hbound => ?_)
  split
  · exact wp_pure (fun _ _ hi => Mvcc.settled_zero hi.valid)
  · refine wp_plain_then (issues_stmt (.op trivial)) (fun t s₂ h₂ _ => ?_)
    refine wp_rollbackAfter (wp_plain_then (issues_stmt (.op trivial))
      (fun _ s₃ h₃ _ => wp_stmt (wp_plain_op (by trivial) (fun c u u' y hu hi _ hex => ?_))))
    cases y with
    | error e => exact fun _ _ _ => trivial
    | ok h =>
      obtain ⟨rfl, rfl⟩ := query_ok hex
      have hcleared := ((hbound.mono h₂).mono h₃) u' hu hi
      intro v hv hiv
      rcases maxPosition_cases u'.events.committed (q bound) with h0 | ⟨r, hr, hqr, heq⟩
      · exact h0 ▸ Mvcc.settled_zero hiv.valid
      · exact heq ▸ (hcleared.settled hi.valid hr (hq bound r hqr)).mono hv

theorem wp_head :
    (storeLogic allowed).WP (postgres cap ws) (OnOk (fun h u => u.events.Settled h))
      (head ws).run s := by
  refine wp_readSettled (fun b r h => ?_)
  simp only [Bool.and_eq_true, decide_eq_true_eq] at h
  exact h.2

theorem wp_matchingHead :
    (storeLogic allowed).WP (postgres cap ws) (OnOk (fun h u => u.events.Settled h))
      (matchingHead ws types).run s := by
  unfold matchingHead
  split
  · exact wp_pure (fun _ _ hi => Mvcc.settled_zero hi.valid)
  · refine wp_readSettled (fun b r h => ?_)
    simp only [Bool.and_eq_true, decide_eq_true_eq] at h
    exact h.1.2

/-! ## Every run -/

/-- What the reads of the `Workspace` guarantee, from their return on. -/
def ReadPost (ws : Bytes) : Call → Reply → State → Prop
  | .readAllBounded start _ _ types, .page r, u =>
    OnOk (fun x u => PageComplete ws start types x.1 u.events) r u
  | .head, .head r, u => OnOk (fun h u => u.events.Settled h) r u
  | .matchingHead _, .head r, u => OnOk (fun h u => u.events.Settled h) r u
  | _, _, _ => True

theorem wp_program (c : Call) :
    (storeLogic allowed).WP (postgres cap ws) (ReadPost ws c) (program cap ws c) s := by
  cases c with
  | append ws' p => exact WP.map (wp_appendOwn.weaken (fun _ _ _ _ _ => trivial))
  | callerTx steps commits => exact WP.map (wp_callerTx.weaken (fun _ _ _ _ _ => trivial))
  | readAllBounded start limit maxBytes types => exact WP.map wp_readAllBounded
  | head => exact WP.map wp_head
  | matchingHead types => exact WP.map wp_matchingHead
  | anchor upto => exact WP.map (wp_plain (issues_anchor.mono fun _ => Op.anchors.plain))
  | checkAnchor a => exact WP.map (wp_plain (issues_checkAnchor.mono fun _ => Op.anchors.plain))

/-- Every run of the store keeps its programs verified and goes up. -/
theorem run_advances {P P' : Pool State Call Op Res Reply} {as : List (PoolAction Call Choice EnvStep)}
    (hrun : runActions (postgres cap ws).step P as = some P')
    (h : (storeLogic fun _ _ => True).Sound (postgres cap ws) (ReadPost ws) P) :
    (storeLogic fun _ _ => True).Sound (postgres cap ws) (ReadPost ws) P' ∧
      P.shared.events.Le P'.shared.events :=
  Logic.run_sound env_respects (fun c _ _ _ => wp_program c) (guardedRun_store hrun) h

/-- **Commit-safe reads.** In every interleaving of appends, transactions of callers and reads: a page
holds every matching event up to its last position that is committed when it is returned or ever
after, and no event appears later at or below a position that `Head` or `MatchingHead` returned. -/
theorem reads_settled {cap : Int} {ws : Bytes} {now : Time} {P P' : Pool State Call Op Res Reply}
    {as bs : List (PoolAction Call Choice EnvStep)}
    (hrun : runActions (postgres cap ws).step (Pool.start (State.fresh now)) as = some P)
    (hlater : runActions (postgres cap ws).step P bs = some P') :
    (∀ i start limit maxBytes types page truncated last,
      (i, Call.readAllBounded start limit maxBytes types, Reply.page (.ok (page, truncated))) ∈
        P.finished → page.getLast? = some last →
      ∀ r ∈ P'.shared.events.committed, r.row.workspace = ws → r.row.typeURL ∈ types →
        start < r.position → r.position ≤ last.position → r ∈ page) ∧
    (∀ i h, (i, Call.head, Reply.head (.ok h)) ∈ P.finished →
      ∀ r ∈ P'.shared.events.committed, r.row.workspace = ws → r.position ≤ h →
        r ∈ P.shared.events.committed) ∧
    (∀ i types h, (i, Call.matchingHead types, Reply.head (.ok h)) ∈ P.finished →
      ∀ r ∈ P'.shared.events.committed, r.row.workspace = ws → r.row.typeURL ∈ types →
        r.position ≤ h → r ∈ P.shared.events.committed) := by
  obtain ⟨hP, -⟩ := run_advances hrun (Logic.Sound.start (inv_fresh now))
  obtain ⟨hP', hle⟩ := run_advances hlater hP
  refine ⟨fun i start limit maxBytes types page truncated last hfin hlast r hr hws htype hstart hpos
    => ?_, fun i h hfin r hr _ hpos => ?_, fun i types h hfin r hr _ _ hpos => ?_⟩
  · exact hP.finished _ hfin P'.shared hle hP'.inv last hlast r hr ⟨hws, hstart, htype⟩ hpos
  · have hsettled : P.shared.events.Settled h :=
      hP.finished _ hfin P.shared (Mvcc.Le.refl _) hP.inv
    exact hsettled.mem_committed hle hr hpos
  · have hsettled : P.shared.events.Settled h :=
      hP.finished _ hfin P.shared (Mvcc.Le.refl _) hP.inv
    exact hsettled.mem_committed hle hr hpos

/-- The first event of a stream of orders, with an id of its own. -/
def firstOrder (id : String) (eventID : UInt8) : AppendParams where
  streamID := ⟨str "order", str id⟩
  expectedVersion := 0
  events := [⟨.fill 16 eventID, str "t", 1, some [1]⟩]
  constraints := []
  commandID := .zero 16
  correlationID := .zero 16
  causationID := .zero 16
  actor := ⟨[], []⟩
  occurredAt := ⟨0⟩

/-- Call `i` makes `n` calls, none of which fails. -/
def stepsOf (i n : Nat) : List (PoolAction Call Choice EnvStep) := List.replicate n (.step i {})

/-- An append that has drawn position 1 and not inserted yet; another one commits position 2; a page
read stores its fence; the first append commits; the next page read finds the fence cleared. Then both
heads are read. -/
def fencedReads : List (PoolAction Call Choice EnvStep) :=
  .spawn 0 (.append (str "w") (firstOrder "a" 1)) :: stepsOf 0 6 ++
    .spawn 1 (.append (str "w") (firstOrder "b" 2)) :: stepsOf 1 9 ++
    .spawn 2 (.readAllBounded 0 10 0 [str "t"]) :: stepsOf 2 9 ++ stepsOf 0 3 ++
    .spawn 3 (.readAllBounded 0 10 0 [str "t"]) :: stepsOf 3 10 ++
    .spawn 4 .head :: stepsOf 4 12 ++ .spawn 5 (.matchingHead [str "t"]) :: stepsOf 5 12

/-- The positions of a page, or the position of a head, that a call returned. -/
def Reply.positions : Reply → List Nat
  | .page (.ok x) => x.1.map (·.position)
  | .head (.ok h) => [h]
  | _ => []

/-- The first page read delivers nothing, the second one both events. -/
theorem reads_settled_fenced :
    ∃ P, runActions (postgres 0 (str "w")).step (Pool.start (State.fresh ⟨0⟩)) fencedReads = some P ∧
      (P.finished.map (fun x => (x.1, x.2.2.positions)) =
        [(1, []), (2, []), (0, []), (3, [1, 2]), (4, [2]), (5, [2])]) ∧
      ∀ bs P', runActions (postgres 0 (str "w")).step P bs = some P' →
        ∀ i h, (i, Call.head, Reply.head (.ok h)) ∈ P.finished →
          ∀ r ∈ P'.shared.events.committed, r.row.workspace = str "w" → r.position ≤ h →
            r ∈ P.shared.events.committed := by
  refine exists_run_of _ (by decide +kernel) fun P hrun hfin => ⟨hfin, fun bs P' hlater => ?_⟩
  exact (reads_settled hrun hlater).2.1

end EsLite.Postgres
