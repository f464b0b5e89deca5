import EsLite.Postgres.Settled

/-!
# Anchors over Postgres

`Anchor` reads the log head and then the heads of all streams up to it, and `CheckAnchor` reads those
heads again. The log head is the highest *committed* position. A transaction that drew a lower position
and is still open is not seen by either statement; when it commits, the heads up to the anchored
position change, and an honest log no longer matches (`checkAnchor_mismatch_after_late_commit`). Where
no open transaction holds a position up to the anchored one, the heads are fixed for ever, and every
later check succeeds (`checkAnchor_ok_of_quiet`).
-/

namespace EsLite.Postgres

open Logic
open Prog (issues_perform)

/-! ## Heads up to a settled position -/

variable {upto : Nat} {P : Pool State Call Op Res Reply}

/-- Rows beyond `upto` do not count for the version of a head. -/
theorem maxVersionUpTo_append {rows extra : List (Placed Envelope)} (h : ∀ r ∈ extra, upto < r.position)
    (ws stream : Bytes) :
    maxVersionUpTo (rows ++ extra) upto ws stream = maxVersionUpTo rows upto ws stream := by
  have hextra : extra.filter (fun r => r.row.workspace = ws && r.row.streamID.canonical = stream &&
      r.position ≤ upto) = [] := by
    refine List.filter_eq_nil_iff.mpr (fun r hr => ?_)
    have := h r hr
    simp only [Bool.and_eq_true, decide_eq_true_eq, not_and]
    omega
  unfold maxVersionUpTo
  rw [List.filter_append, hextra, List.append_nil]

/-- A row beyond `upto` is no head: the head of its stream has its version already. -/
theorem isHead_eq_false {rows : List (Placed Envelope)} {r : Placed Envelope}
    (h : ∀ r₀ ∈ rows, clash r₀.row r.row = false) : isHead rows upto r = false := by
  refine decide_eq_false (fun hmax => ?_)
  obtain ⟨r₀, hr₀, hversion⟩ := List.mem_map.mp (List.max?_mem hmax)
  obtain ⟨hr₀, hq⟩ := List.mem_filter.mp hr₀
  simp only [Bool.and_eq_true, decide_eq_true_eq] at hq
  have hclash : clash r₀.row r.row = true := by
    simp [clash, hq.1.1, hq.1.2, UInt64.toNat_inj.mp hversion]
  rw [h r₀ hr₀] at hclash
  cases hclash

/-- **The heads up to a settled position are fixed.** -/
theorem selectHeads_of_settled {db db' : Mvcc Envelope} (h : db.Settled upto) (hle : db.Le db')
    (hv : db'.Valid clash) : selectHeads db'.committed upto = selectHeads db.committed upto := by
  obtain ⟨extra, heq, hextra⟩ := hle.committed
  have hbeyond : ∀ r ∈ extra, upto < r.position := by
    intro r hr
    rcases hextra r hr with ⟨x, hx⟩ | hx
    · exact h.2 _ x hx
    · exact h.1.trans_lt hx
  have hhead : isHead db'.committed upto = isHead db.committed upto := by
    funext r
    rw [heq, isHead, maxVersionUpTo_append hbeyond, isHead]
  -- no two committed rows have the same stream and version
  have hunique : ∀ r₀ ∈ db.committed, ∀ r ∈ extra, clash r₀.row r.row = false := by
    have hrows := (List.pairwise_append.mp hv.unique).2.1
    rw [heq, List.map_append] at hrows
    exact fun r₀ hr₀ r hr => (List.pairwise_append.mp hrows).2.2 _ (List.mem_map_of_mem hr₀) _
      (List.mem_map_of_mem hr)
  have hnone : extra.filter (isHead db.committed upto) = [] :=
    List.filter_eq_nil_iff.mpr (fun r hr => by
      simp [isHead_eq_false (fun r₀ hr₀ => hunique r₀ hr₀ r hr)])
  unfold selectHeads
  rw [hhead, heq, List.filter_append, hnone, List.append_nil]

/-! ## Anchors -/

/-- The anchor matches the committed rows. -/
def Matching (a : Anchor) (db : Mvcc Envelope) : Prop :=
  ∃ hs, scanAll scanHead (selectHeads db.committed a.uptoGlobalPosition.toNat) = .ok hs ∧
    compareAnchor a hs = .ok ()

theorem compareAnchor_anchorOf (id : Bytes) (now : Time) (upto : Nat) (hs : List StreamHead) :
    compareAnchor (anchorOf id now upto hs) hs = .ok () :=
  if_neg (by simp [anchorOf])

/-- No open transaction holds a position up to the one an anchor is taken at. -/
def QuietHeads : Op → State → Prop
  | .selectHeads .anchor _ upto, s => ∀ e ∈ s.events.held, upto < e.2
  | _, _ => True

instance (o : Op) (s : State) : Decidable (QuietHeads o s) := by
  unfold QuietHeads
  split <;> infer_instance

section Programs

variable {allowed : Op → State → Prop} {cap : Int} {ws : Bytes} {s : State}

/-- The rule for the transaction of an anchor operation; its own errors are errors of the database. -/
theorem wp_bypassTx {α : Type} {E : StoreError → Prop} (hE : ∀ text, E (.backend text))
    {R : α → State → Prop} {body : Nat → Pg StoreError α} (h : ∀ t u, s.events.Le u.events → Inv u →
      (storeLogic allowed).WP (postgres cap ws) (Returns E R) (body t).run u) :
    (storeLogic allowed).WP (postgres cap ws) (Returns E R) (bypassTx body).run s := by
  have hstmt : ∀ {β : Type} {text : String} {u : State} (call : Prog Op Res (Except DbError β)),
      Prog.Issues Op.plain call → (storeLogic allowed).WP (postgres cap ws)
        (Returns E (fun _ _ => True)) (stmt (anchorErr text) call).run u := fun call hcall =>
    wp_stmt_returns (fun _ => hE _) ((wp_plain hcall).weaken (fun r _ _ _ _ => by
      cases r <;> exact trivial))
  have hrole : (storeLogic allowed).WP (postgres cap ws) (Returns E (fun _ _ => True))
      checkRelayRole.run s := by
    refine WP.andThen (hstmt _ (.op trivial)) (fun member u _ _ _ => ?_)
    cases member with
    | true => exact wp_pure (fun _ _ _ => trivial)
    | false => exact WP.ret (fun _ _ _ => hE _)
  refine WP.andThen hrole (fun _ s₁ h₁ _ _ => ?_)
  refine WP.andThen (hstmt _ (.op trivial)) (fun t s₂ h₂ _ _ => ?_)
  refine wp_rollbackAfter (WP.andThen (hstmt _ (.op trivial)) (fun _ s₃ h₃ hi _ => ?_))
  exact h t s₃ ((Mvcc.Le.trans h₁ h₂).trans h₃) hi

/-- The log head has been drawn. -/
theorem wp_anchorBound {t : Nat} :
    (storeLogic allowed).WP (postgres cap ws) (OnOk (fun upto u => upto ≤ u.events.drawn))
      (anchorBound 0 t).run s := by
  refine wp_stmt (wp_plain_op (by trivial) (fun c u u' y _ hi _ hex => ?_))
  cases y with
  | error e => exact fun _ _ _ => trivial
  | ok h =>
    obtain ⟨rfl, rfl⟩ := query_ok hex
    have hdrawn : maxPosition u'.events.committed (fun _ => true) ≤ u'.events.drawn := by
      rcases maxPosition_cases u'.events.committed (fun _ => true) with h0 | ⟨r, hr, -, heq⟩
      · exact h0 ▸ Nat.zero_le _
      · exact heq ▸ (hi.valid.positions_drawn _
          (List.mem_append_right _ (List.mem_map_of_mem hr))).2
    exact fun v hv _ => hdrawn.trans hv.drawn

/-- Heads read while nothing is in flight below them stay the heads. -/
theorem wp_heads_anchor {t : Nat} (hupto : upto ≤ s.events.drawn) :
    (storeLogic QuietHeads).WP (postgres cap ws)
      (OnOk (fun hs u => scanAll scanHead (selectHeads u.events.committed upto) = .ok hs))
      (heads .anchor t upto).run s := by
  refine WP.andThen (R := fun rows u => selectHeads u.events.committed upto = rows)
    (wp_stmt (wp_plain_op (by trivial) (fun c u u' y hu hi hquiet hex => ?_)))
    (fun rows u _ _ hrows => wp_ofResult (fun hs hhs v hv hi => ?_))
  · cases y with
    | error e => exact fun _ _ _ => trivial
    | ok rows =>
      obtain ⟨rfl, rfl⟩ := query_ok hex
      have hsettled : u'.events.Settled upto :=
        ⟨hupto.trans hu.drawn, fun p x ⟨t', _, hp⟩ => hquiet (t', p) hp⟩
      exact fun v hv hiv => selectHeads_of_settled hsettled hv hiv.valid
  · rw [hrows v hv hi]
    exact hhs

/-- **An anchor of the log head that is taken in quiet matches from then on.** -/
theorem wp_anchor :
    (storeLogic QuietHeads).WP (postgres cap ws) (OnOk (fun a u => Matching a u.events))
      (anchor 0).run s := by
  refine wp_bypassTx (fun _ => trivial) (fun t _ _ _ => ?_)
  refine WP.andThen wp_anchorBound (fun upto s₁ _ hi₁ hupto => ?_)
  have hle := hupto s₁ (Mvcc.Le.refl _) hi₁
  have htoNat : (UInt64.ofNat upto).toNat = upto :=
    UInt64.toNat_ofNat_of_lt' ((hle.trans_lt hi₁.drawn_lt).trans (by decide))
  refine WP.andThen (wp_heads_anchor hle) (fun hs s₂ _ _ hhs => ?_)
  refine wp_plain_then (issues_perform trivial) (fun id s₃ h₃ _ => ?_)
  refine wp_plain_then (issues_perform trivial) (fun now s₄ h₄ _ => ?_)
  refine wp_plain_then (issues_stmt (.op trivial)) (fun _ s₅ h₅ _ => ?_)
  refine wp_plain_then (issues_stmt (.op trivial)) (fun _ s₆ h₆ _ => ?_)
  refine wp_pure (fun u hu hi => ⟨hs, ?_, compareAnchor_anchorOf id now upto hs⟩)
  rw [show (anchorOf id now upto hs).uptoGlobalPosition.toNat = upto from htoNat]
  exact ((((hhs.mono h₃).mono h₄).mono h₅).mono h₆) u hu hi

/-- The error is one of the database, not a verdict. -/
def IsBackend : StoreError → Prop
  | .backend _ => True
  | .sentinel _ => False

/-- A check of a matching anchor succeeds, unless a statement of it fails. -/
theorem wp_checkAnchor {a : Anchor} (h : (storeLogic allowed).Always (fun u => Matching a u.events) s) :
    (storeLogic allowed).WP (postgres cap ws) (Returns IsBackend (fun _ _ => True))
      (checkAnchor a).run s := by
  refine wp_bypassTx (fun _ => trivial) (fun t u hu _ => ?_)
  refine WP.andThen (R := fun hs _ => compareAnchor a hs = .ok ())
    (WP.andThen (R := fun rows _ => ∃ hs, scanAll scanHead rows = .ok hs ∧
      compareAnchor a hs = .ok ()) (wp_stmt_returns (fun _ => trivial)
        (wp_plain_op (by trivial) (fun c v v' y hv hi _ hex => ?_))) (fun rows v _ hi hrows => ?_))
    (fun hs v _ hi hcompare => ?_)
  · cases y with
    | error e => exact fun _ _ _ => trivial
    | ok rows =>
      obtain ⟨rfl, rfl⟩ := query_ok hex
      exact fun _ _ _ => (h.mono hu) v' hv hi
  · obtain ⟨hs, hscan, hcompare⟩ := hrows v (Mvcc.Le.refl _) hi
    rw [hscan]
    exact WP.ret (fun _ _ _ => hcompare)
  · rw [hcompare v (Mvcc.Le.refl _) hi]
    exact WP.ret (fun _ _ _ => trivial)

end Programs

/-! ## Every run -/

/-- What an `Anchor(0)` that is taken in quiet guarantees from its return on. -/
def AnchorPost : Call → Reply → State → Prop
  | .anchor upto, .anchored r, u => upto = 0 → OnOk (fun a u => Matching a u.events) r u
  | _, _, _ => True

theorem wp_anchorPost {cap : Int} {ws : Bytes} {s : State} (c : Call) :
    (storeLogic QuietHeads).WP (postgres cap ws) (AnchorPost c) (program cap ws c) s := by
  have htrue : ∀ c, (∀ upto, c ≠ .anchor upto) →
      (storeLogic QuietHeads).WP (postgres cap ws) (AnchorPost c) (program cap ws c) s := by
    intro c hc
    refine (wp_program c).weaken (fun r _ _ _ _ => ?_)
    cases c with
    | anchor upto => exact absurd rfl (hc upto)
    | _ => exact trivial
  cases c with
  | anchor upto =>
    by_cases h0 : upto = 0
    · subst h0
      exact WP.map (wp_anchor.weaken (fun r _ _ _ hr _ => hr))
    · exact WP.map ((wp_plain (issues_anchor.mono fun _ => Op.anchors.plain)).weaken
        (fun r _ _ _ _ h => absurd h h0))
  | _ => exact htrue _ (fun _ h => by cases h)

/-- **A check of an anchor taken in quiet succeeds.** Along a run in which the heads of every `Anchor`
are read while no open transaction holds a position up to the anchored one, let `Anchor(0)` return
`a`. Whatever happens then, a `CheckAnchor(a)` that is issued later returns no error, unless a
statement of it fails. -/
theorem checkAnchor_ok_of_quiet {cap : Int} {ws : Bytes} {now : Time}
    {P P₁ P₂ P' : Pool State Call Op Res Reply} {as bs cs : List (PoolAction Call Choice EnvStep)}
    {i j : Nat} {a : Anchor} {c : Call} {r : Reply}
    (hrun : GuardedRun (postgres cap ws).step (System.Allows (fun _ _ => True) QuietHeads)
      (Pool.start (State.fresh now)) as P)
    (hanchor : (i, Call.anchor 0, Reply.anchored (.ok a)) ∈ P.finished)
    (hlater : runActions (postgres cap ws).step P bs = some P₁)
    (hcheck : (postgres cap ws).step P₁ (.spawn j (.checkAnchor a)) = some P₂)
    (hrest : runActions (postgres cap ws).step P₂ cs = some P')
    (hreturn : (j, c, r) ∈ P'.finished) :
    r = .checked (.ok ()) ∨ ∃ text, r = .checked (.error (.backend text)) := by
  obtain ⟨hquiet, -⟩ := Logic.run_sound env_respects (fun c _ _ _ => wp_anchorPost c) hrun
    (Logic.Sound.start (inv_fresh now))
  obtain ⟨hP, -⟩ := run_advances hrun.run (Logic.Sound.start (inv_fresh now))
  obtain ⟨hP₁, hle₁⟩ := run_advances hlater hP
  -- the anchor matches from here on, in particular whenever the check reads the heads
  have hmatching : (storeLogic fun _ _ => True).Always (fun u => Matching a u.events) P₁.shared :=
    fun u hu hi => hquiet.finished _ hanchor u (hle₁.trans hu) hi rfl
  have hwp : (storeLogic fun _ _ => True).WP (postgres cap ws)
      (fun r _ => r = .checked (.ok ()) ∨ ∃ text, r = .checked (.error (.backend text)))
      (program cap ws (.checkAnchor a)) P₁.shared := by
    refine WP.map ((wp_checkAnchor hmatching).weaken (fun r _ _ _ hr => ?_))
    cases r with
    | ok x => exact .inl rfl
    | error e =>
      cases e with
      | backend text => exact .inr ⟨text, rfl⟩
      | sentinel s => exact hr.elim
  have hrest₁ : runActions (postgres cap ws).step P₁ [.spawn j (.checkAnchor a)] = some P₂ :=
    runActions_cons_eq_some.mpr ⟨P₂, hcheck, rfl⟩
  obtain ⟨hP₂, -⟩ := run_advances hrest₁ hP₁
  have hfollows : (storeLogic fun _ _ => True).Follows (postgres cap ws) j
      (fun r _ => r = .checked (.ok ()) ∨ ∃ text, r = .checked (.error (.backend text))) P₂ := by
    rcases System.step_cases hcheck with ⟨k, c, heq, hu, rfl⟩ | ⟨_, _, _, _, _, _, _, heq, _⟩ |
      ⟨_, _, heq, _⟩ <;> cases heq
    exact follows_spawn hu hwp
  have hend := follows_run env_respects (fun c _ _ _ => wp_program c) (guardedRun_store hrest) hP₂
    hfollows
  exact hend.finished _ hreturn rfl P'.shared (Mvcc.Le.refl _) (run_advances hrest hP₂).1.inv

/-- The first anchor of the log head that a pool has returned. -/
def firstAnchor (P : Pool State Call Op Res Reply) : Option Anchor :=
  P.finished.findSome? (fun x =>
    match x.2.1, x.2.2 with
    | .anchor upto, .anchored (.ok a) => if upto = 0 then some a else none
    | _, _ => none)

theorem mem_of_firstAnchor {a : Anchor} (h : firstAnchor P = some a) :
    ∃ i, (i, Call.anchor 0, Reply.anchored (.ok a)) ∈ P.finished := by
  obtain ⟨⟨i, c, r⟩, hx, hf⟩ := List.exists_of_findSome?_eq_some h
  dsimp only at hf
  split at hf
  · split at hf
    · rename_i upto b h0
      cases hf
      subst h0
      exact ⟨i, hx⟩
    · cases hf
  · cases hf

/-- The anchor that a run over workspace `w` returns. -/
def anchorAfter (as : List (PoolAction Call Choice EnvStep)) : Anchor :=
  ((runActions (postgres 0 (str "w")).step (Pool.start (State.fresh ⟨0⟩)) as).bind firstAnchor).getD
    ⟨[], ⟨0⟩, 0, 0, []⟩

theorem mem_anchorAfter {as : List (PoolAction Call Choice EnvStep)}
    (hrun : runActions (postgres 0 (str "w")).step (Pool.start (State.fresh ⟨0⟩)) as = some P)
    (h : (firstAnchor P).isSome = true) :
    ∃ i, (i, Call.anchor 0, Reply.anchored (.ok (anchorAfter as))) ∈ P.finished := by
  obtain ⟨a, ha⟩ := Option.isSome_iff_exists.mp h
  have : anchorAfter as = a := by rw [anchorAfter, hrun, Option.bind_some, ha, Option.getD_some]
  rw [this]
  exact mem_of_firstAnchor ha

/-- The verdict of a check. -/
def Reply.verdict : Reply → Option (Option StoreError)
  | .checked (.ok _) => some none
  | .checked (.error e) => some (some e)
  | _ => none

/-- Call 3 has returned a verdict. -/
def verdictOf (P : Pool State Call Op Res Reply) (v : Option StoreError) : Bool :=
  P.finished.any (fun x => x.1 = 3 && x.2.2.verdict = some v)

theorem mem_of_verdictOf {v : Option StoreError} (h : verdictOf P v = true) :
    ∃ c r, (3, c, r) ∈ P.finished ∧ r.verdict = some v := by
  obtain ⟨⟨i, c, r⟩, hx, hv⟩ := List.any_eq_true.mp h
  simp only [Bool.and_eq_true, decide_eq_true_eq] at hv
  obtain ⟨rfl, hv⟩ := hv
  exact ⟨c, r, hx, hv⟩

/-- An append, and an anchor after it. -/
def quietAnchor : List (PoolAction Call Choice EnvStep) :=
  .spawn 0 (.append (str "w") (firstOrder "a" 1)) :: stepsOf 0 9 ++
    .spawn 1 (.anchor 0) :: stepsOf 1 10

/-- Another append. -/
def secondAppend : List (PoolAction Call Choice EnvStep) :=
  .spawn 2 (.append (str "w") (firstOrder "b" 2)) :: stepsOf 2 9

/-- The check after another append succeeds. -/
theorem checkAnchor_ok_of_quiet_once :
    ∃ P P₁ P₂ P' : Pool State Call Op Res Reply, ∃ a i c r,
      GuardedRun (postgres 0 (str "w")).step (System.Allows (fun _ _ => True) QuietHeads)
        (Pool.start (State.fresh ⟨0⟩)) quietAnchor P ∧
      (i, Call.anchor 0, Reply.anchored (.ok a)) ∈ P.finished ∧
      runActions (postgres 0 (str "w")).step P secondAppend = some P₁ ∧
      (postgres 0 (str "w")).step P₁ (.spawn 3 (.checkAnchor a)) = some P₂ ∧
      runActions (postgres 0 (str "w")).step P₂ (stepsOf 3 5) = some P' ∧
      (3, c, r) ∈ P'.finished ∧ r.verdict = some none ∧
      (r = .checked (.ok ()) ∨ ∃ text, r = .checked (.error (.backend text))) := by
  obtain ⟨P, hrun, hsome⟩ : ∃ P, GuardedRun (postgres 0 (str "w")).step
      (System.Allows (fun _ _ => True) QuietHeads) (Pool.start (State.fresh ⟨0⟩)) quietAnchor P ∧
      (firstAnchor P).isSome = true := exists_guardedRun (by decide +kernel)
  obtain ⟨i, hanchor⟩ := mem_anchorAfter hrun.run hsome
  obtain ⟨P', hfull, hverdict⟩ : ∃ P', runActions (postgres 0 (str "w")).step
      (Pool.start (State.fresh ⟨0⟩)) (quietAnchor ++ (secondAppend ++
        (.spawn 3 (.checkAnchor (anchorAfter quietAnchor)) :: stepsOf 3 5))) = some P' ∧
      verdictOf P' none = true := exists_run (by decide +kernel)
  obtain ⟨P₀, hP₀, hfull⟩ := runActions_append.mp hfull
  obtain rfl : P₀ = P := Option.some.inj (hP₀.symm.trans hrun.run)
  obtain ⟨P₁, hlater, hfull⟩ := runActions_append.mp hfull
  obtain ⟨P₂, hspawn, hrest⟩ := runActions_cons_eq_some.mp hfull
  obtain ⟨c, r, hreturn, hr⟩ := mem_of_verdictOf hverdict
  exact ⟨P₀, P₁, P₂, P', _, i, c, r, hrun, hanchor, hlater, hspawn, hrest, hreturn, hr,
    checkAnchor_ok_of_quiet hrun hanchor hlater hspawn hrest hreturn⟩

/-- An append has drawn position 1; another one commits position 2, and the log head is anchored. -/
def lateCommit : List (PoolAction Call Choice EnvStep) :=
  .spawn 0 (.append (str "w") (firstOrder "a" 1)) :: stepsOf 0 6 ++
    .spawn 1 (.append (str "w") (firstOrder "b" 2)) :: stepsOf 1 9 ++
    .spawn 2 (.anchor 0) :: stepsOf 2 10

/-- **A late commit breaks an anchor.** `Anchor(0)` returns an anchor of position 2 with one stream;
the append that had drawn position 1 commits; `CheckAnchor` finds two streams. No statement fails, and
nothing but appends ran. -/
theorem checkAnchor_mismatch_after_late_commit :
    ∃ P P' : Pool State Call Op Res Reply, ∃ a i c r,
      runActions (postgres 0 (str "w")).step (Pool.start (State.fresh ⟨0⟩)) lateCommit = some P ∧
      (i, Call.anchor 0, Reply.anchored (.ok a)) ∈ P.finished ∧
      runActions (postgres 0 (str "w")).step P
        (stepsOf 0 3 ++ .spawn 3 (.checkAnchor a) :: stepsOf 3 5) = some P' ∧
      (3, c, r) ∈ P'.finished ∧ r.verdict = some (some (.sentinel .anchorMismatch)) := by
  obtain ⟨P, hrun, hsome⟩ : ∃ P, runActions (postgres 0 (str "w")).step
      (Pool.start (State.fresh ⟨0⟩)) lateCommit = some P ∧ (firstAnchor P).isSome = true :=
    exists_run (by decide +kernel)
  obtain ⟨i, hanchor⟩ := mem_anchorAfter hrun hsome
  obtain ⟨P', hfull, hverdict⟩ : ∃ P', runActions (postgres 0 (str "w")).step
      (Pool.start (State.fresh ⟨0⟩)) (lateCommit ++ (stepsOf 0 3 ++
        .spawn 3 (.checkAnchor (anchorAfter lateCommit)) :: stepsOf 3 5)) = some P' ∧
      verdictOf P' (some (.sentinel .anchorMismatch)) = true := exists_run (by decide +kernel)
  obtain ⟨P₀, hP₀, hrest⟩ := runActions_append.mp hfull
  obtain rfl : P₀ = P := Option.some.inj (hP₀.symm.trans hrun)
  obtain ⟨c, r, hreturn, hr⟩ := mem_of_verdictOf hverdict
  exact ⟨P₀, P', _, i, c, r, hrun, hanchor, hrest, hreturn, hr⟩

end EsLite.Postgres
