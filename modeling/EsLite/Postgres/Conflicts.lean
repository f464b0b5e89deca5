import EsLite.Foundation.Deciding
import EsLite.Postgres.Owners

/-!
# Optimistic concurrency at commit

An append checks the expected version against the head it reads, and commits later. An append with
events is protected in between by the primary key: when it commits, its transaction holds the version
after the expected one, and the head it read is still the last committed row (`append_at_expected`). An
append without events holds nothing: other appends commit between its check and its commit, and its
claims are committed all the same (`stale_claim_committed`).

The head that an append reads is a committed row because its transaction has written nothing yet
(`Clean`). That is a fact about the owner of the transaction (`EsLite.Postgres.Owners`); from the head
read on the append knows what it knows for good (`Based`).
-/

namespace EsLite.Postgres

open Prog (perform ofResult issues_perform)

/-! ## Where a stream stands -/

/-- The version of the last committed row of a stream, 0 when there is none. -/
def committedVersion (s : State) (ws : Bytes) (sid : StreamID) : Nat :=
  (headOf sid (selectHead s.events.committed ws sid.canonical)).1.toNat

variable {s s' : State} {t : Nat} {o : Op} {p : AppendParams} {steps : List CallerStep}

theorem committedVersion_eq (hs : Chains s) (ws : Bytes) (sid : StreamID) :
    committedVersion s ws sid = (streams.stream (ws, sid.canonical) s.events.committed).length := by
  have hseq := hs.numbered.committed (ws, sid.canonical)
  rw [committedVersion, headOf_version, selectHead_eq hseq, hseq.numOf_getLast?]

/-- The transaction has written nothing. -/
structure Clean (t : Nat) (s : State) : Prop where
  lt : t < s.events.nextTx
  rows : t ∈ s.events.opened → s.events.ownRows t = []
  claims : t ∈ s.events.opened → s.claimWrites.filter (·.1 = t) = []

theorem Closed.clean (h : Closed t s) : Clean t s :=
  ⟨h.lt, fun ht => absurd ht h.notMem, fun ht => absurd ht h.notMem⟩

/-- What others do leaves the transaction clean. -/
theorem Clean.mono {T : Nat → Prop} (h : Clean t s) (hT : T t)
    (hrely : streamLogic.Rely transactions T s s') : Clean t s' := by
  have huntouched : Untouched t s s' := hrely.2 t hT
  refine ⟨h.lt.trans_le hrely.1.1.nextTx, fun ht => ?_, fun ht => ?_⟩
  · rw [huntouched.rows ht]
    exact h.rows (huntouched.opened ht)
  · rw [huntouched.claims ht]
    exact h.claims (huntouched.opened ht)

/-- The calls that write neither rows nor claims. -/
def Op.silent : Op → Prop
  | .insertEvent .. | .deleteClaim .. | .insertClaim .. => False
  | _ => True

theorem Op.silent.insertsNothing (h : o.silent) : o.insertsNothing := by
  cases o <;> first | exact trivial | exact h.elim

variable {c : Choice} {ws : Bytes} {trig : (o : Op) → Res o → Prop}

/-- A call that writes nothing leaves the transaction clean. -/
theorem Clean.exec {r : Res o} (h : Clean t s) (ho : o.silent) (hex : exec o c s = some (s', r))
    (hle : streamLogic.le s s') : Clean t s' := by
  have hlt : t < s'.events.nextTx := h.lt.trans_le hle.1.nextTx
  have hwrote : ∀ {x : State}, Wrote s o x → Untouched t s x := by
    intro x hw
    by_cases htx : o.tx? = some t
    · cases hw with
      | nothing => exact .refl t s
      | began => cases htx
      | xid ht =>
        rename_i u
        rcases Mvcc.assignXid_cases u s.events with ⟨x, -, heq⟩ | ⟨-, heq⟩ <;> rw [heq]
        · exact .refl t s
        · exact ⟨id, fun _ => rfl, fun _ => rfl⟩
      | drew => exact ⟨id, fun _ => rfl, fun _ => rfl⟩
      | inserted => exact ho.elim
      | released => exact ho.elim
      | claimed => exact ho.elim
      | locked => cases htx
      | unlocked => cases htx
      | fenced => cases htx
    · exact untouched_wrote hw h.lt htx
  have huntouched : ∀ {x : State}, Untouched t s x → t < x.events.nextTx → Clean t x := by
    intro x hx hlt
    refine ⟨hlt, fun ht => ?_, fun ht => ?_⟩
    · rw [hx.rows ht]
      exact h.rows (hx.opened ht)
    · rw [hx.claims ht]
      exact h.claims (hx.opened ht)
  have hended : ∀ {x : State}, t ∉ x.events.opened → t < x.events.nextTx → Clean t x :=
    fun hx hlt => Closed.clean ⟨hlt, hx⟩
  have hgone : ∀ x : State, t ∉ (x.abort t).events.opened := fun x ht =>
    absurd rfl (of_decide_eq_true (List.mem_filter.mp ht).2)
  cases exec_effect hex with
  | wrote hw => exact huntouched (hwrote hw) hlt
  | aborted hu hw =>
    rename_i u x
    by_cases hut : u = t
    · subst hut
      exact hended (hgone x) hlt
    · exact huntouched ((hwrote hw).trans (untouched_abort hut x)) hlt
  | committed hu ht =>
    rename_i u
    by_cases hut : u = t
    · subst hut
      exact hended (hgone s) hlt
    · exact huntouched (untouched_commit hut s) hlt

/-- A new transaction is clean. -/
theorem clean_began (hi : Inv s) (hs : Chains s) :
    Clean s.events.nextTx { s with events := s.events.openTx.1 } := by
  refine ⟨Nat.lt_succ_self _, fun _ => ?_, fun _ => ?_⟩
  · refine List.eq_nil_iff_forall_not_mem.mpr (fun r hr => ?_)
    have hheld : (s.events.nextTx, r.position) ∈ s.events.held :=
      List.mem_append_right _ (List.mem_map_of_mem
        (f := fun e : Nat × Placed Envelope => (e.1, e.2.position)) (Mvcc.mem_ownRows.mp hr))
    obtain ⟨x, hx⟩ := hi.valid.held_xid _ hheld
    exact absurd (hi.valid.opened_lt _ (hi.valid.xid_opened _ hx)) (lt_irrefl _)
  · refine List.filter_eq_nil_iff.mpr (fun w hw => ?_)
    simpa using Nat.ne_of_lt (hs.writers w hw)

/-- What an append that succeeded knows for good: the head with the expected version is committed, and
its transaction holds the next version, if there are events. -/
structure Based (t : Nat) (ws : Bytes) (p : AppendParams) (s : State) : Prop where
  head : ∃ prev, p.expectedVersion.toNat = streams.numOf prev ∧
    ∀ q ∈ prev, q ∈ streams.stream (ws, p.streamID.canonical) s.events.committed
  holds : p.events ≠ [] → Holds t ws p.streamID (p.expectedVersion.toNat + 1) s

theorem Based.mono (h : Based t ws p s) (hle : streamLogic.le s s') : Based t ws p s' := by
  obtain ⟨prev, hprev, hmem⟩ := h.head
  refine ⟨⟨prev, hprev, fun q hq => ?_⟩, fun hne => (h.holds hne).mono hle⟩
  obtain ⟨hq, hk⟩ := Numbering.mem_stream.mp (hmem q hq)
  exact Numbering.mem_stream.mpr ⟨hle.1.committed q hq, hk⟩

/-- **Such an append stands at the expected version** as long as its transaction is open. -/
theorem Based.version (h : Based t ws p s) (hs : Chains s) (hne : p.events ≠ [])
    (ht : t ∈ s.events.opened) : committedVersion s ws p.streamID = p.expectedVersion.toNat := by
  obtain ⟨prev, hprev, hmem⟩ := h.head
  obtain ⟨r, hr, hrv⟩ := (h.holds hne).mem ht
  have hseq := hs.numbered t (ws, p.streamID.canonical)
  rw [Mvcc.visible, Numbering.stream_append, Numbering.seq_append] at hseq
  rw [committedVersion_eq hs]
  -- the rows of the transaction come after the committed ones
  have hafter : (streams.stream (ws, p.streamID.canonical) s.events.committed).length <
      p.expectedVersion.toNat + 1 := by
    have hrn : streams.num r.row ∈ (streams.stream (ws, p.streamID.canonical)
        (s.events.ownRows t)).map (fun r => streams.num r.row) := List.mem_map_of_mem hr
    rw [hseq.2.nums, List.mem_range'_1] at hrn
    have hrv : streams.num r.row = p.expectedVersion.toNat + 1 := hrv
    omega
  have hbefore : p.expectedVersion.toNat ≤
      (streams.stream (ws, p.streamID.canonical) s.events.committed).length := by
    rw [hprev]
    cases prev with
    | none => exact Nat.zero_le _
    | some q => exact (hseq.1.num_mem (hmem q rfl)).2
  omega

/-! ## What an append owes -/

section Owed

open Logic

variable {cap : Int} {ws ws' : Bytes} {p : AppendParams} {t : Nat} {T : Nat → Prop} {s : State}
  {α ε : Type}

/-- What a call with the one append `p` owes. It reads the head before it writes anything; and when it
commits, it has written nothing or the stream stands at the expected version. -/
def Owed (ws : Bytes) (p : AppendParams) : Op → State → Prop
  | .readHead t ws' stream, s => ws' = ws ∧ stream = p.streamID.canonical ∧ Clean t s
  | .commit t, s => p.events ≠ [] → t ∈ s.events.opened →
      Clean t s ∨ committedVersion s ws p.streamID = p.expectedVersion.toNat
  | _, _ => True

/-- The programs of appends, with what they owe. -/
abbrev Owning (cap : Int) (ws ws' : Bytes) (p : AppendParams) (Q : α → State → Prop)
    (q : Prog Op Res α) (T : Nat → Prop) (s : State) : Prop :=
  streamLogic.Owns (postgres cap ws) transactions (Owed ws' p) Q q T s

theorem Op.fills.owed (h : o.fills t) (s : State) : Owed ws' p o s := by
  cases o <;> first | exact trivial | exact h.elim

/-- The calls of a transaction before its append. -/
def Op.prepares (t : Nat) : Op → Prop
  | .setConfig u | .currentXid u => u = t
  | .timeNow => True
  | _ => False

theorem Op.prepares.silent (h : o.prepares t) : o.silent := by
  cases o <;> first | exact trivial | exact h.elim

theorem Op.prepares.appends (h : o.prepares t) : o.appends t := by
  cases o <;> first | exact h | exact h.elim

theorem Op.prepares.owed (h : o.prepares t) (s : State) : Owed ws' p o s := by
  cases o <;> first | exact trivial | exact h.elim

/-- The transaction stays clean before its append. -/
theorem owning_prepares {q : Prog Op Res α} (hq : Prog.Issues (Op.prepares t) q) (ht : T t)
    (h : Clean t s) : Owning cap ws ws' p (fun _ => Clean t) q T s := by
  induction q generalizing s T with
  | ret a => exact fun u hu _ => h.mono ht hu
  | call o k ih =>
    intro u hu hs hi
    refine ⟨fun x hx => hq.1.appends.tx x hx ▸ ht, hq.1.owed u, fun c u' r hex => ?_⟩
    have hgrows := exec_grows hq.1.silent.insertsNothing hi hs hex
    exact ⟨hgrows.respects.1, hgrows.respects.2,
      ih r (hq.2 r) (.inl ht) ((h.mono ht hu).exec hq.1.silent hex hgrows.respects.2)⟩

/-- A clean transaction stays clean, whatever others do. -/
theorem clean_lasts (ht : T t) (_ : ε) (u v : State) (T' : Nat → Prop) (hT : ∀ x, T x → T' x)
    (hrely : streamLogic.Rely transactions T' u v) (h : Clean t u) : Clean t v :=
  h.mono (hT t ht) hrely

/-- A part of an append before its head read. -/
theorem owning_then {q : Pg ε α} {β : Type} {R : β → State → Prop} {f : α → Pg ε β}
    (hq : Prog.Issues (Op.prepares t) q.run) (ht : T t) (h : Clean t s)
    (hf : ∀ a T' u, T' t → Chains u → Clean t u →
      Owning cap ws ws' p (Ends (fun _ => Clean t) R) (f a).run T' u) :
    Owning cap ws ws' p (Ends (fun _ => Clean t) R) (q >>= f).run T s := by
  refine Owns.andThen private_transactions (clean_lasts ht) (R := fun _ => Clean t)
    ((owning_prepares hq ht h).weaken (fun _ _ hM => hM) (fun r u _ hu => ?_))
    (fun a T' u hT hs hu => hf a T' u (hT t ht) hs hu)
  cases r <;> exact hu

/-- **The head read of an append** in a clean transaction returns the last committed row. -/
theorem owning_readHead (ht : T t) (h : Clean t s) :
    Owning cap ws ws' p (Ends (fun _ => Clean t) (fun head u => Clean t u ∧ ∃ prev,
        head = headOf p.streamID prev ∧ Last t ws' p.streamID prev u ∧
        ∀ q ∈ prev, q ∈ streams.stream (ws', p.streamID.canonical) u.events.committed))
      (readHead ws' p.streamID t).run T s := by
  intro u hu hs hi
  have hclean : Clean t u := h.mono ht hu
  refine ⟨fun x hx => Option.some.inj hx ▸ ht, ⟨rfl, rfl, hclean⟩, fun c u' r hex => ?_⟩
  have hgrows := exec_grows (o := .readHead ..) trivial hi hs hex
  have hclean' : Clean t u' := hclean.exec (o := .readHead ..) trivial hex hgrows.respects.2
  refine ⟨hgrows.respects.1, hgrows.respects.2, ?_⟩
  cases r with
  | error e => exact fun v hv _ => hclean'.mono (.inl ht) hv
  | ok row =>
    obtain ⟨hopen, -⟩ := statement_ok hex
    obtain ⟨rfl, rfl⟩ := query_ok hex
    refine fun v hv _ => ⟨hclean'.mono (.inl ht) hv, _, rfl,
      (last_selectHead hi hs hopen ws' p.streamID).mono hv.1, fun q hq => ?_⟩
    rw [Mvcc.visible, hclean.rows hopen, List.append_nil,
      selectHead_eq (hs.numbered.committed _)] at hq
    obtain ⟨hq, hk⟩ := Numbering.mem_stream.mp (List.mem_of_getLast? hq)
    exact Numbering.mem_stream.mpr ⟨hv.1.1.committed q hq, hk⟩

/-- **An append in a clean transaction.** When it fails, the transaction is still clean or has ended;
when it succeeds, it is based on the expected version. -/
theorem owning_append (ht : T t) (h : Clean t s) :
    Owning cap ws ws' p (Ends (fun _ => Clean t) (fun _ => Based t ws' p))
      (append cap ws' p t).run T s := by
  rw [append_eq]
  refine owning_then trivial ht h (fun _ T₁ s₁ ht hs h => ?_)
  refine owning_then (issues_stmt (.op rfl)) ht h (fun _ T₂ s₂ ht hs h => ?_)
  refine owning_then (issues_occurredAt trivial) ht h (fun occurred T₃ s₃ ht hs h => ?_)
  refine Owns.andThen private_transactions (clean_lasts ht) (owning_readHead ht h)
    (fun head T₄ s₄ hT hs hhead => ?_)
  obtain ⟨h, prev, rfl, hlast, hcommitted⟩ := hhead
  have ht := hT t ht
  cases hversion : checkVersion p (headOf p.streamID prev).1 with
  | error e => exact fun u hu _ => h.mono ht hu
  | ok _ =>
    have hversion := checkVersion_ok hversion
    refine Owns.of_wp ((wp_appendRows hlast hversion).weaken (fun r u hu _ hr => ?_))
      (issues_appendRows.mono fun _ ho => ho.owed)
      (confined_appends (issues_appendRows.mono fun _ => Op.fills.appends) ht)
    cases r with
    | error e => exact Closed.clean hr
    | ok _ =>
      refine ⟨⟨prev, hversion, fun q hq => ?_⟩, hr⟩
      obtain ⟨hq, hk⟩ := Numbering.mem_stream.mp (hcommitted q hq)
      exact Numbering.mem_stream.mpr ⟨hu.1.committed q hq, hk⟩

theorem owning_appendTx (ht : T t) (h : Clean t s) :
    Owning cap ws ws' p (Ends (fun _ => Clean t) (fun _ => Based t ws' p))
      (appendTx cap ws' p t).run T s := by
  refine owning_then trivial ht h (fun _ T₁ s₁ ht hs h => ?_)
  exact owning_then (issues_stmt (.op rfl)) ht h
    (fun _ T₂ s₂ ht hs h => owning_append ht h)

/-- A program that begins a transaction goes on with a clean one, or with an error. -/
theorem owning_begin {k : Except DbError Nat → Prog Op Res α}
    (herror : ∀ e T' u, Owning cap ws ws' p (fun _ _ => True) (k (.error e)) T' u)
    (hok : ∀ t u, Clean t u →
      Owning cap ws ws' p (fun _ _ => True) (k (.ok t)) (fun x => T x ∨ x = t) u) :
    Owning cap ws ws' p (fun _ _ => True) (.call Op.beginTx k) T s := by
  intro u hu hs hi
  refine ⟨nofun, trivial, fun c u' r hex => ?_⟩
  have hgrows := exec_grows (o := .beginTx) trivial hi hs hex
  refine ⟨hgrows.respects.1, hgrows.respects.2, ?_⟩
  cases r with
  | error e => exact herror e _ u'
  | ok t =>
    refine (hok t u' ?_).widen (fun x hx => hx.imp_right (fun heq => congrArg some heq.symm))
    simp only [postgres, exec] at hex
    cases hf : c.fault <;> simp only [hf] at hex <;> cases hex
    exact clean_began hi hs

/-- What is owed at a commit. -/
theorem owed_commit (hs : Chains s) (h : Clean t s ∨ Based t ws' p s) : Owed ws' p (.commit t) s :=
  fun hne ht => h.imp_right (fun hbased => hbased.version hs hne ht)

/-- The commit of a transaction that may be committed, and whatever comes after it. -/
theorem owning_commit {q : Except DbError Unit → Prog Op Res α} (ht : T t)
    (h : Clean t s ∨ Based t ws' p s)
    (hq : ∀ r T' u, T' t → Owning cap ws ws' p (fun _ _ => True) (q r) T' u) :
    Owning cap ws ws' p (fun _ _ => True) (.op (Op.commit t) >>= q) T s := by
  intro u hu hs hi
  refine ⟨fun x hx => Option.some.inj hx ▸ ht, owed_commit hs ?_, fun c u' r hex => ?_⟩
  · exact h.imp (fun hclean => hclean.mono ht hu) (fun hbased => hbased.mono hu.1)
  · have hgrows := exec_grows (o := .commit t) trivial hi hs hex
    exact ⟨hgrows.respects.1, hgrows.respects.2, hq r _ u' (.inl ht)⟩

/-- A rollback owes nothing. -/
theorem owning_rollback (ht : T t) : Owning cap ws ws' p (fun _ _ => True) (.op (Op.rollback t)) T s :=
  Owns.of_wp (wp_free (.op trivial)) (.op fun _ => trivial)
    (confined_in rfl ht)

theorem owning_appendOwn : Owning cap ws ws' p (fun _ _ => True) (appendOwn cap ws' p).run T s := by
  unfold appendOwn
  cases validateAppend p with
  | error e => exact fun _ _ _ => trivial
  | ok _ =>
    change Owning cap ws ws' p _ (.call Op.beginTx _) T s
    refine owning_begin (fun _ _ _ => fun _ _ _ => trivial) (fun t u h => ?_)
    change Owning cap ws ws' p _ (rollbackAfter t (appendOwned cap ws' p t)).run _ u
    refine Owns.bind private_transactions (R := fun _ _ => True) ?_
      (fun r T' v hT _ _ => Owns.bind private_transactions (owning_rollback (hT t (.inr rfl)))
        (fun _ _ _ _ _ _ => fun _ _ _ => trivial))
    have hconfig : Prog.Issues (Op.prepares t)
        (stmt (appendErr "set workspace") (.op (Op.setConfig t))).run :=
      issues_stmt (.op rfl)
    refine Owns.bind private_transactions (owning_prepares hconfig (.inr rfl) h)
      (fun r T₁ u₁ hT₁ _ h => ?_)
    cases r with
    | error e => exact fun _ _ _ => trivial
    | ok _ =>
      refine Owns.bind private_transactions (owning_append (hT₁ t (.inr rfl)) h)
        (fun r T₂ u₂ hT₂ _ hr => ?_)
      cases r with
      | error e => exact fun _ _ _ => trivial
      | ok res =>
        refine owning_commit (hT₂ t (hT₁ t (.inr rfl))) (.inr hr) (fun r _ _ _ => ?_)
        cases r <;> exact fun _ _ _ => trivial

/-- The append that a step of a caller makes. -/
def CallerStep.append? : CallerStep → Option (Bytes × AppendParams)
  | .appendTx ws p => some (ws, p)
  | .other => none

/-- The statements of a caller that are no appends change nothing of this. -/
theorem owning_others (hsteps : steps.filterMap CallerStep.append? = []) (ht : T t)
    (h : Clean t s ∨ Based t ws' p s) :
    Owning cap ws ws' p (fun _ u => Clean t u ∨ Based t ws' p u) (callerSteps cap t steps) T s := by
  induction steps generalizing s T with
  | nil => exact fun u hu _ => h.imp (fun h => h.mono ht hu) (fun h => h.mono hu.1)
  | cons step steps ih =>
    cases step with
    | appendTx ws p => cases hsteps
    | other =>
      have hxid : Prog.Issues (Op.prepares t) (Prog.op (Op.currentXid t) : Prog Op Res _) :=
        .op rfl
      refine Owns.bind private_transactions (R := fun _ u => Clean t u ∨ Based t ws' p u) ?_
        (fun _ T' u hT _ hu => ih hsteps (hT t ht) hu)
      rcases h with h | h
      · exact (owning_prepares hxid ht h).weaken (fun _ _ hM => hM) (fun _ _ _ hu => .inl hu)
      · refine Owns.of_wp ((wp_free (hxid.mono fun _ ho => ho.silent.insertsNothing)).weaken
          (fun _ u hu _ _ => .inr (h.mono hu))) (hxid.mono fun _ ho => ho.owed) (confined_in rfl ht)

/-- The steps of a caller with one append. -/
theorem owning_callerSteps (hsteps : steps.filterMap CallerStep.append? = [(ws', p)]) (ht : T t)
    (h : Clean t s) :
    Owning cap ws ws' p (fun _ u => Clean t u ∨ Based t ws' p u) (callerSteps cap t steps) T s := by
  induction steps generalizing s T with
  | nil => cases hsteps
  | cons step steps ih =>
    cases step with
    | appendTx ws'' p' =>
      obtain ⟨heq, hrest⟩ := List.cons.inj hsteps
      cases heq
      refine Owns.bind private_transactions (owning_appendTx ht h) (fun r T' u hT _ hr => ?_)
      refine owning_others hrest (hT t ht) ?_
      cases r with
      | ok res => exact .inr hr
      | error e => exact .inl hr
    | other =>
      exact Owns.bind private_transactions (owning_prepares (.op rfl) ht h)
        (fun _ T' u hT _ hu => ih hsteps (hT t ht) hu)

theorem owning_callerTx {commits : Bool} (hsteps : steps.filterMap CallerStep.append? = [(ws', p)]) :
    Owning cap ws ws' p (fun _ _ => True) (callerTx cap steps commits) T s := by
  change Owning cap ws ws' p _ (.call Op.beginTx (callerBody cap steps commits)) T s
  refine owning_begin (fun _ _ _ => fun _ _ _ => trivial) (fun t u h => ?_)
  rw [callerBody]
  refine Owns.bind private_transactions (owning_callerSteps hsteps (Or.inr rfl) h)
    (fun _ T' v hT _ hv => ?_)
  have ht : T' t := hT t (.inr rfl)
  cases commits with
  | true => exact owning_commit ht hv (fun _ _ _ _ => fun _ _ _ => trivial)
  | false => exact owning_rollback ht

/-- The calls that make one append, in a transaction of their own or of a caller. -/
def Call.OneAppend (ws : Bytes) (p : AppendParams) : Call → Prop
  | .append ws' p' => (ws', p') = (ws, p)
  | .callerTx steps _ => steps.filterMap CallerStep.append? = [(ws, p)]
  | _ => False

/-- What a call owes if it makes one append. -/
def Call.owed (c : Call) (o : Op) (s : State) : Prop := ∀ ws p, c.OneAppend ws p → Owed ws p o s

theorem owns_program (c : Call) :
    streamLogic.Owns (postgres cap ws) transactions c.owed (fun _ _ => True) (program cap ws c) T s := by
  by_cases hone : ∃ ws' p, c.OneAppend ws' p
  · obtain ⟨ws', p, hone⟩ := hone
    have hmain : Owning cap ws ws' p (fun _ _ => True) (program cap ws c) T s := by
      cases c with
      | append ws'' p' =>
        cases hone
        exact Owns.bind private_transactions owning_appendOwn (fun _ _ _ _ _ _ _ _ _ => trivial)
      | callerTx steps commits =>
        exact Owns.bind private_transactions (owning_callerTx hone) (fun _ _ _ _ _ _ _ _ _ => trivial)
      | _ => exact hone.elim
    refine hmain.weaken (fun o u howed ws'' p' hone' => ?_) (fun _ _ _ h => h)
    have heq : (ws'', p') = (ws', p) := by
      cases c with
      | append => exact hone'.symm.trans hone
      | callerTx => exact (List.cons.inj (hone'.symm.trans hone)).1
      | _ => exact hone.elim
    cases heq
    exact howed
  · refine Owns.of_wp ((wp_program_streams c).weaken (fun _ _ _ _ _ => trivial)) ?_ (confined_program c)
    exact Prog.issues_all (fun o u ws' p h => absurd ⟨ws', p, h⟩ hone) _

end Owed

/-! ## What an append returns -/

section Returned

variable {cap : Int} {ws ws' : Bytes} {p : AppendParams} {t : Nat}

/-- The reply is `ErrConflict`. -/
def Reply.IsConflict (r : Reply) : Prop :=
  ∃ e, r = .appended (.error e) ∧ e.sentinel = some .conflict

/-- The reply refuses an append: the head has another version, or the key of a row is taken. -/
def Refuses (p : AppendParams) : (o : Op) → Res o → Prop
  | .readHead .., r => ∃ row, r = Except.ok row ∧ (headOf p.streamID row).1 ≠ p.expectedVersion
  | .insertEvent .., r => r = Except.error DbError.unique
  | _, _ => False

/-- The reply of a commit. -/
def Answers : (o : Op) → Res o → Prop
  | .commit _, _ => True
  | _, _ => False

theorem decides_stmt {ε α : Type} {A : Except ε α → Prop} {wrap : DbError → ε}
    {call : Prog Op Res (Except DbError α)} (h : call.Decides trig (fun r => A (r.mapError wrap))) :
    (stmt wrap call).run.Decides trig A :=
  .bind h (fun _ => trivial)

theorem decides_rollbackAfter {ε α : Type} {A : Except ε α → Prop} {body : Pg ε α}
    (ht : ∀ r, ¬ trig (.rollback t) r) (h : body.run.Decides trig A) :
    (rollbackAfter t body).run.Decides trig A :=
  .bind (h.mono fun _ hr _ => hr) (fun _ => .of_issues ⟨ht, fun _ => trivial⟩)

/-- The events of an append: a taken key ends in a conflict. -/
theorem decides_insertEvents {occurred recorded : Time} {version : UInt64} {prev : Digest}
    {evs : List EventData} :
    (insertEvents ws' p t occurred recorded version prev evs).run.Decides (Refuses p)
      (fun r => ∃ e, r = .error e ∧ e.sentinel = some .conflict) := by
  induction evs generalizing version prev with
  | nil => exact trivial
  | cons ev evs ih =>
    refine .issues_then (issues_eventID fun _ h => h) (fun id => ?_)
    refine .bindExcept (.issues_then (issues_stmt (.op fun _ h => h)) (fun gp => ?_))
      (fun gp => ih.bindExcept (fun _ => trivial))
    refine .bindExcept (decides_stmt (fun r => ⟨?_, trivial⟩)) (fun _ => trivial)
    rintro rfl
    exact ⟨_, rfl, rfl⟩

theorem decides_appendRows {occurred : Time} {head : UInt64 × Digest} :
    (appendRows ws' p t occurred head).run.Decides (Refuses p)
      (fun r => ∃ e, r = .error e ∧ e.sentinel = some .conflict) := by
  refine .issues_then (issues_stmt (.op fun _ h => h)) (fun _ => ?_)
  refine decides_insertEvents.bindExcept (fun _ => ?_)
  exact .issues_then (issues_applyClaims (fun _ _ h => h) (fun _ _ h => h)) (fun _ => trivial)

theorem decides_append :
    (append cap ws' p t).run.Decides (Refuses p)
      (fun r => ∃ e, r = .error e ∧ e.sentinel = some .conflict) := by
  rw [append_eq]
  refine .issues_then trivial (fun _ => ?_)
  refine .issues_then (issues_stmt (.op fun _ h => h)) (fun _ => ?_)
  refine .issues_then (issues_occurredAt fun _ h => h) (fun occurred r => ⟨?_, ?_⟩)
  · -- the check fails after a head with another version
    rintro ⟨row, rfl, hne⟩
    show Prog.Results _ (ofResult (checkVersion p (headOf p.streamID row).1) >>= fun _ =>
      appendRows ws' p t occurred (headOf p.streamID row)).run
    rw [checkVersion, if_pos hne]
    exact ⟨_, rfl, rfl⟩
  · cases r with
    | error e => exact trivial
    | ok row =>
      exact .issues_then (p := ofResult (checkVersion p (headOf p.streamID row).1)) trivial
        (fun _ => decides_appendRows)

theorem decides_appendOwn :
    (appendOwn cap ws' p).run.Decides (Refuses p)
      (fun r => ∃ e, r = .error e ∧ e.sentinel = some .conflict) := by
  refine .issues_then trivial (fun _ => ?_)
  refine .issues_then (issues_stmt (.op fun _ h => h)) (fun t => ?_)
  refine decides_rollbackAfter (fun _ h => h) ?_
  refine .issues_then (issues_stmt (.op fun _ h => h)) (fun _ => ?_)
  refine decides_append.bindExcept (fun res => ?_)
  exact .issues_then (issues_stmt (.op fun _ h => h)) (fun _ => trivial)

/-- After the reply of its commit, an append returns no conflict. -/
theorem answers_appendOwn :
    (appendOwn cap ws' p).run.Decides Answers
      (fun r => ∀ e, r = .error e → e.sentinel ≠ some .conflict) := by
  refine .issues_then trivial (fun _ => ?_)
  refine .issues_then (issues_stmt (.op fun _ h => h)) (fun t => ?_)
  refine decides_rollbackAfter (fun _ h => h) ?_
  refine .issues_then (issues_stmt (.op fun _ h => h)) (fun _ => ?_)
  refine .issues_then (issues_append.mono fun o ho => ?_) (fun res r => ⟨fun _ => ?_, ?_⟩)
  · cases o <;> first | exact fun _ h => h | exact ho.elim
  · cases r with
    | ok _ => exact fun e he => (by cases he)
    | error d =>
      rintro e ⟨⟩
      exact nofun
  · cases r <;> exact trivial

/-- The replies that decide that a call returns a conflict. -/
def Call.Refused : Call → (o : Op) → Res o → Prop
  | .append _ p => Refuses p
  | _ => fun _ _ => False

/-- The replies that decide that a call does not return a conflict. -/
def Call.Answered : Call → (o : Op) → Res o → Prop
  | .append .. => Answers
  | _ => fun _ _ => False

theorem decides_refused (c : Call) : (program cap ws c).Decides c.Refused Reply.IsConflict := by
  cases c with
  | append ws' p =>
    refine .bind (decides_appendOwn.mono fun r hr => ?_) (fun _ => trivial)
    obtain ⟨e, rfl, he⟩ := hr
    exact ⟨e, rfl, he⟩
  | _ => exact .of_issues (Prog.issues_all (fun _ _ h => h) _)

theorem decides_answered (c : Call) :
    (program cap ws c).Decides c.Answered (fun r => ¬ r.IsConflict) := by
  cases c with
  | append ws' p =>
    refine .bind (answers_appendOwn.mono fun r hr => ?_) (fun _ => trivial)
    rintro ⟨e, he, hsentinel⟩
    exact hr e (Reply.appended.inj he) hsentinel
  | _ => exact .of_issues (Prog.issues_all (fun _ _ h => h) _)

end Returned

/-! ## Every run -/

/-- Something is committed: an event, or a change to the claims. -/
def Publishes (s s' : State) : Prop :=
  s'.events.committed ≠ s.events.committed ∨ s'.claims ≠ s.claims

instance (s s' : State) : Decidable (Publishes s s') :=
  inferInstanceAs (Decidable (_ ∨ _))

/-- What a call writes is not committed by it. -/
theorem wrote_keeps (h : Wrote s o s') : ¬ Publishes s s' := by
  have hsame : ∀ {x : State}, x.events.committed = s.events.committed → x.claims = s.claims →
      ¬ Publishes s x := fun hevents hclaims hpub => hpub.elim (· hevents) (· hclaims)
  cases h with
  | xid ht =>
    rename_i t
    rcases Mvcc.assignXid_cases t s.events with ⟨x, -, heq⟩ | ⟨-, heq⟩ <;> rw [heq]
    · exact hsame rfl rfl
    · exact hsame rfl rfl
  | inserted ht hdb =>
    rcases Mvcc.insert_cases hdb with ⟨h0, -⟩ | ⟨-, -, -, rfl⟩
    · cases h0
    · exact hsame rfl rfl
  | _ => exact hsame rfl rfl

/-- **Only a commit publishes**, and only that of a transaction that has written something. -/
theorem commit_of_publishes {r : Res o} (h : exec o c s = some (s', r)) (hpub : Publishes s s') :
    ∃ t, o = .commit t ∧ t ∈ s.events.opened ∧ ¬ Clean t s := by
  cases exec_effect h with
  | wrote hw => exact absurd hpub (wrote_keeps hw)
  | aborted ht hw =>
    rename_i t x
    exact absurd (show Publishes s x from hpub) (wrote_keeps hw)
  | committed ho ht =>
    rename_i t
    refine ⟨t, ho, ht, fun hclean => ?_⟩
    rcases hpub with hne | hne
    · refine hne ?_
      show s.events.committed ++ s.events.ownRows t = s.events.committed
      rw [hclean.rows ht, List.append_nil]
    · refine hne ?_
      show s.visibleClaims t = s.claims
      rw [State.visibleClaims, hclean.claims ht]
      rfl

/-- The append finds that the stream has moved on: its head read comes at a moment when the stream has
another version, or the key of one of its rows is taken. -/
def FindsStale (s : State) (ws : Bytes) (p : AppendParams) : (o : Op) → Res o → Prop
  | .readHead .., r => (∃ row, r = Except.ok row) ∧
      committedVersion s ws p.streamID ≠ p.expectedVersion.toNat
  | .insertEvent .., r => r = Except.error DbError.unique
  | _, _ => False

theorem refuses_of_stale {r : Res o} (h : exec o c s = some (s', r)) (howed : Owed ws p o s)
    (hstale : FindsStale s ws p o r) : Refuses p o r := by
  cases o with
  | readHead t ws' stream =>
    obtain ⟨⟨row, rfl⟩, hne⟩ := hstale
    obtain ⟨rfl, rfl, hclean⟩ := howed
    refine ⟨row, rfl, fun heq => hne ?_⟩
    obtain ⟨ht, -⟩ := statement_ok h
    obtain ⟨-, rfl⟩ := query_ok h
    rw [Mvcc.visible, hclean.rows ht, List.append_nil] at heq
    exact congrArg UInt64.toNat heq
  | insertEvent t gp e => exact hstale
  | _ => exact hstale.elim

section Runs

variable {cap : Int} {ws ws' : Bytes} {p : AppendParams} {s : State}

/-- Every call of every run meets what it owes. -/
theorem run_owed (hs : Quiet s) {P : Pool State Call Op Res Reply}
    {as : List (PoolAction Call Choice EnvStep)}
    (hrun : runActions (postgres cap ws).step (Pool.start s) as = some P) {i : Nat} {c : Call}
    {k : Res o → Prog Op Res Reply} (hth : P.thread i = some (c, .call o k)) : c.owed o P.shared := by
  have hguarded := guardedRun_inv hrun (Logic.Sound.start hs.inv)
  have hinv : Inv P.shared := (run_advances hrun (Logic.Sound.start hs.inv)).1.inv
  have howned : streamLogic.OwnedPool (postgres cap ws) transactions Call.owed P :=
    Logic.OwnedPool.run private_transactions (fun _ _ _ hi he => (envStep_grows hi he).respects)
      (fun c _ _ _ => owns_program c) hguarded (.start hs.chains)
  exact howned.must private_transactions hth hinv

/-- **Optimistic concurrency of appends with events.** In every interleaving, for a call that makes one
append with events, in a transaction of its own or of its caller:

- a step that publishes something is taken when the stream stands at the expected version, and the call
  returns no conflict then;
- an append that finds the stream at another version, or the key of a row taken, returns a conflict,
  and so publishes nothing;
- an append that returns a result has its first version committed. -/
theorem append_at_expected (hs : Quiet s) {P : Pool State Call Op Res Reply}
    {as : List (PoolAction Call Choice EnvStep)}
    (hrun : runActions (postgres cap ws).step (Pool.start s) as = some P) (hne : p.events ≠ []) :
    (∀ i c o k ch s' r, P.thread i = some (c, .call o k) → c.OneAppend ws' p →
      exec o ch P.shared = some (s', r) →
      (Publishes P.shared s' →
        committedVersion P.shared ws' p.streamID = p.expectedVersion.toNat) ∧
      (c = .append ws' p → ∀ bs Q,
        runActions (postgres cap ws).step (P.put i c s' (k r)) bs = some Q →
        ∀ x ∈ Q.finished, x.1 = i →
          (Publishes P.shared s' → ¬ x.2.2.IsConflict) ∧
          (FindsStale P.shared ws' p o r → x.2.2.IsConflict))) ∧
    ∀ x ∈ P.finished, ∀ res, x.2 = (.append ws' p, .appended (.ok res)) →
      Recorded ws' p.streamID (p.expectedVersion.toNat + 1) P.shared := by
  refine ⟨fun i c o k ch s' r hth hone hex => ⟨fun hpub => ?_, ?_⟩, fun x hx res hxe => ?_⟩
  · obtain ⟨t, rfl, ht, hdirty⟩ := commit_of_publishes hex hpub
    exact ((run_owed hs hrun hth ws' p hone) hne ht).resolve_left hdirty
  · rintro rfl bs Q hlater x hx hxi
    refine ⟨fun hpub => ?_, fun hstale => ?_⟩
    · obtain ⟨t, rfl, -⟩ := commit_of_publishes hex hpub
      exact Logic.returns_decided (T := postgres cap ws) decides_answered hrun hth
        (show Answers (.commit t) r from trivial) hlater x hx hxi
    · exact Logic.returns_decided (T := postgres cap ws) decides_refused hrun hth
        (refuses_of_stale hex (run_owed hs hrun hth ws' p hone) hstale) hlater x hx hxi
  · have hpost := (run_chains hs hrun).finished x hx P.shared (streamLogic.refl _)
      (run_chains hs hrun).inv
    rw [hxe] at hpost
    exact hpost hne

end Runs

instance (ws : Bytes) (p : AppendParams) : (c : Call) → Decidable (c.OneAppend ws p)
  | .append ws' p' => inferInstanceAs (Decidable ((ws', p') = (ws, p)))
  | .callerTx steps _ =>
    inferInstanceAs (Decidable (steps.filterMap CallerStep.append? = [(ws, p)]))
  | .readAllBounded .. | .head | .matchingHead _ | .anchor _ | .checkAnchor _ =>
    inferInstanceAs (Decidable False)

/-- The first of two racing appends, about to commit. -/
def racingCommit : List (PoolAction Call Choice EnvStep) :=
  .spawn 0 (.append (str "w") (increment 1 1)) :: stepsOf 0 4 ++
    .spawn 1 (.append (str "w") (increment 2 1)) :: stepsOf 1 7

/-- The commit finds the stream at the version that the append expects. -/
theorem append_at_expected_racing :
    ∃ P P', runActions (postgres 0 (str "w")).step (Pool.start legacy) racingCommit = some P ∧
      (postgres 0 (str "w")).step P (.step 1 {}) = some P' ∧ Publishes P.shared P'.shared ∧
      committedVersion P.shared (str "w") counterMain = 1 := by
  obtain ⟨P, hrun, hbefore, hone⟩ : ∃ P, runActions (postgres 0 (str "w")).step (Pool.start legacy)
      racingCommit = some P ∧ P.shared.events.committed.length = 1 ∧
      ∀ x ∈ P.thread 1, x.1.OneAppend (str "w") (increment 2 1) := exists_run (by decide +kernel)
  obtain ⟨P', hfull, hafter⟩ : ∃ P', runActions (postgres 0 (str "w")).step (Pool.start legacy)
      (racingCommit ++ [.step 1 {}]) = some P' ∧ P'.shared.events.committed.length = 2 :=
    exists_run (by decide +kernel)
  obtain ⟨P₀, hrun₀, hlast⟩ := runActions_append.mp hfull
  obtain rfl : P₀ = P := Option.some.inj (hrun₀.symm.trans hrun)
  obtain ⟨P₁, hstep, ⟨⟩⟩ := runActions_cons_eq_some.mp hlast
  have hpub : Publishes P₀.shared P'.shared := .inl (fun heq => by
    rw [heq, hbefore] at hafter
    cases hafter)
  refine ⟨P₀, P', hrun, hstep, hpub, ?_⟩
  rcases System.step_cases hstep with ⟨i, c, h0, -⟩ | ⟨i, ch, c, o, k, s', r, ⟨⟩, hth, hex, rfl⟩ |
    ⟨e, u, h0, -⟩
  · cases h0
  · rw [Pool.put_shared] at hpub
    exact ((append_at_expected quiet_legacy hrun (show (increment 2 1).events ≠ [] by decide)).1
      1 c o k {} s' r hth (hone _ hth) hex).1 hpub
  · cases h0

/-- A claim for the counter, expecting version 1. -/
def claimOnly : AppendParams :=
  { increment 0 1 with
    events := []
    constraints := [⟨.claimOp, str "email", str "a@b.com"⟩] }

/-- What an append returns as the new version. -/
def Reply.toVersion? : Reply → Option UInt64
  | .appended (.ok res) => some res.toVersion
  | _ => none

/-- The claim's append has checked the version, and another append commits version 2. -/
def staleClaim : List (PoolAction Call Choice EnvStep) :=
  .spawn 0 (.append (str "w") claimOnly) :: stepsOf 0 4 ++
    .spawn 1 (.append (str "w") (increment 2 1)) :: stepsOf 1 9 ++ stepsOf 0 2

/-- **A stale claim is committed.** An append without events has found the stream at the expected
version 1; another append commits version 2; then the first one commits its claim and succeeds. -/
theorem stale_claim_committed :
    ∃ P P', runActions (postgres 0 (str "w")).step (Pool.start legacy) staleClaim = some P ∧
      committedVersion P.shared (str "w") counterMain = 2 ∧ claimOnly.expectedVersion = 1 ∧
      P.shared.claims = [] ∧
      runActions (postgres 0 (str "w")).step P (stepsOf 0 2) = some P' ∧
      P'.shared.claims = [⟨str "w", str "email", str "a@b.com", counterMain.canonical⟩] ∧
      P'.finished.map (fun x => (x.1, x.2.2.toVersion?)) = [(1, some 2), (0, some 1)] := by
  obtain ⟨P', hfull, hclaims, hfinished⟩ : ∃ P', runActions (postgres 0 (str "w")).step
      (Pool.start legacy) (staleClaim ++ stepsOf 0 2) = some P' ∧
      P'.shared.claims = [⟨str "w", str "email", str "a@b.com", counterMain.canonical⟩] ∧
      P'.finished.map (fun x => (x.1, x.2.2.toVersion?)) = [(1, some 2), (0, some 1)] :=
    exists_run (by decide +kernel)
  obtain ⟨P, hrun, hlater⟩ := runActions_append.mp hfull
  obtain ⟨P₀, hrun₀, hversion, hnone⟩ : ∃ P, runActions (postgres 0 (str "w")).step
      (Pool.start legacy) staleClaim = some P ∧
      committedVersion P.shared (str "w") counterMain = 2 ∧ P.shared.claims = [] :=
    exists_run (by decide +kernel)
  obtain rfl : P₀ = P := Option.some.inj (hrun₀.symm.trans hrun)
  exact ⟨P₀, P', hrun, hversion, rfl, hnone, hlater, hclaims, hfinished⟩

end EsLite.Postgres
