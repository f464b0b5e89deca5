import EsLite.Es.Honest
import EsLite.Foundation.Consuming
import EsLite.Foundation.Interleaving
import EsLite.Foundation.Sorting

/-!
# The relay

`Store.Drain` claims the rows that are not published yet, in the order of their positions, publishes
them, and marks them published, in one transaction. The rows of append transactions become visible as
these commit, in any order of their positions across streams; within a stream a version is committed
after the one before it, and at a higher position. A Drain that fails or crashes is followed by one that
claims other rows.

`relay_loses_nothing`: what is marked was published, a Drain marks rows only if it returns without an
error, and each stream is passed on in the order of its versions.
-/

namespace EsLite.Delivery

open Prog (perform ofResult)

/-! ## Statements -/

/-- A row of the events table. -/
structure RelayRow where
  env : Envelope
  publishedAt : Option Time

/-- The transaction of a Drain, with the positions that it has marked at a time. -/
structure DrainTx where
  id : Nat
  marks : List UInt64
  markedAt : Time

/-- The committed rows of the events table and the transaction of the Drain that is in progress; and
the batches that were passed to `publish`, and those for which it returned without an error. -/
structure RelayState where
  rows : List RelayRow
  tx : Option DrainTx
  nextTx : Nat
  passed : List (List Envelope)
  accepted : List (List Envelope)

/-- A table without rows. -/
def RelayState.fresh : RelayState := ⟨[], none, 0, [], []⟩

/-- The steps of a Drain. -/
inductive RelayOp : Type where
  | checkRelayRole
  | begin
  /-- `SELECT set_config('app.bypass_rls', 'on', true)` -/
  | setBypass (tx : Nat)
  | claim (tx : Nat) (limit : Nat)
  /-- The call of the handler. -/
  | publish (batch : List Envelope)
  | markPublished (tx : Nat) (positions : List UInt64)
  | commit (tx : Nat)
  | rollback (tx : Nat)

/-- What the steps return without an error. -/
def RelayVal : RelayOp → Type
  | .begin => Nat
  | .claim _ _ => List Envelope
  | _ => Unit

/-- What the steps return. -/
def RelayRes (o : RelayOp) : Type := Except Bytes (RelayVal o)

/-- What is left open in a step: an error, whether the commit stands although its reply is lost, and
the clock. -/
structure RelayAnswer where
  fault : Option Bytes
  lost : Bool
  now : Time

/-- A reply that may be an error. -/
def RelayAnswer.reply {α : Type} (x : RelayAnswer) (a : α) : Except Bytes α :=
  match x.fault with
  | some text => .error text
  | none => .ok a

/-- The open transaction with the given id. -/
def RelayState.open? (s : RelayState) (tx : Nat) : Option DrainTx := s.tx.filter (·.id == tx)

/-- A reply within a transaction. -/
def RelayState.inTx {α : Type} (s : RelayState) (tx : Nat) (x : RelayAnswer) (a : α) : Except Bytes α :=
  match s.open? tx with
  | none => .error (str "tx is closed")
  | some _ => x.reply a

/-- `SELECT … WHERE published_at IS NULL ORDER BY global_position ASC LIMIT $1 FOR UPDATE SKIP LOCKED`;
no other transaction has locked a row. -/
def RelayState.claim (s : RelayState) (limit : Nat) : List Envelope :=
  (((s.rows.filter (fun r => r.publishedAt.isNone)).map (·.env)).mergeSort
    (fun a b => a.globalPosition.toNat ≤ b.globalPosition.toNat)).take limit

variable {x : RelayAnswer} {tx : Nat} {e : Envelope} {batch : List Envelope} {t : DrainTx} {o : RelayOp}

theorem reply_eq_ok {α : Type} {a b : α} (h : x.reply a = .ok b) : b = a ∧ x.fault = none := by
  unfold RelayAnswer.reply at h
  split at h
  · cases h
  · rename_i hnone
    exact ⟨(Except.ok.inj h).symm, hnone⟩

theorem reply_of_none {α : Type} (h : x.fault = none) (a : α) : x.reply a = .ok a := by
  simp only [RelayAnswer.reply, h]

theorem inTx_eq_ok {α : Type} {s : RelayState} {a b : α} (h : s.inTx tx x a = .ok b) : b = a := by
  unfold RelayState.inTx at h
  split at h
  · cases h
  · exact (reply_eq_ok h).1

/-- The rows once a transaction has committed. -/
def DrainTx.apply (t : DrainTx) (rows : List RelayRow) : List RelayRow :=
  rows.map (fun r =>
    if r.env.globalPosition ∈ t.marks then { r with publishedAt := some t.markedAt } else r)

/-- The effect of a step. A Drain begins when no other one's transaction is open: the calls of the one
relay do not overlap, and the transaction of one that has crashed is ended. -/
def execRelay : (o : RelayOp) → RelayAnswer → RelayState → Option (RelayState × RelayRes o)
  | .checkRelayRole, x, s => some (s, x.reply ())
  | .begin, x, s =>
    if s.tx.isSome then none
    else if x.fault.isSome then some (s, x.reply s.nextTx)
    else some ({ s with tx := some ⟨s.nextTx, [], x.now⟩, nextTx := s.nextTx + 1 }, x.reply s.nextTx)
  | .setBypass tx, x, s => some (s, s.inTx tx x ())
  | .claim tx limit, x, s => some (s, s.inTx tx x (s.claim limit))
  | .publish batch, x, s =>
    some ({ s with
      passed := s.passed ++ [batch]
      accepted := if x.fault.isSome then s.accepted else s.accepted ++ [batch] }, x.reply ())
  | .markPublished tx positions, x, s =>
    match s.open? tx, x.fault with
    | some t, none =>
      let marks := (s.rows.map (·.env.globalPosition)).filter (· ∈ positions)
      some ({ s with tx := some { t with marks := marks, markedAt := x.now } }, .ok ())
    | _, _ => some (s, s.inTx tx x ())
  | .commit tx, x, s =>
    match s.open? tx with
    | none => some (s, s.inTx tx x ())
    | some t =>
      if x.fault.isNone || x.lost then some ({ s with rows := t.apply s.rows, tx := none }, x.reply ())
      else some ({ s with tx := none }, x.reply ())
  | .rollback tx, x, s =>
    match s.open? tx with
    | none => some (s, s.inTx tx x ())
    | some _ => some ({ s with tx := none }, x.reply ())

/-! ## Programs -/

/-- How a Drain fails: in which step, and on what. -/
inductive RelayError : Type where
  | relayRole (err : Bytes)
  | begin (err : Bytes)
  | setBypass (err : Bytes)
  | claim (err : Bytes)
  | publish (err : Bytes)
  | markPublished (err : Bytes)
  | commit (err : Bytes)

/-- A program of steps that may end in an error. -/
abbrev DrainAct (α : Type) := ExceptT RelayError (Prog RelayOp RelayRes) α

/-- A step, with its error wrapped. -/
def ask (wrap : Bytes → RelayError) (o : RelayOp) : DrainAct (RelayVal o) := do
  let r : Except Bytes (RelayVal o) ← perform o
  ofResult (r.mapError wrap)

/-- The deferred `Rollback`, which has nothing to do after a `Commit`. -/
def deferRollback {α : Type} (tx : Nat) (p : DrainAct α) : DrainAct α := ExceptT.mk do
  match ← p.run with
  | .ok a => pure (.ok a)
  | .error err => do
    let _ ← Prog.op (.rollback tx)
    pure (.error err)

/-- What a Drain does in its transaction. -/
def drainTx (tx : Nat) (limit : Nat) : DrainAct Nat := do
  ask .setBypass (.setBypass tx)
  let batch ← ask .claim (.claim tx limit)
  if batch.isEmpty then
    let _ ← perform (RelayOp.rollback tx)
    pure 0
  else
    ask .publish (.publish batch)
    ask .markPublished (.markPublished tx (batch.map (·.globalPosition)))
    ask .commit (.commit tx)
    pure batch.length

/-- `Store.Drain`: the number of rows that were claimed, published and marked. -/
def drain (limit : Int) : DrainAct Nat := do
  ask .relayRole .checkRelayRole
  let tx ← ask .begin .begin
  deferRollback tx (drainTx tx (if limit ≤ 0 then 100 else limit.toNat))

/-! ## Appends around it -/

/-- The event before an event in its stream. -/
def Precedes (e' e : Envelope) : Prop :=
  e'.workspace = e.workspace ∧ e'.streamID = e.streamID ∧ e'.versionNat + 1 = e.versionNat

instance (e' e : Envelope) : Decidable (Precedes e' e) := inferInstanceAs (Decidable (_ ∧ _ ∧ _))

/-- What an append transaction can commit: rows at positions of their own, each after the version
before it, which is visible or committed with it, and lies below. -/
def Committable (s : RelayState) (envs : List Envelope) : Prop :=
  (s.rows.map (·.env.globalPosition) ++ envs.map (·.globalPosition)).Nodup ∧
    ∀ e ∈ envs, 1 < e.versionNat → ∃ e' ∈ s.rows.map (·.env) ++ envs,
      Precedes e' e ∧ e'.globalPosition.toNat < e.globalPosition.toNat

instance (s : RelayState) (envs : List Envelope) : Decidable (Committable s envs) :=
  inferInstanceAs (Decidable (_ ∧ _))

/-- What goes on around the relay: append transactions commit, and the transaction of a Drain that has
crashed is ended. -/
inductive RelayEnv : Type where
  | append (envs : List Envelope)
  | endTx

/-- A call of `Drain` with a limit. -/
inductive RelayCall : Type where
  | drain (limit : Int)

/-- The relay, and appends around it. -/
def relaying : System RelayState RelayCall RelayOp RelayRes (Except RelayError Nat) RelayAnswer
    RelayEnv where
  prog
    | .drain limit => (drain limit).run
  exec := execRelay
  env
    | .append envs, s =>
      if Committable s envs then some { s with rows := s.rows ++ envs.map (⟨·, none⟩) } else none
    | .endTx, s => some { s with tx := none }

/-! ## What is kept -/

/-- The event was in a batch for which `publish` returned without an error. -/
def Accepted (s : RelayState) (e : Envelope) : Prop := ∃ batch ∈ s.accepted, e ∈ batch

/-- Each stream was passed on in the order of its versions: at every event, the one before it in its
stream has been passed on. -/
def InStreamOrder (l : List Envelope) : Prop := Causal (fun e => 1 < e.versionNat) Precedes l

/-- What holds of every state. -/
structure RelayInv (s : RelayState) : Prop where
  positions : (s.rows.map (·.env.globalPosition)).Nodup
  previous : ∀ r ∈ s.rows, 1 < r.env.versionNat → ∃ r' ∈ s.rows, Precedes r'.env r.env ∧
    r'.env.globalPosition.toNat < r.env.globalPosition.toNat
  published : ∀ r ∈ s.rows, r.publishedAt.isSome → Accepted s r.env
  marks : ∀ t, s.tx = some t → t.marks ⊆ s.rows.map (·.env.globalPosition) ∧
    ∀ r ∈ s.rows, r.env.globalPosition ∈ t.marks → Accepted s r.env
  accepted : s.accepted ⊆ s.passed
  order : InStreamOrder s.passed.flatten

/-- Rows and batches stay. -/
structure RelayLe (s t : RelayState) : Prop where
  rows : s.rows.map (·.env) ⊆ t.rows.map (·.env)
  passed : s.passed ⊆ t.passed
  accepted : s.accepted ⊆ t.accepted

theorem RelayLe.of_eq {s t : RelayState} (hrows : t.rows.map (·.env) = s.rows.map (·.env))
    (hpassed : t.passed = s.passed) (haccepted : t.accepted = s.accepted) : RelayLe s t :=
  ⟨hrows ▸ List.Subset.refl _, hpassed ▸ List.Subset.refl _, haccepted ▸ List.Subset.refl _⟩

theorem RelayLe.refl (s : RelayState) : RelayLe s s := .of_eq rfl rfl rfl

theorem RelayLe.trans {s t u : RelayState} (h : RelayLe s t) (h' : RelayLe t u) : RelayLe s u :=
  ⟨List.Subset.trans h.rows h'.rows, List.Subset.trans h.passed h'.passed,
    List.Subset.trans h.accepted h'.accepted⟩

theorem Accepted.mono {s t : RelayState} (h : Accepted s e) (hle : s.accepted ⊆ t.accepted) :
    Accepted t e := by
  obtain ⟨batch, hbatch, he⟩ := h
  exact ⟨batch, hle hbatch, he⟩

/-- What is known of a batch that was claimed: its events are in the table, and before each event comes
the one before it in its stream, or it has been passed on. -/
structure ClaimedBatch (s : RelayState) (batch : List Envelope) : Prop where
  rows : ∀ e ∈ batch, e ∈ s.rows.map (·.env)
  order : ∀ xs e ys, batch = xs ++ e :: ys → 1 < e.versionNat →
    ∃ e' ∈ s.passed.flatten ++ xs, Precedes e' e

theorem ClaimedBatch.mono {s t : RelayState} (h : ClaimedBatch s batch) (hle : RelayLe s t) :
    ClaimedBatch t batch where
  rows e he := hle.rows (h.rows e he)
  order xs e ys hsplit hv := by
    obtain ⟨e', he', hprev⟩ := h.order xs e ys hsplit hv
    refine ⟨e', ?_, hprev⟩
    rcases List.mem_append.mp he' with hpassed | hbefore
    · obtain ⟨b, hb, hmem⟩ := List.mem_flatten.mp hpassed
      exact List.mem_append_left _ (List.mem_flatten.mpr ⟨b, hle.passed hb, hmem⟩)
    · exact List.mem_append_right _ hbefore

section Keeps

variable {s : RelayState}

/-- A position belongs to one row. -/
theorem RelayInv.env_eq (hi : RelayInv s) {r : RelayRow} (hr : r ∈ s.rows) (he : e ∈ s.rows.map (·.env))
    (h : r.env.globalPosition = e.globalPosition) : r.env = e := by
  obtain ⟨r', hr', rfl⟩ := List.mem_map.mp he
  rw [List.inj_on_of_nodup_map hi.positions hr hr' h]

/-- What is not published, in the order of the positions. -/
def RelayState.unpublished (s : RelayState) : List Envelope :=
  ((s.rows.filter (fun r => r.publishedAt.isNone)).map (·.env)).mergeSort
    (fun a b => a.globalPosition.toNat ≤ b.globalPosition.toNat)

theorem claim_eq (s : RelayState) (limit : Nat) : s.claim limit = s.unpublished.take limit := rfl

theorem mem_unpublished : e ∈ s.unpublished ↔ ∃ r ∈ s.rows, r.publishedAt = none ∧ r.env = e := by
  rw [RelayState.unpublished, List.mem_mergeSort, List.mem_map]
  simp only [List.mem_filter, Option.isNone_iff_eq_none, and_assoc]

theorem RelayInv.pairwise_unpublished (hi : RelayInv s) :
    s.unpublished.Pairwise (fun a b => a.globalPosition.toNat < b.globalPosition.toNat) := by
  refine pairwise_lt_mergeSort ?_
  have hnodup : ((s.rows.filter (fun r => r.publishedAt.isNone)).map
      (·.env.globalPosition)).Nodup := hi.positions.sublist (List.filter_sublist.map _)
  have hnat := hnodup.map (f := UInt64.toNat) (fun _ _ h => UInt64.toNat_inj.mp h)
  rw [List.map_map] at hnat ⊢
  exact hnat

/-- **A claim** takes the rows that are not published in the order of their positions, so that what
comes before an event in its stream is in the batch or published. -/
theorem RelayInv.claimedBatch (hi : RelayInv s) (limit : Nat) : ClaimedBatch s (s.claim limit) := by
  have hclaimed : ∀ e ∈ s.claim limit, ∃ r ∈ s.rows, r.publishedAt = none ∧ r.env = e :=
    fun e he => mem_unpublished.mp (List.mem_of_mem_take he)
  constructor
  · intro e he
    obtain ⟨r, hr, -, rfl⟩ := hclaimed e he
    exact List.mem_map_of_mem hr
  · intro xs e ys hsplit hv
    have he : e ∈ s.claim limit := by rw [hsplit]; exact List.mem_append_right _ List.mem_cons_self
    obtain ⟨r, hr, -, rfl⟩ := hclaimed e he
    obtain ⟨r', hr', hprev, hlt⟩ := hi.previous r hr hv
    refine ⟨r'.env, ?_, hprev⟩
    cases hpub : r'.publishedAt with
    | some time =>
      -- published: it was in an accepted batch
      obtain ⟨b, hb, he'⟩ := hi.published r' hr' (by rw [hpub]; rfl)
      exact List.mem_append_left _ (List.mem_flatten.mpr ⟨b, hi.accepted hb, he'⟩)
    | none =>
      -- not published: its position is lower, so that no limit leaves it out
      rw [claim_eq] at hsplit
      exact List.mem_append_right _ (mem_of_lt_of_take hi.pairwise_unpublished hsplit
        (mem_unpublished.mpr ⟨r', hr', hpub, rfl⟩) hlt)

/-- A new transaction has marked nothing, and an ended one marks nothing. -/
theorem RelayInv.withTx (hi : RelayInv s) {tx : Option DrainTx} (htx : ∀ t, tx = some t → t.marks = [])
    (n : Nat) : RelayInv { s with tx := tx, nextTx := n } where
  positions := hi.positions
  previous := hi.previous
  published := hi.published
  marks t ht := by
    rw [htx t ht]
    exact ⟨List.nil_subset _, fun _ _ h => nomatch h⟩
  accepted := hi.accepted
  order := hi.order

theorem RelayInv.ended (hi : RelayInv s) : RelayInv { s with tx := none } :=
  hi.withTx (fun t ht => absurd ht (by simp)) s.nextTx

/-- **Publishing a claimed batch** keeps the order of every stream. -/
theorem RelayInv.publish (hi : RelayInv s) (h : ClaimedBatch s batch) {accepted : List (List Envelope)}
    (hold : s.accepted ⊆ accepted) (hnew : accepted ⊆ s.accepted ++ [batch]) :
    RelayInv { s with passed := s.passed ++ [batch], accepted := accepted } where
  positions := hi.positions
  previous := hi.previous
  published r hr hpub := (hi.published r hr hpub).mono hold
  marks t ht := ⟨(hi.marks t ht).1, fun r hr hmark => ((hi.marks t ht).2 r hr hmark).mono hold⟩
  accepted := List.Subset.trans hnew (List.append_subset.mpr
    ⟨List.subset_append_of_subset_left _ hi.accepted, List.subset_append_right _ _⟩)
  order := by
    rw [InStreamOrder, List.flatten_append, List.flatten_singleton]
    exact hi.order.append h.order

/-- **Marking the positions of an accepted batch** marks its events, and no others. -/
theorem RelayInv.markPublished (hi : RelayInv s) (h : ClaimedBatch s batch)
    (haccepted : batch ∈ s.accepted) (hmarks : t.marks = (s.rows.map (·.env.globalPosition)).filter
      (· ∈ batch.map (·.globalPosition))) : RelayInv { s with tx := some t } where
  positions := hi.positions
  previous := hi.previous
  published := hi.published
  marks t' ht' := by
    cases ht'
    rw [hmarks]
    refine ⟨List.filter_subset_self _, fun r hr hmark => ⟨batch, haccepted, ?_⟩⟩
    obtain ⟨e, he, hpos⟩ := List.mem_map.mp (of_decide_eq_true (List.mem_filter.mp hmark).2)
    rw [hi.env_eq hr (h.rows e he) hpos.symm]
    exact he
  accepted := hi.accepted
  order := hi.order

theorem DrainTx.map_env_apply (t : DrainTx) (rows : List RelayRow) :
    (t.apply rows).map (·.env) = rows.map (·.env) := by
  rw [DrainTx.apply, List.map_map]
  refine List.map_congr_left (fun r _ => ?_)
  dsimp only [Function.comp_apply]
  split <;> rfl

/-- The rows after a commit: each is one from before, at most with a mark. -/
theorem DrainTx.mem_apply {rows : List RelayRow} {r' : RelayRow} (h : r' ∈ t.apply rows) :
    ∃ r ∈ rows, r'.env = r.env ∧ (r'.publishedAt = r.publishedAt ∨ r.env.globalPosition ∈ t.marks) := by
  obtain ⟨r, hr, rfl⟩ := List.mem_map.mp h
  refine ⟨r, hr, ?_⟩
  split
  · rename_i hmark
    exact ⟨rfl, .inr hmark⟩
  · exact ⟨rfl, .inl rfl⟩

/-- **A commit** shows marks on accepted events only. -/
theorem RelayInv.commit (hi : RelayInv s) (ht : s.tx = some t) :
    RelayInv { s with rows := t.apply s.rows, tx := none } := by
  have henvs : (t.apply s.rows).map (·.env) = s.rows.map (·.env) := t.map_env_apply s.rows
  refine ⟨?_, fun r' hr' hv => ?_, fun r' hr' hpub => ?_, nofun, hi.accepted, hi.order⟩
  · have hpositions := congrArg (List.map Envelope.globalPosition) henvs
    rw [List.map_map, List.map_map] at hpositions
    exact (congrArg List.Nodup hpositions).mpr hi.positions
  · obtain ⟨r, hr, heq, -⟩ := DrainTx.mem_apply hr'
    rw [heq] at hv ⊢
    obtain ⟨p, hp, hprev⟩ := hi.previous r hr hv
    have hmem : p.env ∈ (t.apply s.rows).map (·.env) := henvs ▸ List.mem_map_of_mem hp
    obtain ⟨p', hp', hpeq⟩ := List.mem_map.mp hmem
    exact ⟨p', hp', by rw [hpeq]; exact hprev⟩
  · obtain ⟨r, hr, heq, hsame | hmark⟩ := DrainTx.mem_apply hr'
    · rw [heq]
      exact hi.published r hr (hsame ▸ hpub)
    · rw [heq]
      exact (hi.marks t ht).2 r hr hmark

/-- **An append** adds rows that follow what is there. -/
theorem RelayInv.append (hi : RelayInv s) {envs : List Envelope} (h : Committable s envs) :
    RelayInv { s with rows := s.rows ++ envs.map (⟨·, none⟩) } := by
  obtain ⟨hnodup, hprevious⟩ := h
  have hrow : ∀ e ∈ s.rows.map (·.env) ++ envs,
      ∃ r ∈ s.rows ++ envs.map (⟨·, none⟩), r.env = e := by
    intro e he
    rcases List.mem_append.mp he with hold | hnew
    · obtain ⟨r, hr, rfl⟩ := List.mem_map.mp hold
      exact ⟨r, List.mem_append_left _ hr, rfl⟩
    · exact ⟨⟨e, none⟩, List.mem_append_right _ (List.mem_map_of_mem hnew), rfl⟩
  refine ⟨?_, fun r hr hv => ?_, fun r hr hpub => ?_, fun t ht => ⟨?_, fun r hr hmark => ?_⟩,
    hi.accepted, hi.order⟩
  · rw [List.map_append, List.map_map]
    exact hnodup
  · rcases List.mem_append.mp hr with hold | hnew
    · obtain ⟨r', hr', hprev⟩ := hi.previous r hold hv
      exact ⟨r', List.mem_append_left _ hr', hprev⟩
    · obtain ⟨e, he, rfl⟩ := List.mem_map.mp hnew
      obtain ⟨e', he', hprev⟩ := hprevious e he hv
      obtain ⟨r', hr', rfl⟩ := hrow e' he'
      exact ⟨r', hr', hprev⟩
  · rcases List.mem_append.mp hr with hold | hnew
    · exact hi.published r hold hpub
    · obtain ⟨e, -, rfl⟩ := List.mem_map.mp hnew
      cases hpub
  · rw [List.map_append]
    exact List.subset_append_of_subset_left _ (hi.marks t ht).1
  · rcases List.mem_append.mp hr with hold | hnew
    · exact (hi.marks t ht).2 r hold hmark
    · -- the positions that are marked are taken
      obtain ⟨e, he, rfl⟩ := List.mem_map.mp hnew
      have htaken := (hi.marks t ht).1 hmark
      exact absurd rfl ((List.nodup_append.mp hnodup).2.2 _ htaken _ (List.mem_map_of_mem he))

/-- What a step needs to be known before it. -/
def RelayOp.Needs : RelayOp → RelayState → Prop
  | .publish batch, s => ClaimedBatch s batch
  | .markPublished _ positions, s =>
    ∃ batch ∈ s.accepted, ClaimedBatch s batch ∧ positions = batch.map (·.globalPosition)
  | _, _ => True

theorem eq_of_open? (h : s.open? tx = some t) : s.tx = some t :=
  (Option.filter_eq_some_iff.mp h).1

/-- **Every step keeps the invariant**, with what it needs. -/
theorem execRelay_keeps {s' : RelayState} {r : RelayRes o} (hi : RelayInv s) (hneeds : o.Needs s)
    (h : execRelay o x s = some (s', r)) : RelayInv s' ∧ RelayLe s s' := by
  cases o with
  | checkRelayRole =>
    cases h
    exact ⟨hi, .refl s⟩
  | begin =>
    simp only [execRelay] at h
    split at h
    · cases h
    split at h
    · cases h
      exact ⟨hi, .refl s⟩
    · cases h
      exact ⟨hi.withTx (fun t ht => (Option.some.inj ht) ▸ rfl) _, .of_eq rfl rfl rfl⟩
  | setBypass tx =>
    cases h
    exact ⟨hi, .refl s⟩
  | claim tx limit =>
    cases h
    exact ⟨hi, .refl s⟩
  | publish batch =>
    simp only [execRelay] at h
    cases h
    refine ⟨hi.publish hneeds ?_ ?_, List.Subset.refl _, List.subset_append_left _ _, ?_⟩
    all_goals split
    · exact List.Subset.refl _
    · exact List.subset_append_left _ _
    · exact List.subset_append_left _ _
    · exact List.Subset.refl _
    · exact List.Subset.refl _
    · exact List.subset_append_left _ _
  | markPublished tx positions =>
    obtain ⟨batch, haccepted, hbatch, rfl⟩ := hneeds
    simp only [execRelay] at h
    split at h
    · cases h
      exact ⟨hi.markPublished hbatch haccepted rfl, .of_eq rfl rfl rfl⟩
    · cases h
      exact ⟨hi, .refl s⟩
  | commit tx =>
    simp only [execRelay] at h
    split at h
    · cases h
      exact ⟨hi, .refl s⟩
    rename_i t ht
    split at h
    · cases h
      exact ⟨hi.commit (eq_of_open? ht), .of_eq (t.map_env_apply s.rows) rfl rfl⟩
    · cases h
      exact ⟨hi.ended, .of_eq rfl rfl rfl⟩
  | rollback tx =>
    simp only [execRelay] at h
    split at h
    · cases h
      exact ⟨hi, .refl s⟩
    · cases h
      exact ⟨hi.ended, .of_eq rfl rfl rfl⟩

/-- A batch is accepted when `publish` returns without an error. -/
theorem accepted_of_publish {s' : RelayState} (h : execRelay (.publish batch) x s = some (s', .ok ())) :
    batch ∈ s'.accepted := by
  obtain ⟨rfl, hreply⟩ := Prod.mk.inj (Option.some.inj h)
  show batch ∈ if x.fault.isSome then s.accepted else s.accepted ++ [batch]
  rw [(reply_eq_ok hreply).2]
  exact List.mem_append_right _ (List.mem_singleton_self _)

/-- The event is marked as published. -/
def Marked (s : RelayState) (e : Envelope) : Prop := ∃ r ∈ s.rows, r.env = e ∧ r.publishedAt.isSome

/-- **Only a commit marks.** -/
theorem rows_of_exec {s' : RelayState} {r : RelayRes o} (ho : ∀ tx, o ≠ .commit tx)
    (h : execRelay o x s = some (s', r)) : s'.rows = s.rows := by
  cases o with
  | commit tx => exact absurd rfl (ho tx)
  | begin =>
    simp only [execRelay] at h
    split at h
    · cases h
    split at h <;> cases h <;> rfl
  | markPublished tx positions =>
    simp only [execRelay] at h
    split at h <;> cases h <;> rfl
  | rollback tx =>
    simp only [execRelay] at h
    split at h <;> cases h <;> rfl
  | checkRelayRole | setBypass tx | claim tx limit | publish batch =>
    cases h
    rfl

/-- A commit that marks returns without an error, unless its reply is lost. -/
theorem marked_of_commit {s' : RelayState} {r : RelayRes (.commit tx)}
    (h : execRelay (.commit tx) x s = some (s', r)) (hnew : Marked s' e) (hold : ¬ Marked s e) :
    r = .ok () ∨ x.fault ≠ none ∧ x.lost = true := by
  simp only [execRelay] at h
  split at h
  · cases h
    exact absurd hnew hold
  split at h
  · rename_i hstands
    cases h
    cases hfault : x.fault with
    | none =>
      exact .inl (reply_of_none hfault ())
    | some text =>
      rw [hfault, Option.isNone_some, Bool.false_or] at hstands
      exact .inr ⟨nofun, hstands⟩
  · cases h
    exact absurd hnew hold

end Keeps

/-! ## Drains -/

/-- What is known along a run: rows and batches stay. -/
def relayLogic : Logic RelayState RelayOp where
  inv := RelayInv
  le := RelayLe
  allowed _ _ := True
  refl := .refl
  trans _ _ _ := .trans

section Drain

open Logic

variable {s : RelayState}

/-- A step of a Drain. -/
theorem wp_ask {wrap : Bytes → RelayError} {R : RelayVal o → RelayState → Prop}
    (hneeds : ∀ t, RelayLe s t → RelayInv t → o.Needs t)
    (h : ∀ t, RelayLe s t → RelayInv t → ∀ x t' a, execRelay o x t = some (t', .ok a) →
      relayLogic.Always (R a) t') : relayLogic.WP relaying (OnOk R) (ask wrap o).run s := by
  refine WP.andThen (R := fun r t => ∀ a, r = .ok a → R a t)
    (WP.perform fun t hle hi _ x t' r hex => ?_)
    (fun r t _ _ hr => WP.ofResult fun a ha u hu hi => hr u hu hi a (mapError_eq_ok ha))
  obtain ⟨hinv, hgrows⟩ := execRelay_keeps hi (hneeds t hle hi) hex
  refine ⟨hinv, hgrows, fun u hu hiu a hr => ?_⟩
  subst hr
  exact h t hle hi x t' a hex u hu hiu

/-- A step after which nothing new is known. -/
theorem wp_ask_quiet {wrap : Bytes → RelayError} (hneeds : ∀ t, RelayLe s t → RelayInv t → o.Needs t) :
    relayLogic.WP relaying (OnOk fun _ _ => True) (ask wrap o).run s :=
  wp_ask hneeds (fun _ _ _ _ _ _ _ _ _ _ => trivial)

theorem wp_rollback (tx : Nat) :
    relayLogic.WP relaying (fun _ _ => True) (Prog.op (RelayOp.rollback tx)) s :=
  WP.call fun _ _ hi _ _ _ _ hex =>
    have hkept := execRelay_keeps (o := .rollback tx) hi trivial hex
    ⟨hkept.1, hkept.2, fun _ _ _ => trivial⟩

/-- A deferred rollback does not touch what a Drain returns. -/
theorem wp_deferRollback {p : DrainAct Nat} {Q : Nat → RelayState → Prop}
    (hp : relayLogic.WP relaying (OnOk Q) p.run s) :
    relayLogic.WP relaying (OnOk Q) (deferRollback tx p).run s := by
  refine WP.bind_always hp fun r t _ _ hr => ?_
  cases r with
  | ok a => exact WP.ret hr
  | error err => exact WP.bind (wp_rollback tx) fun _ u _ _ _ => WP.ret fun _ _ _ => trivial

/-- A claim that is not full takes everything that is not published. -/
theorem mem_claim_or_accepted (hi : RelayInv s) {limit : Nat} (hshort : (s.claim limit).length < limit)
    {e : Envelope} (he : e ∈ s.rows.map (·.env)) : e ∈ s.claim limit ∨ Accepted s e := by
  obtain ⟨r, hr, rfl⟩ := List.mem_map.mp he
  cases hpub : r.publishedAt with
  | some time => exact .inr (hi.published r hr (by rw [hpub]; rfl))
  | none =>
    refine .inl ?_
    rw [claim_eq, List.length_take] at hshort
    rw [claim_eq, List.take_of_length_le (by omega)]
    exact mem_unpublished.mpr ⟨r, hr, hpub, rfl⟩

/-- **The claim of a Drain**, and what it leaves out. -/
theorem wp_claim (tx limit : Nat) :
    relayLogic.WP relaying (OnOk fun batch t => ClaimedBatch t batch ∧ (batch.length < limit →
        ∀ e ∈ s.rows.map (·.env), e ∈ batch ∨ Accepted t e))
      (ask .claim (.claim tx limit)).run s := by
  refine wp_ask (fun _ _ _ => trivial) fun t hle hi x t' batch hex u hu _ => ?_
  obtain ⟨rfl, hreply⟩ := Prod.mk.inj (Option.some.inj hex)
  rw [inTx_eq_ok hreply]
  refine ⟨(hi.claimedBatch limit).mono hu, fun hshort e he => ?_⟩
  exact (mem_claim_or_accepted hi hshort (hle.rows he)).imp_right fun h => h.mono hu.accepted

/-- **A Drain that was not full** has published everything that was there when it began. -/
theorem wp_drainTx (tx limit : Nat) :
    relayLogic.WP relaying (OnOk fun n t => n < limit → ∀ e ∈ s.rows.map (·.env), Accepted t e)
      (drainTx tx limit).run s := by
  unfold drainTx
  refine WP.andThen (wp_ask_quiet fun _ _ _ => trivial) fun _ t ht _ _ => ?_
  refine WP.andThen (wp_claim tx limit) fun batch u hu hi hbatch => ?_
  -- what was there at the start was there at the claim
  have hold : ∀ e ∈ s.rows.map (·.env), e ∈ t.rows.map (·.env) := fun e he => ht.rows he
  split
  · rename_i hempty
    obtain rfl := List.isEmpty_iff.mp hempty
    refine WP.andThen (R := fun _ _ => True) (WP.perform fun v _ hi _ _ _ _ hex => ?_)
      fun _ v hv _ _ => WP.ret fun w hw hiw hshort e he => ?_
    · have hkept := execRelay_keeps (o := .rollback tx) hi trivial hex
      exact ⟨hkept.1, hkept.2, fun _ _ _ => trivial⟩
    · exact ((hbatch w (hv.trans hw) hiw).2 hshort e (hold e he)).resolve_left List.not_mem_nil
  · have hpublish : relayLogic.WP relaying (OnOk fun _ v => batch ∈ v.accepted)
        (ask .publish (.publish batch)).run u := by
      refine wp_ask (fun v hv hi => (hbatch v hv hi).1) fun v _ hi x v' _ hex w hw _ => hw.accepted ?_
      exact accepted_of_publish hex
    refine WP.andThen hpublish fun _ v hv hi haccepted => ?_
    refine WP.andThen (wp_ask_quiet fun w hw hi => ?_) fun _ w hw _ _ => ?_
    · exact ⟨batch, haccepted w hw hi, (hbatch w (hv.trans hw) hi).1, rfl⟩
    · refine WP.andThen (wp_ask_quiet fun _ _ _ => trivial) fun _ y hy _ _ => ?_
      refine WP.ret fun z hz hiz hshort e he => ?_
      have hvz : RelayLe v z := hw.trans (hy.trans hz)
      rcases (hbatch z (hv.trans hvz) hiz).2 hshort e (hold e he) with hclaimed | hdone
      · exact ⟨batch, haccepted z hvz hiz, hclaimed⟩
      · exact hdone

/-- **A Drain keeps the invariant**, whatever commits around it. -/
theorem wp_relayDrain (limit : Int) :
    relayLogic.WP relaying (OnOk fun _ _ => True) (drain limit).run s := by
  unfold drain
  refine WP.andThen (wp_ask_quiet fun _ _ _ => trivial) fun _ t _ _ _ => ?_
  refine WP.andThen (wp_ask_quiet fun _ _ _ => trivial) fun tx u _ _ _ => ?_
  refine wp_deferRollback ((wp_drainTx tx _).weaken fun r v _ _ _ => ?_)
  cases r <;> exact trivial

/-- What follows a step of a Drain: on the reply to its commit it returns. -/
def ReturnsOnCommit : (o : RelayOp) → (RelayRes o → Prog RelayOp RelayRes (Except RelayError Nat)) → Prop
  | .commit _, k => ∃ n, k (.ok ()) = .ret (.ok n)
  | _, _ => True

/-- **A Drain returns with its commit.** -/
theorem each_drain (limit : Int) : (drain limit).run.Each ReturnsOnCommit := by
  have hrollback : ∀ tx err, (Prog.op (RelayOp.rollback tx) >>= fun _ => .ret (.error err) :
      Prog RelayOp RelayRes (Except RelayError Nat)).Each ReturnsOnCommit :=
    fun _ _ => ⟨trivial, fun _ => trivial⟩
  refine ⟨trivial, fun r => ?_⟩
  cases r with
  | error err => trivial
  | ok _ =>
    refine ⟨trivial, fun r => ?_⟩
    cases r with
    | error err => trivial
    | ok tx =>
      refine ⟨trivial, fun r => ?_⟩
      cases r with
      | error err => exact hrollback tx _
      | ok _ =>
        refine ⟨trivial, fun r => ?_⟩
        cases r with
        | error err => exact hrollback tx _
        | ok batch =>
          cases (batch : List Envelope) with
          | nil => exact ⟨trivial, fun _ => trivial⟩
          | cons e es =>
            refine ⟨trivial, fun r => ?_⟩
            cases r with
            | error err => exact hrollback tx _
            | ok _ =>
              refine ⟨trivial, fun r => ?_⟩
              cases r with
              | error err => exact hrollback tx _
              | ok _ =>
                refine ⟨⟨(e :: es).length, rfl⟩, fun r => ?_⟩
                cases r with
                | error err => exact hrollback tx _
                | ok _ => trivial

/-- The steps of the environment. -/
theorem env_keeps {e : RelayEnv} {t : RelayState} (hi : RelayInv s) (h : relaying.env e s = some t) :
    RelayInv t ∧ RelayLe s t := by
  cases e with
  | append envs =>
    simp only [relaying] at h
    split at h
    · rename_i hcommittable
      cases h
      refine ⟨hi.append hcommittable, ?_, List.Subset.refl _, List.Subset.refl _⟩
      rw [List.map_append]
      exact List.subset_append_left _ _
    · cases h
  | endTx =>
    cases h
    exact ⟨hi.ended, .of_eq rfl rfl rfl⟩

/-- The rows that the environment adds are not marked. -/
theorem marked_of_env {e : RelayEnv} {t : RelayState} (h : relaying.env e s = some t) {v : Envelope}
    (hnew : Marked t v) : Marked s v := by
  cases e with
  | append envs =>
    simp only [relaying] at h
    split at h
    · cases h
      obtain ⟨r, hr, hv, hpub⟩ := hnew
      rcases List.mem_append.mp hr with hold | hadded
      · exact ⟨r, hold, hv, hpub⟩
      · obtain ⟨e, -, rfl⟩ := List.mem_map.mp hadded
        cases hpub
    · cases h
  | endTx =>
    cases h
    exact hnew

/-- **The relay loses nothing and keeps stream order.** Take any run of Drains with any limits, one
after the other, whose steps fail in any way or stop anywhere, while append transactions commit. In
every state that is reached:

* what is marked as published was in a batch for which `publish` returned without an error;
* a step that marks an event is the one with which a Drain returns without an error, or commits and
  loses the reply, so that a Drain that fails or stops before its commit marks nothing;
* when an event was passed to `publish`, the version before it in its stream had been passed before, or
  earlier in the same batch. -/
theorem relay_loses_nothing {acts : List (PoolAction RelayCall RelayAnswer RelayEnv)}
    {P : Pool RelayState RelayCall RelayOp RelayRes (Except RelayError Nat)}
    (hrun : runActions relaying.step (Pool.start .fresh) acts = some P) :
    (∀ e, Marked P.shared e → Accepted P.shared e) ∧
    (∀ a P', relaying.step P a = some P' → ∀ e, Marked P'.shared e → ¬ Marked P.shared e →
      ∃ i x, a = .step i x ∧
        ((∃ c n, (i, c, .ok n) ∈ P'.finished) ∨ x.fault ≠ none ∧ x.lost = true)) ∧
    InStreamOrder P.shared.passed.flatten := by
  have hprog : ∀ c s, relayLogic.inv s → True →
      relayLogic.WP relaying (fun _ _ => True) (relaying.prog c) s := by
    rintro ⟨limit⟩ s _ _
    exact (wp_relayDrain limit).weaken fun _ _ _ _ _ => trivial
  have hfresh : RelayInv .fresh := ⟨List.nodup_nil, nofun, nofun, nofun, nofun, causal_nil⟩
  have hguarded := (guardedRun_of_run hrun).mono fun P a _ =>
    System.allows_of_forall (fun _ _ => trivial) (fun _ _ => trivial) P a
  have hinv : RelayInv P.shared :=
    (run_sound (fun _ _ _ hi h => env_keeps hi h) hprog hguarded (Sound.start hfresh)).1.inv
  refine ⟨?_, fun a P' hstep e hnew hold => ?_, hinv.order⟩
  · rintro e ⟨r, hr, rfl, hpub⟩
    exact hinv.published r hr hpub
  · rcases System.step_cases hstep with ⟨i, c, -, -, rfl⟩ |
      ⟨i, x, c, o, k, t, r, rfl, hthread, hexec, rfl⟩ | ⟨v, t, rfl, henv, rfl⟩
    · rw [Pool.put_shared] at hnew
      exact absurd hnew hold
    · refine ⟨i, x, rfl, ?_⟩
      rw [Pool.put_shared] at hnew
      by_cases ho : ∃ tx, o = .commit tx
      · obtain ⟨tx, rfl⟩ := ho
        refine (marked_of_commit hexec hnew hold).imp_left fun hr => ?_
        subst hr
        -- the program goes on by returning
        obtain ⟨n, hn⟩ := (System.each_of_run (Q := fun _ => ReturnsOnCommit)
          (fun ⟨limit⟩ => each_drain limit) hrun i c _ hthread).1
        rw [hn]
        exact ⟨c, n, List.mem_append_right _ (List.mem_singleton_self _)⟩
      · rw [not_exists] at ho
        obtain ⟨r', hr', he⟩ := hnew
        exact absurd ⟨r', rows_of_exec ho hexec ▸ hr', he⟩ hold
    · exact absurd (marked_of_env henv hnew) hold

end Drain

/-- A step without an error. -/
def plainly : RelayAnswer := ⟨none, false, ⟨0⟩⟩

/-- A Drain whose `publish` fails; then one that passes the same event on again; then the second event
of the stream is committed, and passed on too. -/
def relayAgain : List (PoolAction RelayCall RelayAnswer RelayEnv) :=
  List.flatten [
    [.env (.append [unhashedRow counterMain 1])],
    .spawn 0 (.drain 0) :: List.replicate 4 (.step 0 plainly),
    [.step 0 ⟨some (str "unavailable"), false, ⟨0⟩⟩, .step 0 plainly],
    .spawn 1 (.drain 1) :: List.replicate 7 (.step 1 plainly),
    [.env (.append [unhashedRow counterMain 2])],
    .spawn 2 (.drain 1) :: List.replicate 7 (.step 2 plainly)]

/-- Both events are marked, and were passed on in the order of the stream. -/
theorem relay_loses_nothing_again :
    ∃ P, runActions relaying.step (Pool.start .fresh) relayAgain = some P ∧
      P.shared.passed.flatten.map (·.version) = [1, 1, 2] ∧
      (∀ r ∈ P.shared.rows, r.publishedAt.isSome ∧ Accepted P.shared r.env) ∧
      InStreamOrder P.shared.passed.flatten := by
  refine exists_run_of (fun P => P.shared.passed.flatten.map (·.version) = [1, 1, 2] ∧
    ∀ r ∈ P.shared.rows, r.publishedAt.isSome) (by decide +kernel) ?_
  rintro P hrun ⟨hpassed, hmarked⟩
  obtain ⟨hmarks, -, horder⟩ := relay_loses_nothing hrun
  exact ⟨hpassed, fun r hr => ⟨hmarked r hr, hmarks r.env ⟨r, hr, rfl, hmarked r hr⟩⟩, horder⟩

end EsLite.Delivery
