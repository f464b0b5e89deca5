import EsLite.Foundation.Interleaving
import EsLite.Sqlite.Anchor
import EsLite.Sqlite.Pages

/-!
# Anchors on a log that grows

`Anchor` is three statements without a transaction around them: the log head, the heads below it and
the insert. Appends can run between them, and after them. New rows get positions above the last one, so
the heads at a position that the log has reached stay as they are (`Extended.heads_eq`), and an anchor
at such a position stays valid (`anchor_stays_valid`). At a position that the log has not reached yet,
the next append changes what is anchored (`anchor_beyond_log_head`).
-/

namespace EsLite

variable {upto : UInt64} {T : GoText} {inp : AppendInputs} {db db' : Db} {p : AppendParams} {cap : Int}

namespace Sqlite

open Prog (perform ofResult)

/-! ## Statements -/

/-- The statements of appends and anchors: an append is one transaction. -/
inductive StoreOp : Type where
  | append (p : AppendParams)
  /-- `SELECT COALESCE(MAX(global_position), 0) FROM events` -/
  | logHead
  | heads (upto : UInt64)
  /-- The id and the time of a new anchor. -/
  | stamp
  | insertAnchor (a : Anchor)

/-- What the statements return. -/
def StoreRes : StoreOp → Type
  | .append _ => Except AppendError AppendResult
  | .logHead => Except StoreError UInt64
  | .heads _ => Except StoreError (List StreamHead)
  | .stamp => Bytes × Time
  | .insertAnchor _ => Except StoreError Unit

/-- What is left open in a statement: the inputs of an append, an error of the database, a fresh id and
the clock. -/
structure StoreAnswer where
  inputs : AppendInputs
  fault : Option Bytes
  id : Bytes
  now : Time

/-- The effect of a statement; it may fail without effect. -/
def execStore (T : GoText) (maxPayloadBytes : Int) :
    (o : StoreOp) → StoreAnswer → Db → Option (Db × StoreRes o)
  | .append p, x, db =>
    match x.fault with
    | some text => some (db, .error (.backend text))
    | none =>
      match append T maxPayloadBytes x.inputs p db with
      | .error err => some (db, .error err)
      | .ok (db', res) => some (db', .ok res)
  | .logHead, x, db =>
    match x.fault with
    | some text => some (db, .error (.backend text))
    | none =>
      match logHead db.events with
      | none => some (db, .error (.backend (str "read log head")))
      | some head => some (db, .ok head)
  | .heads upto, x, db =>
    match x.fault with
    | some text => some (db, .error (.backend text))
    | none => some (db, heads T db.events upto)
  | .stamp, x, db => some (db, (x.id, x.now))
  | .insertAnchor a, x, db =>
    match x.fault with
    | some text => some (db, .error (.backend text))
    | none =>
      if db.anchors.any (·.id == a.id) then some (db, .error (.backend (str "insert anchor")))
      else some ({ db with anchors := db.anchors ++ [a] }, .ok ())

/-- A program of statements that may end in an error. -/
abbrev StoreAct (α : Type) := ExceptT StoreError (Prog StoreOp StoreRes) α

/-- The statements of `Anchor` once its position is known. -/
def anchorAt (upto : UInt64) : StoreAct Anchor := do
  let hs ← perform (StoreOp.heads upto)
  let hs ← ofResult hs
  let (id, now) ← perform StoreOp.stamp
  let a := anchorOf id now upto hs
  let inserted ← perform (StoreOp.insertAnchor a)
  ofResult inserted
  pure a

/-- `Anchor`, statement by statement. -/
def anchorProg (upto : UInt64) : StoreAct Anchor := do
  if upto = 0 then
    let head ← perform StoreOp.logHead
    let head ← ofResult head
    anchorAt head
  else anchorAt upto

/-- What is asked of the store. -/
inductive StoreCall : Type where
  | append (p : AppendParams)
  | anchor (upto : UInt64)

/-- What the store returns. -/
inductive StoreReply : Type where
  | appended (r : Except AppendError AppendResult)
  | anchored (r : Except StoreError Anchor)

/-- Any number of appends and anchors over one database, interleaved. -/
def anchoring (T : GoText) (maxPayloadBytes : Int) :
    System Db StoreCall StoreOp StoreRes StoreReply StoreAnswer Empty where
  prog
    | .append p => .call (.append p) (fun r => .ret (.appended r))
    | .anchor upto => (anchorProg upto).run >>= fun r => .ret (.anchored r)
  exec := execStore T maxPayloadBytes
  env := nofun

/-! ## Heads that stay -/

/-- New rows lie above a position that was reached. -/
theorem Extended.maxVersionUpTo_eq {envs : List Envelope} (h : Extended T cap inp p db db' envs)
    (hupto : upto.toNat ≤ db.lastPosition) (streamID : Bytes) :
    maxVersionUpTo db'.events.rows upto streamID = maxVersionUpTo db.events.rows upto streamID := by
  have hnew : (envs.map (eventRow T)).filter (fun r => r.streamID = streamID &&
      r.globalPosition ≤ (upto.toNat : Int)) = [] := by
    refine List.filter_eq_nil_iff.mpr (fun r hr hkept => ?_)
    obtain ⟨e, he, rfl⟩ := List.mem_map.mp hr
    have hpos := h.lastPosition_lt e he
    rw [Bool.and_eq_true, decide_eq_true_eq, decide_eq_true_eq] at hkept
    have hle : (e.globalPosition.toNat : Int) ≤ upto.toNat := hkept.2
    omega
  rw [maxVersionUpTo, maxVersionUpTo, h.rows, List.filter_append, hnew, List.append_nil]

/-- **The heads at a position that the log has reached** are the same after an append. -/
theorem Extended.heads_eq {envs : List Envelope} (h : Extended T cap inp p db db' envs)
    (hupto : upto.toNat ≤ db.lastPosition) : heads T db'.events upto = heads T db.events upto := by
  have hold : ∀ r, IsHead db'.events.rows upto r ↔ IsHead db.events.rows upto r := by
    intro r
    rw [IsHead, IsHead, h.maxVersionUpTo_eq hupto]
  -- a new row has a version that no row of its stream had before
  have hnew : (envs.map (eventRow T)).filter (fun r => IsHead db.events.rows upto r) = [] := by
    refine List.filter_eq_nil_iff.mpr (fun r hr hhead => ?_)
    obtain ⟨e, he, rfl⟩ := List.mem_map.mp hr
    have hmem := List.max?_mem (of_decide_eq_true hhead)
    obtain ⟨x, hx, hversion⟩ := List.mem_map.mp hmem
    obtain ⟨hx, hkept⟩ := List.mem_filter.mp hx
    rw [Bool.and_eq_true, decide_eq_true_eq] at hkept
    have hstream : x.streamID = p.streamID.canonical := by
      rw [hkept.1, ← (h.appended e he).streamID]
      rfl
    have hle := h.old x hx hstream
    have hlt := h.expected_lt e he
    have hversion : x.version = (e.versionNat : Int) := hversion
    omega
  have hrows : db'.events.rows.filter (fun r => IsHead db'.events.rows upto r) =
      db.events.rows.filter (fun r => IsHead db.events.rows upto r) := by
    simp only [hold]
    rw [h.rows, List.filter_append, hnew, List.append_nil]
  rw [heads, heads, hrows]

/-- The heads at every position that a database has reached are those of the other one. -/
structure HeadsStay (T : GoText) (db db' : Db) : Prop where
  lastPosition : db.lastPosition ≤ db'.lastPosition
  heads : ∀ upto : UInt64, upto.toNat ≤ db.lastPosition →
    heads T db'.events upto = Sqlite.heads T db.events upto

theorem HeadsStay.refl (T : GoText) (db : Db) : HeadsStay T db db := ⟨le_rfl, fun _ _ => rfl⟩

theorem HeadsStay.trans {db₁ db₂ db₃ : Db} (h₁ : HeadsStay T db₁ db₂) (h₂ : HeadsStay T db₂ db₃) :
    HeadsStay T db₁ db₃ :=
  ⟨h₁.lastPosition.trans h₂.lastPosition, fun upto hupto =>
    (h₂.heads upto (hupto.trans h₁.lastPosition)).trans (h₁.heads upto hupto)⟩

theorem headsStay_append {res : AppendResult} (h : append T cap inp p db = .ok (db', res)) :
    HeadsStay T db db' where
  lastPosition := by
    rw [lastPosition_append h]
    omega
  heads _ hupto := (extended_of_append h).heads_eq hupto

/-- **Every statement** keeps the heads at the positions that the log has reached. -/
theorem headsStay_exec {o : StoreOp} {x : StoreAnswer} {r : StoreRes o}
    (h : (anchoring T cap).exec o x db = some (db', r)) : HeadsStay T db db' := by
  cases o with
  | append p =>
    simp only [anchoring, execStore] at h
    split at h
    · cases h
      exact .refl T db
    split at h
    · cases h
      exact .refl T db
    · rename_i happend
      cases h
      exact headsStay_append happend
  | logHead =>
    simp only [anchoring, execStore] at h
    split at h
    · cases h
      exact .refl T db
    split at h <;> cases h <;> exact .refl T db
  | heads upto =>
    simp only [anchoring, execStore] at h
    split at h <;> cases h <;> exact .refl T db
  | stamp =>
    cases h
    exact .refl T db
  | insertAnchor a =>
    simp only [anchoring, execStore] at h
    split at h
    · cases h
      exact .refl T db
    split at h
    · cases h
      exact .refl T db
    · cases h
      exact ⟨le_rfl, fun _ _ => rfl⟩

/-! ## Anchors that stay valid -/

/-- What is known of a database that only grows: the heads at the positions it has reached. -/
def anchorLogic (T : GoText) : Logic Db StoreOp where
  inv _ := True
  le := HeadsStay T
  allowed _ _ := True
  refl := .refl T
  trans _ _ _ := .trans

section Anchoring

open Logic

variable {T : GoText} {cap : Int}

/-- The heads that a statement has read at a position that the log had reached. -/
theorem wp_heads (hupto : upto.toNat ≤ db.lastPosition) :
    (anchorLogic T).WP (anchoring T cap) (OnOk fun r db => ∀ hs, r = .ok hs →
      heads T db.events upto = .ok hs) (Prog.perform (ε := StoreError) (StoreOp.heads upto)).run db := by
  refine WP.perform (fun t hle _ _ x t' r hex => ⟨trivial, headsStay_exec hex, fun u hu _ hs hr => ?_⟩)
  subst hr
  simp only [anchoring, execStore] at hex
  split at hex
  · cases hex
  · have hread := (Prod.mk.inj (Option.some.inj hex)).2
    have hreached : upto.toNat ≤ t.lastPosition := hupto.trans hle.lastPosition
    obtain rfl : t = t' := (Prod.mk.inj (Option.some.inj hex)).1
    rw [hu.heads upto hreached]
    exact hread

/-- **An anchor at a position that the log has reached** is valid from then on. -/
theorem wp_anchorAt (hupto : upto.toNat ≤ db.lastPosition) :
    (anchorLogic T).WP (anchoring T cap) (OnOk fun a db => checkAnchor T db.events a = .ok ())
      (anchorAt upto).run db := by
  have hquiet : ∀ o, (anchorLogic T).WP (anchoring T cap) (OnOk fun _ _ => True)
      (Prog.perform (ε := StoreError) o).run db := fun o =>
    WP.perform (fun _ _ _ _ _ _ _ hex => ⟨trivial, headsStay_exec hex, fun _ _ _ => trivial⟩)
  unfold anchorAt
  refine WP.andThen (wp_heads hupto) (fun r t ht _ hr => ?_)
  refine WP.andThen (WP.ofResult (fun hs hok u hu hi => hr u hu hi hs hok)) (fun hs u hu _ hheads => ?_)
  refine WP.andThen ((hquiet .stamp).mono (ht.trans hu)) (fun stamp v hv _ _ => ?_)
  refine WP.andThen ((hquiet _).mono ((ht.trans hu).trans hv)) (fun inserted w hw _ _ => ?_)
  refine WP.andThen (WP.ofResult (R := fun _ _ => True) (fun _ _ _ _ _ => trivial))
    (fun _ y hy _ _ => ?_)
  -- the anchor is over the heads that were read, and these are still the same
  refine WP.ret (fun z hz _ => ?_)
  have hread := hheads z (((hv.trans hw).trans hy).trans hz) trivial
  exact checkAnchor_anchorOf hread _ _

/-- The log head is a position that the log has reached. -/
theorem logHead_le {head : UInt64} (h : logHead db.events = some head) :
    head.toNat ≤ db.lastPosition := by
  obtain ⟨hmax, -⟩ := scanUint64_eq_some h
  cases hm : (db.events.rows.map (·.globalPosition)).max? with
  | none =>
    rw [hm, Option.getD_none] at hmax
    omega
  | some m =>
    rw [hm, Option.getD_some] at hmax
    obtain ⟨r, hr, hpos⟩ := List.mem_map.mp (List.max?_mem hm)
    have hle := Db.position_le hr
    rw [hpos, hmax] at hle
    omega

/-- `Anchor` is called for the log head, or at a position that the log has reached. -/
def Reached : StoreCall → Db → Prop
  | .append _, _ => True
  | .anchor upto, db => upto = 0 ∨ upto.toNat ≤ db.lastPosition

instance : (c : StoreCall) → (db : Db) → Decidable (Reached c db)
  | .append _, _ => inferInstanceAs (Decidable True)
  | .anchor _, _ => inferInstanceAs (Decidable (_ ∨ _))

theorem wp_anchorProg (h : Reached (.anchor upto) db) :
    (anchorLogic T).WP (anchoring T cap) (OnOk fun a db => checkAnchor T db.events a = .ok ())
      (anchorProg upto).run db := by
  unfold anchorProg
  by_cases hzero : upto = 0
  · rw [if_pos hzero]
    have hhead : (anchorLogic T).WP (anchoring T cap)
        (OnOk fun r db => ∀ head, r = .ok head → head.toNat ≤ db.lastPosition)
        (Prog.perform (ε := StoreError) StoreOp.logHead).run db := by
      refine WP.perform (fun t _ _ _ x t' r hex => ⟨trivial, headsStay_exec hex, ?_⟩)
      rintro u hu - head rfl
      simp only [anchoring, execStore] at hex
      split at hex
      · cases hex
      split at hex
      · cases hex
      · rename_i hlog
        cases hex
        exact (logHead_le hlog).trans hu.lastPosition
    refine WP.andThen hhead (fun r t _ _ hr => ?_)
    refine WP.andThen (WP.ofResult (fun head hok u hu hi => hr u hu hi head hok))
      (fun head u _ hi hreached => ?_)
    exact wp_anchorAt (hreached u ((anchorLogic T).refl u) hi)
  · rw [if_neg hzero]
    exact wp_anchorAt (h.resolve_left hzero)

/-- What holds of the reply to a call from then on: an anchor checks out. -/
def AnchorHolds (T : GoText) : StoreCall → StoreReply → Db → Prop
  | .anchor _, .anchored (.ok a), db => checkAnchor T db.events a = .ok ()
  | _, _, _ => True

/-- **An anchor stays valid on an honest log**, if its position was reached. Take any database and any
number of appends and anchors, successful or not, whose statements run in any order, where every
anchor is taken for the log head or at a position that the log has reached when it is called. Then in
every state that is reached, `CheckAnchor` succeeds on every anchor that was returned. -/
theorem anchor_stays_valid {db : Db} {acts : List (PoolAction StoreCall StoreAnswer Empty)}
    {P : Pool Db StoreCall StoreOp StoreRes StoreReply}
    (hrun : GuardedRun (anchoring T cap).step (System.Allows Reached (fun _ _ => True))
      (Pool.start db) acts P) :
    ∀ i upto a, (i, .anchor upto, .anchored (.ok a)) ∈ P.finished →
      checkAnchor T P.shared.events a = .ok () := by
  have hprog : ∀ c db, (anchorLogic T).inv db → Reached c db →
      (anchorLogic T).WP (anchoring T cap) (AnchorHolds T c) ((anchoring T cap).prog c) db := by
    intro c db _ hreached
    cases c with
    | append p =>
      exact WP.call (fun _ _ _ _ _ _ _ hex => ⟨trivial, headsStay_exec hex, fun _ _ _ => trivial⟩)
    | anchor upto =>
      refine WP.map ((wp_anchorProg hreached).weaken (fun r t _ _ hr => ?_))
      cases r with
      | ok a => exact hr
      | error err => exact trivial
  have hsound : (anchorLogic T).Sound (anchoring T cap) (AnchorHolds T) P :=
    (run_sound (fun e => nomatch e) hprog hrun (Sound.start trivial)).1
  intro i upto a hmem
  exact hsound.finished _ hmem P.shared ((anchorLogic T).refl _) trivial

end Anchoring

/-- The anchor that a call returned. -/
def StoreReply.anchor : StoreReply → Option Anchor
  | .anchored (.ok a) => some a
  | _ => none

theorem StoreReply.eq_of_anchor {r : StoreReply} {a : Anchor} (h : r.anchor = some a) :
    r = .anchored (.ok a) := by
  unfold StoreReply.anchor at h
  split at h
  · rw [Option.some.inj h]
  · cases h

/-- The error of a check. -/
def refusal : Except StoreError Unit → Option StoreError
  | .ok () => none
  | .error err => some err

theorem eq_error_of_refusal {r : Except StoreError Unit} {err : StoreError}
    (h : refusal r = some err) : r = .error err := by
  cases r with
  | ok _ => cases h
  | error e => exact congrArg _ (Option.some.inj h)

/-- The verdict of `CheckAnchor` on the anchor that call 1 returned for `upto`. -/
def verdict (upto : UInt64) (P : Pool Db StoreCall StoreOp StoreRes StoreReply) :
    Option (Option StoreError) :=
  P.finished.findSome? (fun x =>
    match x with
    | (1, .anchor u, r) => r.anchor.bind (fun a =>
      if u = upto then some (refusal (checkAnchor storeText P.shared.events a)) else none)
    | _ => none)

theorem mem_of_verdict {P : Pool Db StoreCall StoreOp StoreRes StoreReply} {v : Option StoreError}
    (h : verdict upto P = some v) :
    ∃ a, (1, .anchor upto, .anchored (.ok a)) ∈ P.finished ∧
      ∀ err, v = some err → checkAnchor storeText P.shared.events a = .error err := by
  obtain ⟨⟨i, c, r⟩, hx, hf⟩ := List.exists_of_findSome?_eq_some h
  split at hf
  · rename_i heq
    cases heq
    obtain ⟨a, ha, hfound⟩ := Option.bind_eq_some_iff.mp hf
    split at hfound
    · rename_i hupto
      rw [StoreReply.eq_of_anchor ha, hupto] at hx
      exact ⟨a, hx, fun err hv => eq_error_of_refusal ((Option.some.inj hfound).trans hv)⟩
    · cases hfound
  · cases hf

/-- Nothing fails; the append has the given inputs. -/
def smooth (inp : AppendInputs) : StoreAnswer := ⟨inp, none, [], ⟨0⟩⟩

/-- The log head is anchored while a second event is appended: after the head was read, and before the
heads are. -/
def anchorBetween : List (PoolAction StoreCall StoreAnswer Empty) :=
  [.spawn 0 (.append firstAppend.2), .step 0 (smooth firstAppend.1),
    .spawn 1 (.anchor 0), .step 1 (smooth epochInputs),
    .spawn 2 (.append secondAppend.2), .step 2 (smooth epochInputs),
    .step 1 (smooth epochInputs), .step 1 (smooth epochInputs), .step 1 (smooth epochInputs)]

/-- The anchor of the first event stays valid. -/
theorem anchor_stays_valid_once :
    ∃ P a, GuardedRun (anchoring storeText 0).step (System.Allows Reached (fun _ _ => True))
        (Pool.start .empty) anchorBetween P ∧
      (1, .anchor 0, .anchored (.ok a)) ∈ P.finished ∧ P.shared.events.rows.length = 2 ∧
      checkAnchor storeText P.shared.events a = .ok () := by
  obtain ⟨P, hrun, hverdict, hrows⟩ : ∃ P, GuardedRun (anchoring storeText 0).step
      (System.Allows Reached (fun _ _ => True)) (Pool.start .empty) anchorBetween P ∧
      verdict 0 P = some none ∧ P.shared.events.rows.length = 2 :=
    exists_guardedRun (by decide +kernel)
  obtain ⟨a, hmem, -⟩ := mem_of_verdict hverdict
  exact ⟨P, a, hrun, hmem, hrows, anchor_stays_valid hrun 1 0 a hmem⟩

/-- **An anchor above the log head** is broken by the next append: `Anchor(5)` on an empty log returns
an anchor of no streams at position 5, and the first event is appended at position 1. -/
theorem anchor_beyond_log_head :
    ∃ P a, runActions (anchoring storeText 0).step (Pool.start .empty)
        [.spawn 1 (.anchor 5), .step 1 (smooth epochInputs), .step 1 (smooth epochInputs),
          .step 1 (smooth epochInputs), .spawn 0 (.append firstAppend.2),
          .step 0 (smooth firstAppend.1)] = some P ∧
      (1, .anchor 5, .anchored (.ok a)) ∈ P.finished ∧
      checkAnchor storeText P.shared.events a = .error (.sentinel .anchorMismatch) := by
  obtain ⟨P, hrun, hverdict⟩ : ∃ P, runActions (anchoring storeText 0).step (Pool.start .empty)
      [.spawn 1 (.anchor 5), .step 1 (smooth epochInputs), .step 1 (smooth epochInputs),
        .step 1 (smooth epochInputs), .spawn 0 (.append firstAppend.2),
        .step 0 (smooth firstAppend.1)] = some P ∧
      verdict 5 P = some (some (.sentinel .anchorMismatch)) := exists_run (by decide +kernel)
  obtain ⟨a, hmem, hcheck⟩ := mem_of_verdict hverdict
  exact ⟨P, a, hrun, hmem, hcheck _ rfl⟩

end Sqlite

end EsLite
