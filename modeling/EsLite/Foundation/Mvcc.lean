import Mathlib.Data.List.Nodup
import Mathlib.Data.List.Perm.Subperm
import Mathlib.Data.Nat.Init
import Mathlib.Order.Nat

/-!
# Transactions, snapshots and a shared sequence

A multi-version table whose rows take their positions from one sequence. Three orders matter and all
differ: the order in which transactions get their ids, the order in which they draw positions and the
order in which they commit. A row is seen by others from its commit on; a position is *in flight* from
its draw to the end of the transaction that drew it.

* `Mvcc` — the state, with the effect of each primitive: open, assign an id, draw, insert, commit,
  abort.
* `Mvcc.Valid` — the invariant, and `Mvcc.Le` — what every primitive keeps: a position that is not in
  flight now will not be, unless it is drawn later.
* `Mvcc.Settled` — no row at or below a position will appear any more (`Le.committed_of_settled`).
* `Mvcc.Fenced` — a bound `l` and an id `r` such that `l` is settled once the horizon of a snapshot
  has reached `r` (`settled_of_le_xmin`).
-/

namespace EsLite

/-- A row at its position. -/
structure Placed (ρ : Type) where
  position : Nat
  row : ρ
deriving DecidableEq

/-- The state behind a table with transactions. Transactions are named by the order in which they
were opened; their ids are a different matter, assigned later or never. -/
structure Mvcc (ρ : Type) where
  /-- The name of the next transaction. -/
  nextTx : Nat
  /-- The transactions that have not ended. -/
  opened : List Nat
  /-- The next transaction id. -/
  nextXid : Nat
  /-- The highest id of a transaction that has ended. -/
  latestCompleted : Nat
  /-- The ids of open transactions. -/
  xids : List (Nat × Nat)
  /-- The highest position drawn so far, 0 before the first draw. -/
  drawn : Nat
  /-- The positions drawn by open transactions that hold no row yet. -/
  draws : List (Nat × Nat)
  /-- The rows inserted by open transactions. -/
  pending : List (Nat × Placed ρ)
  /-- The rows of committed transactions, in commit order. -/
  committed : List (Placed ρ)
deriving DecidableEq

variable {t p : Nat}

namespace Mvcc

variable {ρ : Type}

/-- No transaction has run; ids start at 3, below are reserved ones. -/
def empty : Mvcc ρ := ⟨0, [], 3, 2, [], 0, [], [], []⟩

/-! ## Primitives -/

/-- Open a transaction. -/
def openTx (db : Mvcc ρ) : Mvcc ρ × Nat :=
  ({ db with nextTx := db.nextTx + 1, opened := db.nextTx :: db.opened }, db.nextTx)

/-- The id of a transaction, assigned on first use. -/
def assignXid (t : Nat) (db : Mvcc ρ) : Mvcc ρ × Nat :=
  match db.xids.lookup t with
  | some x => (db, x)
  | none => ({ db with xids := (t, db.nextXid) :: db.xids, nextXid := db.nextXid + 1 }, db.nextXid)

/-- Draw the next position of the sequence. Nothing gives it back. -/
def draw (t : Nat) (db : Mvcc ρ) : Mvcc ρ × Nat :=
  ({ db with drawn := db.drawn + 1, draws := (t, db.drawn + 1) :: db.draws }, db.drawn + 1)

/-- Insert a row at a position the transaction drew: `false` when it violates a unique key, `none`
while the outcome depends on another open transaction. -/
def insert (clash : ρ → ρ → Bool) (t p : Nat) (row : ρ) (db : Mvcc ρ) : Option (Mvcc ρ × Bool) :=
  if (t, p) ∉ db.draws then none
  else if db.committed.any (fun r => clash row r.row) ||
      db.pending.any (fun e => e.1 == t && clash row e.2.row) then
    some (db, false)
  else if db.pending.any (fun e => clash row e.2.row) then none
  else
    some ({ db with
      draws := db.draws.erase (t, p)
      pending := db.pending ++ [(t, ⟨p, row⟩)] }, true)

/-- End a transaction: it holds nothing any more. -/
def finish (t : Nat) (db : Mvcc ρ) : Mvcc ρ :=
  { db with
    opened := db.opened.filter (· ≠ t)
    latestCompleted := ((db.xids.lookup t).getD 0).max db.latestCompleted
    xids := db.xids.filter (·.1 ≠ t)
    draws := db.draws.filter (·.1 ≠ t)
    pending := db.pending.filter (·.1 ≠ t) }

/-- The rows a transaction inserted. -/
def ownRows (t : Nat) (db : Mvcc ρ) : List (Placed ρ) :=
  (db.pending.filter (·.1 = t)).map Prod.snd

/-- Abort a transaction: its rows are gone, and so are its positions. -/
def abort (t : Nat) (db : Mvcc ρ) : Mvcc ρ := db.finish t

/-- Commit a transaction: its rows are seen by every later statement. -/
def commit (t : Nat) (db : Mvcc ρ) : Mvcc ρ :=
  { db.finish t with committed := db.committed ++ db.ownRows t }

/-! ## What a statement sees -/

/-- The rows a statement of a transaction sees: the committed ones and its own. -/
def visible (t : Nat) (db : Mvcc ρ) : List (Placed ρ) := db.committed ++ db.ownRows t

/-- What the sequence reports as its last value: 1 before the first draw. -/
def lastValue (db : Mvcc ρ) : Nat := max db.drawn 1

/-- The first id a snapshot takes to be in the future. -/
def xmax (db : Mvcc ρ) : Nat := db.latestCompleted + 1

/-- The horizon of a snapshot: the least id in flight below `xmax`, or `xmax`. -/
def xmin (db : Mvcc ρ) : Nat :=
  ((db.xids.map Prod.snd).filter (· < db.xmax)).min?.getD db.xmax

/-- **The horizon is below every id in flight**, also below those a snapshot does not list. -/
theorem xmin_le {db : Mvcc ρ} {x : Nat} (h : (t, x) ∈ db.xids) : db.xmin ≤ x := by
  by_cases hx : x < db.xmax
  · apply List.min?_getD_le_of_mem
    exact List.mem_filter.mpr ⟨List.mem_map_of_mem h, decide_eq_true hx⟩
  · -- an id beyond the snapshot is not in its list, but then the horizon is at most `xmax`
    have hmin : db.xmin ≤ db.xmax := by
      unfold xmin
      cases hm : ((db.xids.map Prod.snd).filter (· < db.xmax)).min? with
      | none => exact le_rfl
      | some m => exact (of_decide_eq_true (List.mem_filter.mp (List.min?_mem hm)).2).le
    omega

/-! ## The invariant -/

/-- The positions in flight, each with the transaction that drew it. -/
def held (db : Mvcc ρ) : List (Nat × Nat) :=
  db.draws ++ db.pending.map (fun e => (e.1, e.2.position))

/-- A position held by an open transaction, and the id of that transaction. -/
def InFlight (db : Mvcc ρ) (p x : Nat) : Prop := ∃ t, (t, x) ∈ db.xids ∧ (t, p) ∈ db.held

/-- The transaction has its id, or has ended. -/
def HasXid (db : Mvcc ρ) (t : Nat) : Prop :=
  t < db.nextTx ∧ (t ∈ db.opened → ∃ x, (t, x) ∈ db.xids)

/-- Every position in use, by an open transaction or a committed row. -/
def positions (db : Mvcc ρ) : List Nat :=
  db.held.map Prod.snd ++ db.committed.map (·.position)

/-- Every row, of an open transaction or committed. -/
def rows (db : Mvcc ρ) : List ρ := db.pending.map (·.2.row) ++ db.committed.map (·.row)

/-- What holds of every reachable state when each transaction gets its id before it draws. -/
structure Valid (clash : ρ → ρ → Bool) (db : Mvcc ρ) : Prop where
  opened_lt : ∀ t ∈ db.opened, t < db.nextTx
  xid_opened : ∀ e ∈ db.xids, e.1 ∈ db.opened
  xid_lt : ∀ e ∈ db.xids, e.2 < db.nextXid
  /-- Positions are drawn under an id. -/
  held_xid : ∀ e ∈ db.held, ∃ x, (e.1, x) ∈ db.xids
  positions_nodup : db.positions.Nodup
  positions_drawn : ∀ p ∈ db.positions, 1 ≤ p ∧ p ≤ db.drawn
  /-- No two rows violate a unique key, whether their transactions commit or not. -/
  unique : db.rows.Pairwise (fun a b => clash a b = false)

/-- What every primitive keeps: later ids are higher ids, and a row can only appear at a position that
is in flight now or that has not been drawn yet. -/
structure Le (db db' : Mvcc ρ) : Prop where
  nextTx : db.nextTx ≤ db'.nextTx
  nextXid : db.nextXid ≤ db'.nextXid
  drawn : db.drawn ≤ db'.drawn
  hasXid : ∀ t, db.HasXid t → db'.HasXid t
  xids : ∀ e ∈ db'.xids, e ∈ db.xids ∨ db.nextXid ≤ e.2
  inFlight : ∀ p x, db'.InFlight p x → db.InFlight p x ∨ db.drawn < p
  committed : ∃ extra, db'.committed = db.committed ++ extra ∧
    ∀ r ∈ extra, (∃ x, db.InFlight r.position x) ∨ db.drawn < r.position

theorem valid_empty (clash : ρ → ρ → Bool) : (empty : Mvcc ρ).Valid clash where
  opened_lt := by simp [empty]
  xid_opened := by simp [empty]
  xid_lt := by simp [empty]
  held_xid := by simp [empty, held]
  positions_nodup := by simp [empty, positions, held]
  positions_drawn := by simp [empty, positions, held]
  unique := by simp [empty, rows]

theorem Le.refl (db : Mvcc ρ) : Le db db :=
  ⟨le_rfl, le_rfl, le_rfl, fun _ h => h, fun _ h => .inl h, fun _ _ h => .inl h, [], by simp,
    by simp⟩

theorem Le.trans {a b c : Mvcc ρ} (hab : Le a b) (hbc : Le b c) : Le a c := by
  have hflight : ∀ p x, c.InFlight p x → a.InFlight p x ∨ a.drawn < p := by
    intro p x h
    rcases hbc.inFlight p x h with h | h
    · exact hab.inFlight p x h
    · exact .inr (hab.drawn.trans_lt h)
  refine ⟨hab.nextTx.trans hbc.nextTx, hab.nextXid.trans hbc.nextXid, hab.drawn.trans hbc.drawn,
    fun t h => hbc.hasXid t (hab.hasXid t h), fun e he => ?_, hflight, ?_⟩
  · rcases hbc.xids e he with he | he
    · exact hab.xids e he
    · exact .inr (hab.nextXid.trans he)
  obtain ⟨xs, hxs, hx⟩ := hab.committed
  obtain ⟨ys, hys, hy⟩ := hbc.committed
  refine ⟨xs ++ ys, by rw [hys, hxs, List.append_assoc], fun r hr => ?_⟩
  rcases List.mem_append.mp hr with hr | hr
  · exact hx r hr
  · rcases hy r hr with ⟨x, h⟩ | h
    · exact (hab.inFlight _ x h).imp_left (fun h => ⟨x, h⟩)
    · exact .inr (hab.drawn.trans_lt h)

variable {db' : Mvcc ρ}

/-- A step that touches neither positions nor rows. -/
theorem Le.of_frame {db : Mvcc ρ} (hTx : db.nextTx ≤ db'.nextTx) (hXid : db.nextXid ≤ db'.nextXid)
    (hdrawn : db'.drawn = db.drawn) (hcommitted : db'.committed = db.committed)
    (hhas : ∀ t, db.HasXid t → db'.HasXid t) (hxids : ∀ e ∈ db'.xids, e ∈ db.xids ∨ db.nextXid ≤ e.2)
    (hflight : ∀ p x, db'.InFlight p x → db.InFlight p x) : Le db db' :=
  ⟨hTx, hXid, hdrawn.ge, hhas, hxids, fun p x h => .inl (hflight p x h), [], by simpa using hcommitted,
    by simp⟩

/-! ## Each primitive keeps the invariant and goes up -/

section Primitives

variable {clash : ρ → ρ → Bool} {db : Mvcc ρ}

theorem valid_openTx (h : db.Valid clash) : (db.openTx).1.Valid clash :=
  { h with
    opened_lt := by
      intro t ht
      rcases List.mem_cons.mp ht with rfl | ht
      · exact Nat.lt_succ_self _
      · exact (h.opened_lt t ht).trans (Nat.lt_succ_self _)
    xid_opened := fun e he => List.mem_cons_of_mem _ (h.xid_opened e he) }

theorem le_openTx : Le db (db.openTx).1 := by
  refine .of_frame (Nat.le_succ _) le_rfl rfl rfl (fun t ht => ?_) (fun e he => .inl he)
    (fun p x h => h)
  refine ⟨ht.1.trans (Nat.lt_succ_self _), fun hmem => ?_⟩
  rcases List.mem_cons.mp hmem with rfl | hmem
  · exact absurd ht.1 (lt_irrefl _)
  · exact ht.2 hmem

/-- What assigning an id can do. -/
theorem assignXid_cases (t : Nat) (db : Mvcc ρ) :
    (∃ x, (t, x) ∈ db.xids ∧ db.assignXid t = (db, x)) ∨
    ((∀ x, (t, x) ∉ db.xids) ∧ db.assignXid t =
      ({ db with xids := (t, db.nextXid) :: db.xids, nextXid := db.nextXid + 1 }, db.nextXid)) := by
  unfold assignXid
  cases hl : db.xids.lookup t with
  | some x =>
    obtain ⟨l₁, l₂, hxs, -⟩ := List.lookup_eq_some_iff.mp hl
    exact .inl ⟨x, by simp [hxs], rfl⟩
  | none =>
    refine .inr ⟨fun x hx => ?_, rfl⟩
    simpa using List.lookup_eq_none_iff.mp hl (t, x) hx

theorem valid_assignXid (h : db.Valid clash) (ht : t ∈ db.opened) : (db.assignXid t).1.Valid clash := by
  rcases assignXid_cases t db with ⟨x, -, heq⟩ | ⟨-, heq⟩ <;> rw [heq]
  · exact h
  · exact
      { h with
        xid_opened := List.forall_mem_cons.mpr ⟨ht, h.xid_opened⟩
        xid_lt := List.forall_mem_cons.mpr
          ⟨Nat.lt_succ_self _, fun e he => (h.xid_lt e he).trans (Nat.lt_succ_self _)⟩
        held_xid := fun e he => (h.held_xid e he).imp (fun x hx => List.mem_cons_of_mem _ hx) }

/-- A transaction without an id holds no position, so giving it one puts nothing in flight. -/
theorem le_assignXid (h : db.Valid clash) (t : Nat) : Le db (db.assignXid t).1 := by
  rcases assignXid_cases t db with ⟨x, -, heq⟩ | ⟨hnone, heq⟩ <;> rw [heq]
  · exact .refl db
  · refine .of_frame le_rfl (Nat.le_succ _) rfl rfl (fun u hu => ?_)
      (fun e he => ?_) (fun p x hp => ?_)
    · exact ⟨hu.1, fun ho => (hu.2 ho).imp (fun x hx => List.mem_cons_of_mem _ hx)⟩
    · rcases List.mem_cons.mp he with rfl | he
      · exact .inr le_rfl
      · exact .inl he
    · obtain ⟨u, hux, hup⟩ := hp
      rcases List.mem_cons.mp hux with heq | hux
      · cases heq
        obtain ⟨y, hy⟩ := h.held_xid (t, p) hup
        exact absurd hy (hnone y)
      · exact ⟨u, hux, hup⟩

/-- The transaction has its id afterwards. -/
theorem hasXid_assignXid (h : db.Valid clash) (ht : t ∈ db.opened) : (db.assignXid t).1.HasXid t := by
  rcases assignXid_cases t db with ⟨x, hx, heq⟩ | ⟨-, heq⟩ <;> rw [heq]
  · exact ⟨h.opened_lt t ht, fun _ => ⟨x, hx⟩⟩
  · exact ⟨h.opened_lt t ht, fun _ => ⟨db.nextXid, List.mem_cons_self⟩⟩

theorem valid_draw (h : db.Valid clash) (ht : t ∈ db.opened) (hx : db.HasXid t) :
    (db.draw t).1.Valid clash :=
  { h with
    held_xid := List.forall_mem_cons.mpr ⟨hx.2 ht, h.held_xid⟩
    positions_nodup := by
      refine List.nodup_cons.mpr ⟨fun hmem => ?_, h.positions_nodup⟩
      exact absurd (h.positions_drawn _ hmem).2 (Nat.not_succ_le_self _)
    positions_drawn := by
      refine List.forall_mem_cons.mpr ⟨⟨Nat.succ_pos _, le_rfl⟩, fun p hp => ?_⟩
      exact ⟨(h.positions_drawn p hp).1, (h.positions_drawn p hp).2.trans (Nat.le_succ _)⟩ }

theorem le_draw (t : Nat) : Le db (db.draw t).1 := by
  refine ⟨le_rfl, le_rfl, Nat.le_succ _, fun u hu => hu, fun e he => .inl he, fun p x hp => ?_, [],
    by simp [draw], by simp⟩
  obtain ⟨u, hux, hup⟩ := hp
  rcases List.mem_cons.mp hup with heq | hup
  · cases heq
    exact .inr (Nat.lt_succ_self _)
  · exact .inl ⟨u, hux, hup⟩

/-- What an insert can do: nothing when it violates a key, else the row takes the drawn position. -/
theorem insert_cases {row : ρ} {ok : Bool} (h : db.insert clash t p row = some (db', ok)) :
    (ok = false ∧ db' = db) ∨
    (ok = true ∧ (t, p) ∈ db.draws ∧ (∀ r ∈ db.rows, clash row r = false) ∧
      db' = { db with draws := db.draws.erase (t, p), pending := db.pending ++ [(t, ⟨p, row⟩)] }) := by
  unfold insert at h
  split at h
  · cases h
  · rename_i hdraw
    split at h
    · cases h
      exact .inl ⟨rfl, rfl⟩
    · rename_i hown
      split at h
      · cases h
      · rename_i hother
        cases h
        simp only [Bool.or_eq_true, List.any_eq_true, not_or, not_exists, not_and,
          Bool.not_eq_true] at hown hother
        refine .inr ⟨rfl, not_not.mp hdraw, fun r hr => ?_, rfl⟩
        rcases List.mem_append.mp hr with hr | hr
        · obtain ⟨e, he, rfl⟩ := List.mem_map.mp hr
          exact hother e he
        · obtain ⟨e, he, rfl⟩ := List.mem_map.mp hr
          exact hown.1 e he

/-- Inserting moves a position from the draws to the rows. -/
theorem held_insert (row : ρ) (hp : (t, p) ∈ db.draws) :
    ({ db with draws := db.draws.erase (t, p), pending := db.pending ++ [(t, ⟨p, row⟩)] } :
      Mvcc ρ).held.Perm db.held := by
  simp only [held, List.map_append, List.map_cons, List.map_nil, ← List.append_assoc]
  refine (List.perm_append_singleton _ _).trans ?_
  rw [← List.cons_append]
  exact (List.perm_cons_erase hp).symm.append_right _

theorem valid_insert (hsymm : ∀ a b, clash a b = clash b a) (h : db.Valid clash) {row : ρ} {ok : Bool}
    (hi : db.insert clash t p row = some (db', ok)) : db'.Valid clash := by
  rcases insert_cases hi with ⟨-, rfl⟩ | ⟨-, hp, hclash, rfl⟩
  · exact h
  · have hheld := held_insert row hp
    have hpos := (hheld.map Prod.snd).append_right (db.committed.map (·.position))
    exact
      { h with
        held_xid := fun e he => h.held_xid e (hheld.subset he)
        positions_nodup := hpos.nodup_iff.mpr h.positions_nodup
        positions_drawn := fun q hq => h.positions_drawn q (hpos.subset hq)
        unique := by
          have hperm : (db.pending.map (·.2.row) ++ [row] ++ db.committed.map (·.row)).Perm
              (row :: db.rows) :=
            (List.perm_append_singleton _ _).append_right _
          simp only [rows, List.map_append, List.map_cons, List.map_nil]
          refine (hperm.pairwise_iff (fun {a b} hab => (hsymm b a).trans hab)).mpr ?_
          exact List.pairwise_cons.mpr ⟨hclash, h.unique⟩ }

theorem le_insert {row : ρ} {ok : Bool} (hi : db.insert clash t p row = some (db', ok)) : Le db db' := by
  rcases insert_cases hi with ⟨-, rfl⟩ | ⟨-, hp, -, rfl⟩
  · exact .refl _
  · refine .of_frame le_rfl le_rfl rfl rfl (fun u hu => hu) (fun e he => .inl he)
      (fun q x hq => ?_)
    obtain ⟨u, hux, huq⟩ := hq
    exact ⟨u, hux, (held_insert row hp).subset huq⟩

/-- Ending a transaction drops what it held. -/
theorem held_finish (t : Nat) (db : Mvcc ρ) :
    (db.finish t).held = db.held.filter (fun e => e.1 ≠ t) := by
  simp only [held, finish, List.filter_append, List.filter_map]
  rfl

theorem hasXid_finish {u : Nat} (h : db.HasXid u) : (db.finish t).HasXid u := by
  refine ⟨h.1, fun hmem => ?_⟩
  obtain ⟨hu, hne⟩ := List.mem_filter.mp hmem
  exact (h.2 hu).imp (fun x hx => List.mem_filter.mpr ⟨hx, hne⟩)

theorem inFlight_finish {x : Nat} (h : (db.finish t).InFlight p x) : db.InFlight p x := by
  obtain ⟨u, hux, hup⟩ := h
  rw [held_finish] at hup
  exact ⟨u, (List.mem_filter.mp hux).1, (List.mem_filter.mp hup).1⟩

/-- A symmetric relation between all items holds between the items of any part. -/
theorem pairwise_of_subperm {α : Type} {R : α → α → Prop} (hR : ∀ {a b}, R a b → R b a)
    {l l' : List α} (hl : l.Subperm l') (h : l'.Pairwise R) : l.Pairwise R := by
  obtain ⟨m, hperm, hsub⟩ := hl
  exact (hperm.pairwise_iff hR).mp (h.sublist hsub)

/-- Taking the entries of `t` out of a list and putting some of them after `c` keeps, up to order, a
part of what was there. -/
theorem subperm_moved {α β : Type} {l : List (Nat × α)} {f : Nat × α → β} {c p : List β}
    (hp : p.Sublist ((l.filter (·.1 = t)).map f)) :
    ((l.filter (·.1 ≠ t)).map f ++ (c ++ p)).Subperm (l.map f ++ c) := by
  have hsplit : ((l.filter (·.1 ≠ t)).map f ++ (l.filter (·.1 = t)).map f).Perm (l.map f) := by
    rw [← List.map_append]
    refine List.Perm.map f ?_
    simpa using List.filter_append_perm (fun e : Nat × α => decide (e.1 ≠ t)) l
  refine (List.perm_append_comm.append_left _).subperm.trans ?_
  rw [← List.append_assoc]
  exact (((List.Sublist.refl _).append hp).append (List.Sublist.refl c)).subperm.trans
    (hsplit.append_right c).subperm

theorem mem_ownRows {r : Placed ρ} : r ∈ db.ownRows t ↔ (t, r) ∈ db.pending := by
  simp [ownRows]

/-- Rows published by a commit took positions in flight. -/
theorem inFlight_of_ownRows (h : db.Valid clash) {r : Placed ρ} (hr : r ∈ db.ownRows t) :
    ∃ x, db.InFlight r.position x := by
  have hheld : (t, r.position) ∈ db.held :=
    List.mem_append_right _ (List.mem_map_of_mem (f := fun e => (e.1, e.2.position))
      (mem_ownRows.mp hr))
  exact (h.held_xid _ hheld).imp (fun x hx => ⟨t, hx, hheld⟩)

theorem le_abort (t : Nat) : Le db (db.abort t) :=
  .of_frame le_rfl le_rfl rfl rfl (fun _ => hasXid_finish)
    (fun _ he => .inl (List.mem_filter.mp he).1) (fun _ _ => inFlight_finish)

theorem le_commit (h : db.Valid clash) (t : Nat) : Le db (db.commit t) :=
  ⟨le_rfl, le_rfl, le_rfl, fun _ hu => hasXid_finish hu, fun _ he => .inl (List.mem_filter.mp he).1,
    fun _ _ hp => .inl (inFlight_finish hp), db.ownRows t, rfl,
    fun _ hr => .inl (inFlight_of_ownRows h hr)⟩

/-- Ending a transaction with some of its rows published adds no row. -/
theorem rows_finish {published : List (Placed ρ)} (hsub : published.Sublist (db.ownRows t)) :
    ({ db.finish t with committed := db.committed ++ published } : Mvcc ρ).rows.Subperm db.rows := by
  simp only [rows, List.map_append]
  refine subperm_moved ((hsub.map _).trans ?_)
  rw [ownRows, List.map_map]
  rfl

/-- Ending a transaction with some of its rows published keeps the invariant. -/
theorem valid_finish (hsymm : ∀ a b, clash a b = clash b a) (h : db.Valid clash)
    {published : List (Placed ρ)} (hsub : published.Sublist (db.ownRows t)) :
    ({ db.finish t with committed := db.committed ++ published } : Mvcc ρ).Valid clash := by
  -- what is in use afterwards is part of what was in use before, in another order
  have hpositions : ({ db.finish t with committed := db.committed ++ published } :
      Mvcc ρ).positions.Subperm db.positions := by
    simp only [positions, List.map_append]
    rw [show ({ db.finish t with committed := db.committed ++ published } : Mvcc ρ).held =
      (db.finish t).held from rfl, held_finish]
    refine subperm_moved ((hsub.map _).trans ?_)
    simp only [held, ownRows, List.filter_append, List.filter_map, List.map_append, List.map_map]
    exact List.sublist_append_right _ _
  exact
    { opened_lt := fun u hu => h.opened_lt u (List.mem_filter.mp hu).1
      xid_opened := fun e he => by
        obtain ⟨he, hne⟩ := List.mem_filter.mp he
        exact List.mem_filter.mpr ⟨h.xid_opened e he, hne⟩
      xid_lt := fun e he => h.xid_lt e (List.mem_filter.mp he).1
      held_xid := fun e he => by
        obtain ⟨he, hne⟩ := List.mem_filter.mp ((held_finish t db) ▸ he)
        exact (h.held_xid e he).imp (fun x hx => List.mem_filter.mpr ⟨hx, hne⟩)
      positions_nodup := pairwise_of_subperm Ne.symm hpositions h.positions_nodup
      positions_drawn := fun p hp => h.positions_drawn p (hpositions.subset hp)
      unique := pairwise_of_subperm (fun hab => (hsymm _ _).trans hab) (rows_finish hsub) h.unique }

/-- A transaction sees no more rows than positions were drawn. -/
theorem Valid.length_visible_le (h : db.Valid clash) (t : Nat) : (db.visible t).length ≤ db.drawn := by
  have hsub : ((db.ownRows t ++ db.committed).map (·.position)).Sublist db.positions := by
    rw [List.map_append]
    refine List.Sublist.append ?_ (List.Sublist.refl _)
    simp only [held, ownRows, List.map_append, List.map_map]
    exact (List.filter_sublist.map _).trans (List.sublist_append_right _ _)
  have hrange : (db.ownRows t ++ db.committed).map (·.position) ⊆ List.range' 1 db.drawn := by
    intro q hq
    have := h.positions_drawn q (hsub.subset hq)
    rw [List.mem_range'_1]
    omega
  have hlen := (List.subperm_of_subset (h.positions_nodup.sublist hsub) hrange).length_le
  rw [List.length_map, List.length_range', List.length_append] at hlen
  rw [visible, List.length_append]
  omega

theorem valid_abort (hsymm : ∀ a b, clash a b = clash b a) (h : db.Valid clash) (t : Nat) :
    (db.abort t).Valid clash := by
  have := valid_finish hsymm h (List.nil_sublist (db.ownRows t))
  rwa [List.append_nil] at this

theorem valid_commit (hsymm : ∀ a b, clash a b = clash b a) (h : db.Valid clash) (t : Nat) :
    (db.commit t).Valid clash :=
  valid_finish hsymm h (List.Sublist.refl _)

end Primitives

/-! ## Settled positions and fences -/

/-- Every position up to `l` has been drawn, and none of them is in flight. -/
def Settled (db : Mvcc ρ) (l : Nat) : Prop :=
  l ≤ db.drawn ∧ ∀ p x, db.InFlight p x → l < p

/-- The positions in flight up to `l` were drawn under ids below `r`. -/
def Fenced (db : Mvcc ρ) (l r : Nat) : Prop :=
  l ≤ db.drawn ∧ ∀ p x, db.InFlight p x → p ≤ l → x < r

/-- Everyone who holds a position up to `l` has a lower id than `t` has or will get. -/
def After (db : Mvcc ρ) (l t : Nat) : Prop :=
  l ≤ db.drawn ∧ ∀ p x y, db.InFlight p x → p ≤ l → (t, y) ∈ db.xids → x < y

section Settled

variable {clash : ρ → ρ → Bool} {db db' : Mvcc ρ} {l r t : Nat}

theorem Settled.mono (h : db.Settled l) (hle : Le db db') : db'.Settled l := by
  refine ⟨h.1.trans hle.drawn, fun p x hp => ?_⟩
  rcases hle.inFlight p x hp with hp | hp
  · exact h.2 p x hp
  · exact h.1.trans_lt hp

theorem Fenced.mono (h : db.Fenced l r) (hle : Le db db') : db'.Fenced l r := by
  refine ⟨h.1.trans hle.drawn, fun p x hp hpl => ?_⟩
  rcases hle.inFlight p x hp with hp | hp
  · exact h.2 p x hp hpl
  · exact absurd (hpl.trans h.1) (not_le.mpr hp)

theorem Settled.of_le (h : db.Settled l) {k : Nat} (hk : k ≤ l) : db.Settled k :=
  ⟨hk.trans h.1, fun p x hp => hk.trans_lt (h.2 p x hp)⟩

theorem settled_zero (h : db.Valid clash) : db.Settled 0 := by
  refine ⟨Nat.zero_le _, fun p x ⟨t, _, hp⟩ => ?_⟩
  exact (h.positions_drawn p (List.mem_append_left _ (List.mem_map_of_mem (f := Prod.snd) hp))).1

/-- The first position is settled by a row that is committed there. -/
theorem settled_of_le_one (h : db.Valid clash) {e : Placed ρ} (he : e ∈ db.committed)
    (h1 : e.position ≤ 1) : db.Settled e.position := by
  have hmem : e.position ∈ db.committed.map (·.position) := List.mem_map_of_mem he
  refine ⟨(h.positions_drawn _ (List.mem_append_right _ hmem)).2, fun p x ⟨t, _, hp⟩ => ?_⟩
  have hheld : p ∈ db.held.map Prod.snd := List.mem_map_of_mem (f := Prod.snd) hp
  have hp1 := (h.positions_drawn p (List.mem_append_left _ hheld)).1
  have hne : p ≠ e.position := fun heq =>
    (List.nodup_append.mp h.positions_nodup).2.2 p hheld e.position hmem heq
  omega

/-- **Nothing appears at or below a settled position.** -/
theorem Settled.mem_committed (h : db.Settled l) (hle : Le db db') {e : Placed ρ}
    (he : e ∈ db'.committed) (hl : e.position ≤ l) : e ∈ db.committed := by
  obtain ⟨extra, heq, hextra⟩ := hle.committed
  rw [heq] at he
  rcases List.mem_append.mp he with he | he
  · exact he
  · rcases hextra e he with ⟨x, hx⟩ | hx
    · exact absurd hl (not_le.mpr (h.2 _ x hx))
    · exact absurd (hl.trans h.1) (not_le.mpr hx)

theorem After.mono (h : db.After l t) (hv : db.Valid clash) (hle : Le db db') : db'.After l t := by
  refine ⟨h.1.trans hle.drawn, fun p x y hp hpl hy => ?_⟩
  rcases hle.inFlight p x hp with hp | hp
  · rcases hle.xids _ hy with hy | hy
    · exact h.2 p x y hp hpl hy
    · obtain ⟨u, hu, -⟩ := hp
      exact (hv.xid_lt _ hu).trans_le hy
  · exact absurd (hpl.trans h.1) (not_le.mpr hp)

/-- A transaction opened after `l` was drawn gets its id after everyone who holds a position up to
`l`. -/
theorem after_openTx (h : db.Valid clash) (hl : l ≤ db.drawn) : (db.openTx).1.After l (db.openTx).2 := by
  refine ⟨hl, fun p x y _ _ hy => ?_⟩
  have := h.opened_lt _ (h.xid_opened _ hy)
  exact absurd this (lt_irrefl _)

/-- The id of such a transaction fences `l`. -/
theorem fenced_assignXid (h : db.Valid clash) (hl : db.After l t) :
    (db.assignXid t).1.Fenced l (db.assignXid t).2 := by
  have hafter := hl.mono h (le_assignXid h t)
  refine ⟨hafter.1, fun p x hp hpl => hafter.2 p x _ hp hpl ?_⟩
  rcases assignXid_cases t db with ⟨x, hx, heq⟩ | ⟨-, heq⟩ <;> rw [heq]
  · exact hx
  · exact List.mem_cons_self

/-- **A fence clears.** Once the horizon of a snapshot has reached `r`, what `r` fences is settled. -/
theorem settled_of_le_xmin (h : db.Fenced l r) (hr : r ≤ db.xmin) : db.Settled l := by
  refine ⟨h.1, fun p x hp => ?_⟩
  by_contra hpl
  obtain ⟨_, hx, -⟩ := id hp
  have hxr := h.2 p x hp (not_lt.mp hpl)
  have := xmin_le hx
  omega

end Settled

end Mvcc

end EsLite
