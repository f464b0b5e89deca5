import EsLite.Foundation.Mvcc
import EsLite.Foundation.Sorting
import Mathlib.Data.List.Induction
import Mathlib.Data.List.Pairwise

/-!
# Numbered streams in a table with transactions

The rows of a table belong to streams and carry a number in their stream, and a unique key admits one
row for each stream and number. A writer reads the last row of a stream, and later inserts the next
number, linked to the row it saw. No lock is held in between, and other transactions insert and commit
meanwhile. Still every stream is a sequence `1, 2, …` in which each row links to the one before it:

* `Numbering.Numbered` — the streams that each transaction sees are such sequences. Opening, drawing,
  committing (`Numbered.commit`) and aborting keep that without further ado: rows of one stream are
  never pending in two transactions (`Numbered.own_eq_nil`).
* `Numbering.Sees` — what a writer knows from its read on, while its transaction is open. When its
  insert does not violate the key, the row it saw is still the last one (`Sees.last_of_insert`), so the
  insert keeps the streams numbered (`Numbered.insert`).
* `Mvcc.Retains` — what every primitive keeps of what an open transaction sees.
-/

namespace EsLite

/-- How the rows of a table form streams. -/
structure Numbering (ρ κ : Type) where
  /-- The stream of a row. -/
  key : ρ → κ
  /-- The number of a row in its stream. -/
  num : ρ → Nat
  /-- Which row may come right after which; nothing comes before the first row of a stream. -/
  next : Option (Placed ρ) → Placed ρ → Prop

namespace Numbering

variable {ρ κ : Type}

/-! ## Sequences -/

/-- The rows have the numbers after `n`, and each may come right after the one before it, the first one
after `prev`. -/
def SeqFrom (N : Numbering ρ κ) : Option (Placed ρ) → Nat → List (Placed ρ) → Prop
  | _, _, [] => True
  | prev, n, r :: rs => N.num r.row = n + 1 ∧ N.next prev r ∧ N.SeqFrom (some r) (n + 1) rs

/-- The rows are the whole of a stream, from number 1 on. -/
def Seq (N : Numbering ρ κ) (rows : List (Placed ρ)) : Prop := N.SeqFrom none 0 rows

variable {N : Numbering ρ κ} {rows xs ys : List (Placed ρ)} {prev : Option (Placed ρ)} {n : Nat}

/-- A sequence goes on where a first part of it ends. -/
theorem seqFrom_append : N.SeqFrom prev n (xs ++ ys) ↔
    N.SeqFrom prev n xs ∧ N.SeqFrom (xs.getLast?.or prev) (n + xs.length) ys := by
  induction xs generalizing prev n with
  | nil => simp [SeqFrom]
  | cons x xs ih =>
    have hlast : ((x :: xs).getLast?).or prev = xs.getLast?.or (some x) := by
      cases xs with
      | nil => rfl
      | cons y ys => simp [List.getLast?_cons]
    rw [List.cons_append, SeqFrom, SeqFrom, ih, hlast, List.length_cons, and_assoc, and_assoc,
      show n + 1 + xs.length = n + (xs.length + 1) by omega]

theorem seq_append : N.Seq (xs ++ ys) ↔ N.Seq xs ∧ N.SeqFrom xs.getLast? xs.length ys := by
  rw [Seq, seqFrom_append, Option.or_none, Nat.zero_add]
  rfl

variable {r : Placed ρ}

/-- One more row. -/
theorem seq_concat :
    N.Seq (xs ++ [r]) ↔ N.Seq xs ∧ N.num r.row = xs.length + 1 ∧ N.next xs.getLast? r := by
  rw [seq_append]
  simp only [SeqFrom, and_true]

/-- The numbers of a sequence. -/
theorem SeqFrom.nums (h : N.SeqFrom prev n rows) :
    rows.map (fun r => N.num r.row) = List.range' (n + 1) rows.length := by
  induction rows generalizing prev n with
  | nil => rfl
  | cons r rs ih => rw [List.map_cons, List.length_cons, List.range'_succ, h.1, ih h.2.2]

/-- The numbers of a stream are `1, …, n`. -/
theorem Seq.nums (h : N.Seq rows) :
    rows.map (fun r => N.num r.row) = List.range' 1 rows.length := SeqFrom.nums h

theorem Seq.num_mem (h : N.Seq rows) (hr : r ∈ rows) : 1 ≤ N.num r.row ∧ N.num r.row ≤ rows.length := by
  have hmem : N.num r.row ∈ rows.map (fun r => N.num r.row) := List.mem_map_of_mem hr
  rw [h.nums, List.mem_range'_1] at hmem
  omega

/-- Every number up to the length is taken. -/
theorem Seq.exists_num (h : N.Seq rows) {m : Nat} (h1 : 1 ≤ m) (hm : m ≤ rows.length) :
    ∃ r ∈ rows, N.num r.row = m := by
  have hmem : m ∈ rows.map (fun r => N.num r.row) := by
    rw [h.nums, List.mem_range'_1]
    omega
  exact List.mem_map.mp hmem

/-- The rows of a stream are in the order of their numbers. -/
theorem Seq.pairwise_num (h : N.Seq rows) : rows.Pairwise (fun a b => N.num a.row < N.num b.row) := by
  have hnums : (rows.map (fun r => N.num r.row)).Pairwise (· < ·) := by
    rw [h.nums]
    exact List.pairwise_lt_range'
  exact List.pairwise_map.mp hnums

/-- A number belongs to one row. -/
theorem Seq.num_inj (h : N.Seq rows) {a b : Placed ρ} (ha : a ∈ rows) (hb : b ∈ rows)
    (hab : N.num a.row = N.num b.row) : a = b :=
  eq_of_pairwise_key (f := fun r : Placed ρ => N.num r.row) h.pairwise_num ha hb hab

/-- Each row came right after the row with the number before, the first one after nothing. -/
theorem Seq.next_of_mem (h : N.Seq rows) (hr : r ∈ rows) :
    ∃ prev, N.next prev r ∧ (∀ q ∈ prev, q ∈ rows) ∧
      N.num r.row = (prev.map (fun q => N.num q.row)).getD 0 + 1 := by
  obtain ⟨xs, ys, rfl⟩ := List.append_of_mem hr
  obtain ⟨hxs, hnum, hnext, -⟩ := seq_append.mp h
  refine ⟨xs.getLast?, hnext, fun q hq => ?_, ?_⟩
  · exact List.mem_append_left _ (List.mem_of_getLast? hq)
  · rw [hnum]
    rcases List.eq_nil_or_concat xs with rfl | ⟨zs, z, rfl⟩
    · rfl
    · rw [List.concat_eq_append] at hxs ⊢
      rw [List.getLast?_concat, List.length_append, Option.map_some, Option.getD_some,
        (seq_concat.mp hxs).2.1]
      rfl

/-- A transitive relation between neighbours holds along the stream. -/
theorem Seq.pairwise {R : Placed ρ → Placed ρ → Prop} (hR : ∀ a b, N.next (some a) b → R a b)
    (htrans : ∀ a b c, R a b → R b c → R a c) (h : N.Seq rows) : rows.Pairwise R := by
  -- the induction is on the end of the stream: the last row is after its neighbour, hence after all
  induction rows using List.reverseRecOn with
  | nil => exact .nil
  | append_singleton xs r ih =>
    obtain ⟨hxs, -, hnext⟩ := seq_concat.mp h
    refine List.pairwise_append.mpr ⟨ih hxs, List.pairwise_singleton R r, ?_⟩
    intro a ha b hb
    obtain rfl := List.mem_singleton.mp hb
    rcases List.eq_nil_or_concat xs with rfl | ⟨zs, z, rfl⟩
    · cases ha
    · rw [List.concat_eq_append] at ha hnext ih hxs
      rw [List.getLast?_concat] at hnext
      have hzb : R z b := hR z b hnext
      rcases List.mem_append.mp ha with ha | ha
      · have haz : R a z := (List.pairwise_append.mp (ih hxs)).2.2 a ha z (List.mem_singleton_self z)
        exact htrans a z b haz hzb
      · obtain rfl := List.mem_singleton.mp ha
        exact hzb

end Numbering

/-! ## What an open transaction keeps seeing -/

variable {t : Nat}

namespace Mvcc

variable {ρ : Type} {clash : ρ → ρ → Bool} {db db' : Mvcc ρ}

/-- What every primitive keeps: committed rows stay, and so do the rows of a transaction as long as it
is open. -/
structure Retains (db db' : Mvcc ρ) : Prop where
  nextTx : db.nextTx ≤ db'.nextTx
  drawn : db.drawn ≤ db'.drawn
  committed : ∀ r ∈ db.committed, r ∈ db'.committed
  opened : ∀ t ∈ db'.opened, t < db.nextTx →
    t ∈ db.opened ∧ ∀ r ∈ db.ownRows t, r ∈ db'.ownRows t

theorem Retains.refl (db : Mvcc ρ) : Retains db db :=
  ⟨le_rfl, le_rfl, fun _ hr => hr, fun _ ht _ => ⟨ht, fun _ hr => hr⟩⟩

theorem Retains.trans {a b c : Mvcc ρ} (hab : Retains a b) (hbc : Retains b c) : Retains a c := by
  refine ⟨hab.nextTx.trans hbc.nextTx, hab.drawn.trans hbc.drawn,
    fun r hr => hbc.committed r (hab.committed r hr), fun t ht hlt => ?_⟩
  obtain ⟨htb, hown⟩ := hbc.opened t ht (hlt.trans_le hab.nextTx)
  obtain ⟨hta, hown'⟩ := hab.opened t htb hlt
  exact ⟨hta, fun r hr => hown r (hown' r hr)⟩

variable {r : Placed ρ}

/-- What an open transaction saw, it still sees. -/
theorem Retains.mem_visible (h : Retains db db') (ht : t ∈ db'.opened) (hlt : t < db.nextTx)
    (hr : r ∈ db.visible t) : r ∈ db'.visible t := by
  rcases List.mem_append.mp hr with hr | hr
  · exact List.mem_append_left _ (h.committed r hr)
  · exact List.mem_append_right _ ((h.opened t ht hlt).2 r hr)

theorem mem_rows_of_visible (hr : r ∈ db.visible t) : r.row ∈ db.rows := by
  rcases List.mem_append.mp hr with hr | hr
  · exact List.mem_append_right _ (List.mem_map_of_mem hr)
  · exact List.mem_append_left _
      (List.mem_map_of_mem (f := fun e : Nat × Placed ρ => e.2.row) (mem_ownRows.mp hr))

theorem mem_positions_of_visible (hr : r ∈ db.visible t) : r.position ∈ db.positions := by
  rcases List.mem_append.mp hr with hr | hr
  · exact List.mem_append_right _ (List.mem_map_of_mem hr)
  · have hheld : (t, r.position) ∈ db.held :=
      List.mem_append_right _ (List.mem_map_of_mem (f := fun e : Nat × Placed ρ => (e.1, e.2.position))
        (mem_ownRows.mp hr))
    exact List.mem_append_left _ (List.mem_map_of_mem (f := Prod.snd) hheld)

/-- Rows of different open transactions do not clash. -/
theorem Valid.unique_pending (hsymm : ∀ a b, clash a b = clash b a) (h : db.Valid clash) {u : Nat}
    (hne : t ≠ u) {q : Placed ρ} (hr : r ∈ db.ownRows t) (hq : q ∈ db.ownRows u) :
    clash r.row q.row = false := by
  have hpending : db.pending.Pairwise (fun a b => clash a.2.row b.2.row = false) :=
    List.pairwise_map.mp (List.pairwise_append.mp h.unique).1
  have : Std.Symm (fun a b : Nat × Placed ρ => clash a.2.row b.2.row = false) :=
    ⟨fun a b hab => (hsymm _ _).trans hab⟩
  exact hpending.forall (mem_ownRows.mp hr) (mem_ownRows.mp hq)
    (fun heq => hne (congrArg Prod.fst heq))

theorem ownRows_finish (t u : Nat) (db : Mvcc ρ) :
    (db.finish t).ownRows u = if u = t then [] else db.ownRows u := by
  simp only [ownRows, finish, List.filter_filter]
  split
  · rename_i hut
    subst hut
    rw [List.filter_eq_nil_iff.mpr (by simp)]
    rfl
  · rename_i hut
    congr 1
    refine List.filter_congr (fun e _ => ?_)
    by_cases he : e.1 = u
    · simp [he, hut]
    · simp [he]

theorem retains_openTx : Retains db db.openTx.1 := by
  refine ⟨Nat.le_succ _, le_rfl, fun _ hr => hr, fun t ht hlt => ?_⟩
  rcases List.mem_cons.mp ht with rfl | ht
  · exact absurd hlt (lt_irrefl _)
  · exact ⟨ht, fun _ hr => hr⟩

theorem retains_assignXid (t : Nat) : Retains db (db.assignXid t).1 := by
  rcases assignXid_cases t db with ⟨x, -, heq⟩ | ⟨-, heq⟩ <;> rw [heq]
  · exact .refl db
  · exact ⟨le_rfl, le_rfl, fun _ hr => hr, fun _ hu _ => ⟨hu, fun _ hr => hr⟩⟩

theorem retains_draw (t : Nat) : Retains db (db.draw t).1 :=
  ⟨le_rfl, Nat.le_succ _, fun _ hr => hr, fun _ hu _ => ⟨hu, fun _ hr => hr⟩⟩

theorem retains_insert {p : Nat} {row : ρ} {ok : Bool} (hi : db.insert clash t p row = some (db', ok)) :
    Retains db db' := by
  rcases insert_cases hi with ⟨-, rfl⟩ | ⟨-, -, -, rfl⟩
  · exact .refl _
  · refine ⟨le_rfl, le_rfl, fun _ hr => hr, fun u hu _ => ⟨hu, fun r hr => ?_⟩⟩
    exact mem_ownRows.mpr (List.mem_append_left _ (mem_ownRows.mp hr))

/-- The rows of the other transactions stay when one ends. -/
theorem retains_finish {published : List (Placed ρ)} :
    Retains db { db.finish t with committed := db.committed ++ published } := by
  refine ⟨le_rfl, le_rfl, fun r hr => List.mem_append_left _ hr, fun u hu _ => ?_⟩
  obtain ⟨hu, hne⟩ := List.mem_filter.mp hu
  refine ⟨hu, fun r hr => ?_⟩
  have hown := ownRows_finish t u db
  rw [if_neg (of_decide_eq_true hne)] at hown
  exact hown ▸ hr

theorem retains_commit (t : Nat) : Retains db (db.commit t) := retains_finish

theorem retains_abort (t : Nat) : Retains db (db.abort t) := by
  have hfinish : Retains db { db.finish t with committed := db.committed ++ [] } := retains_finish
  rwa [List.append_nil] at hfinish

end Mvcc

/-! ## Streams of a table -/

namespace Numbering

variable {ρ κ : Type} [DecidableEq κ] {N : Numbering ρ κ} {clash : ρ → ρ → Bool} {db db' : Mvcc ρ}
  {k : κ} {t u : Nat}

/-- The rows of one stream. -/
def stream (N : Numbering ρ κ) (k : κ) (rows : List (Placed ρ)) : List (Placed ρ) :=
  rows.filter (fun r => N.key r.row = k)

theorem mem_stream {rows : List (Placed ρ)} {r : Placed ρ} :
    r ∈ N.stream k rows ↔ r ∈ rows ∧ N.key r.row = k := by
  rw [stream, List.mem_filter, decide_eq_true_eq]

theorem stream_append (xs ys : List (Placed ρ)) :
    N.stream k (xs ++ ys) = N.stream k xs ++ N.stream k ys := List.filter_append ..

/-- **Numbered streams**: every transaction sees every stream as a sequence. -/
def Numbered (N : Numbering ρ κ) (db : Mvcc ρ) : Prop := ∀ t k, N.Seq (N.stream k (db.visible t))

/-- What is committed of a stream is a sequence. -/
theorem Numbered.committed (h : N.Numbered db) (k : κ) : N.Seq (N.stream k db.committed) := by
  have hseq := h 0 k
  rw [Mvcc.visible, stream_append] at hseq
  exact (seq_append.mp hseq).1

/-- A step that touches no row. -/
theorem Numbered.of_frame (h : N.Numbered db) (hcommitted : db'.committed = db.committed)
    (hpending : db'.pending = db.pending) : N.Numbered db' := by
  intro t k
  rw [Mvcc.visible, Mvcc.ownRows, hcommitted, hpending]
  exact h t k

theorem Numbered.abort (h : N.Numbered db) (t : Nat) : N.Numbered (db.abort t) := by
  intro u k
  have hown := Mvcc.ownRows_finish t u db
  show N.Seq (N.stream k (db.committed ++ (db.finish t).ownRows u))
  rw [hown]
  split
  · rw [List.append_nil]
    exact h.committed k
  · exact h u k

/-- Rows of one stream are pending in one transaction only: two would have the same number. -/
theorem Numbered.own_eq_nil (hsymm : ∀ a b, clash a b = clash b a)
    (hkey : ∀ a b, N.key a = N.key b → N.num a = N.num b → clash a b = true)
    (hv : db.Valid clash) (h : N.Numbered db) (hne : t ≠ u)
    (ht : N.stream k (db.ownRows t) ≠ []) : N.stream k (db.ownRows u) = [] := by
  -- the first row that a transaction inserts in a stream has the number after the committed ones
  have hfirst : ∀ {v r rs}, N.stream k (db.ownRows v) = r :: rs →
      r ∈ db.ownRows v ∧ N.key r.row = k ∧
        N.num r.row = (N.stream k db.committed).length + 1 := by
    intro v r rs hv
    have hseq := h v k
    rw [Mvcc.visible, stream_append, seq_append, hv] at hseq
    have hmem : r ∈ N.stream k (db.ownRows v) := hv ▸ List.mem_cons_self
    exact ⟨(mem_stream.mp hmem).1, (mem_stream.mp hmem).2, hseq.2.1⟩
  by_contra hu
  obtain ⟨r, rs, hr⟩ := List.exists_cons_of_ne_nil ht
  obtain ⟨q, qs, hq⟩ := List.exists_cons_of_ne_nil hu
  obtain ⟨hr, hrk, hrn⟩ := hfirst hr
  obtain ⟨hq, hqk, hqn⟩ := hfirst hq
  have hclash := hv.unique_pending hsymm hne hr hq
  rw [hkey r.row q.row (hrk.trans hqk.symm) (hrn.trans hqn.symm)] at hclash
  cases hclash

/-- **A commit** publishes the streams as its transaction saw them. -/
theorem Numbered.commit (hsymm : ∀ a b, clash a b = clash b a)
    (hkey : ∀ a b, N.key a = N.key b → N.num a = N.num b → clash a b = true)
    (hv : db.Valid clash) (h : N.Numbered db) (t : Nat) : N.Numbered (db.commit t) := by
  intro u k
  have hown := Mvcc.ownRows_finish t u db
  show N.Seq (N.stream k (db.committed ++ db.ownRows t ++ (db.finish t).ownRows u))
  rw [hown]
  split
  · rw [List.append_nil]
    exact h t k
  · rename_i hne
    rw [stream_append, stream_append]
    by_cases ht : N.stream k (db.ownRows t) = []
    · rw [ht, List.append_nil, ← stream_append]
      exact h u k
    · rw [h.own_eq_nil hsymm hkey hv (Ne.symm hne) ht, List.append_nil, ← stream_append]
      exact h t k

/-- The number of the row before, 0 before the first row. -/
def numOf (N : Numbering ρ κ) (prev : Option (Placed ρ)) : Nat :=
  (prev.map (fun q => N.num q.row)).getD 0

omit [DecidableEq κ] in
/-- The last row of a stream has the highest number. -/
theorem Seq.numOf_getLast? {rows : List (Placed ρ)} (h : N.Seq rows) :
    N.numOf rows.getLast? = rows.length := by
  rcases List.eq_nil_or_concat rows with rfl | ⟨zs, z, rfl⟩
  · rfl
  · rw [List.concat_eq_append] at h ⊢
    rw [List.getLast?_concat, List.length_append, List.length_singleton]
    exact (seq_concat.mp h).2.1

/-- What a writer knows from its read of the end of a stream on: as long as its transaction is open, it
sees the row it read. -/
structure Sees (N : Numbering ρ κ) (t : Nat) (k : κ) (prev : Option (Placed ρ)) (db : Mvcc ρ) :
    Prop where
  lt : t < db.nextTx
  mem : t ∈ db.opened → ∀ q ∈ prev, q ∈ N.stream k (db.visible t)

variable {prev : Option (Placed ρ)}

theorem Sees.mono (h : N.Sees t k prev db) (hle : db.Retains db') : N.Sees t k prev db' := by
  refine ⟨h.lt.trans_le hle.nextTx, fun ht q hq => ?_⟩
  have hmem := mem_stream.mp (h.mem (hle.opened t ht h.lt).1 q hq)
  exact mem_stream.mpr ⟨hle.mem_visible ht h.lt hmem.1, hmem.2⟩

/-- The end of a stream, as a transaction sees it. -/
theorem sees_getLast? (hv : db.Valid clash) (ht : t ∈ db.opened) :
    N.Sees t k (N.stream k (db.visible t)).getLast? db :=
  ⟨hv.opened_lt t ht, fun _ _ hq => List.mem_of_getLast? hq⟩

/-- The number of the row that a writer read is at most the number of rows it sees. -/
theorem Sees.numOf_le (h : N.Sees t k prev db) (hN : N.Numbered db) (ht : t ∈ db.opened) :
    N.numOf prev ≤ (db.visible t).length := by
  cases prev with
  | none => exact Nat.zero_le _
  | some q => exact ((hN t k).num_mem (h.mem ht q rfl)).2.trans (List.length_filter_le _ _)

/-- **A successful insert hits the end of its stream**: when no row has the next number, the row that
the writer saw is still the last one. -/
theorem Sees.last_of_insert (hkey : ∀ a b, N.key a = N.key b → N.num a = N.num b → clash a b = true)
    {row : ρ} (h : N.Sees t (N.key row) prev db) (hN : N.Numbered db) (ht : t ∈ db.opened)
    (hnum : N.num row = N.numOf prev + 1) (hclash : ∀ r ∈ db.rows, clash row r = false) :
    (N.stream (N.key row) (db.visible t)).length = N.numOf prev ∧
      (N.stream (N.key row) (db.visible t)).getLast? = prev := by
  have hseq := hN t (N.key row)
  -- no row of the stream has the number of the new one, so the stream ends before it
  have hle : (N.stream (N.key row) (db.visible t)).length ≤ N.numOf prev := by
    by_contra hlt
    obtain ⟨r, hr, hrn⟩ := hseq.exists_num (m := N.numOf prev + 1) (by omega) (by omega)
    obtain ⟨hr, hrk⟩ := mem_stream.mp hr
    have hfalse := hclash r.row (Mvcc.mem_rows_of_visible hr)
    rw [hkey row r.row hrk.symm (hnum.trans hrn.symm)] at hfalse
    cases hfalse
  cases prev with
  | none =>
    have hnil : N.stream (N.key row) (db.visible t) = [] :=
      List.eq_nil_of_length_eq_zero (Nat.le_zero.mp hle)
    rw [hnil]
    exact ⟨rfl, rfl⟩
  | some q =>
    -- the row that was read is still there, and has the highest number there is
    have hq := h.mem ht q rfl
    have hlen : (N.stream (N.key row) (db.visible t)).length = N.num q.row :=
      le_antisymm hle (hseq.num_mem hq).2
    refine ⟨hlen, ?_⟩
    rcases List.eq_nil_or_concat (N.stream (N.key row) (db.visible t)) with hnil | ⟨zs, z, hz⟩
    · rw [hnil] at hq
      cases hq
    · rw [List.concat_eq_append] at hz
      rw [hz] at hseq hq hlen ⊢
      rw [List.length_append, List.length_singleton] at hlen
      have hzn := (seq_concat.mp hseq).2.1
      rw [List.getLast?_concat]
      exact congrArg some (hseq.num_inj (List.mem_append_right _ (List.mem_singleton_self z)) hq
        (hzn.trans hlen))

/-- The rows that a transaction sees after an insert. -/
theorem visible_insert (db : Mvcc ρ) (t u p : Nat) (row : ρ) :
    ({ db with draws := db.draws.erase (t, p), pending := db.pending ++ [(t, ⟨p, row⟩)] } :
      Mvcc ρ).visible u = db.visible u ++ if u = t then [⟨p, row⟩] else [] := by
  simp only [Mvcc.visible, Mvcc.ownRows, List.filter_append, List.map_append, List.append_assoc]
  congr 2
  by_cases hut : u = t
  · simp [hut]
  · simp [hut, Ne.symm hut]

/-- **An insert** of the next number after the row that its transaction saw keeps the streams
numbered, unless it violates the key. -/
theorem Numbered.insert (hkey : ∀ a b, N.key a = N.key b → N.num a = N.num b → clash a b = true)
    {p : Nat} {row : ρ} {ok : Bool} (h : N.Numbered db) (hsees : N.Sees t (N.key row) prev db)
    (ht : t ∈ db.opened) (hnum : N.num row = N.numOf prev + 1) (hnext : N.next prev ⟨p, row⟩)
    (hi : db.insert clash t p row = some (db', ok)) : N.Numbered db' := by
  rcases Mvcc.insert_cases hi with ⟨-, rfl⟩ | ⟨-, -, hclash, rfl⟩
  · exact h
  · intro u k
    rw [visible_insert, stream_append]
    by_cases hnew : u = t ∧ N.key row = k
    · obtain ⟨rfl, rfl⟩ := hnew
      obtain ⟨hlen, hlast⟩ := hsees.last_of_insert hkey h ht hnum hclash
      have hone : N.stream (N.key row) [⟨p, row⟩] = [⟨p, row⟩] := by simp [stream]
      rw [if_pos rfl, hone, seq_concat, hlast, hlen]
      exact ⟨h u _, hnum, hnext⟩
    · have hnone : N.stream k (if u = t then [⟨p, row⟩] else []) = [] := by
        split
        · rename_i hut
          have hk : N.key row ≠ k := fun hk => hnew ⟨hut, hk⟩
          simp [stream, hk]
        · rfl
      rw [hnone, List.append_nil]
      exact h u k

/-- The writer then sees the row it inserted. -/
theorem sees_insert {p : Nat} {row : ρ} (hv : db.Valid clash) (ht : t ∈ db.opened)
    (hi : db.insert clash t p row = some (db', true)) : N.Sees t (N.key row) (some ⟨p, row⟩) db' := by
  rcases Mvcc.insert_cases hi with ⟨hfalse, -⟩ | ⟨-, -, -, rfl⟩
  · cases hfalse
  · refine ⟨hv.opened_lt t ht, fun _ q hq => ?_⟩
    cases hq
    rw [visible_insert, if_pos rfl]
    exact mem_stream.mpr ⟨List.mem_append_right _ (List.mem_singleton_self _), rfl⟩

end Numbering

end EsLite
