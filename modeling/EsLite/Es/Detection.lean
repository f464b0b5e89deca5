import EsLite.Es.Honest
import Mathlib.Order.Bounds.Basic

/-!
# What paged verification detects

`verifyStreamWith` reads by version range and stops at the first page that is not full. On a stream
without missing versions that is the end of the stream. On a stream with missing versions it may stop
early, and then rows that a checker would refuse are never looked at.

* `outcome_verifyStreamWith_eq_iff` — exactly when paging leaves the verdict as it is.
* `verifyStreamWith_detects_iff` — exactly which deletions from an honest stream are detected.
-/

namespace EsLite

/-! ## The verdict without paging -/

/-- One `ReadStream(sid, 0, 0)` fed to one checker, and then the rule of strict mode: what
`verifyStreamWith` would do without pages. -/
def verifyUnpaged (store : Store) (sid : StreamID) (opts : VerifyOptions) :
    ChainReport × Option VerifyError :=
  match sid.validate with
  | .error s => (.new sid, some (.invalid s))
  | .ok () =>
    let (envs, err) := store.readStream sid 0 0
    match err.filter (· ≠ .sentinel .streamNotFound) with
    | some err => (.new sid, some (.store err))
    | none => finish opts sid (ofFeed ((newChainChecker sid opts.chainedSince).feed envs))

variable {rows : List Envelope} {sid : StreamID}

theorem verifyUnpaged_spec {store : Store} (h : Serves store sid rows) (opts : VerifyOptions) :
    verifyUnpaged store sid opts =
      finish opts sid (ofFeed ((newChainChecker sid opts.chainedSince).feed rows)) := by
  obtain ⟨henvs, herr⟩ := h.readStream_eq (a := 0) (b := 0) (by decide) (by decide)
  rw [window_zero_zero h.pos] at henvs
  rcases hread : store.readStream sid 0 0 with ⟨envs, err⟩
  rw [hread] at henvs herr
  simp only at henvs herr
  subst henvs
  simp only [verifyUnpaged, show sid.validate = .ok () from h.valid, hread, herr]

/-- Whether verification passed, found the chain broken, or failed for another reason. -/
inductive Verdict : Type where
  | ok
  | chainBroken
  | failed
deriving DecidableEq

/-- What a caller of verification learns. -/
@[ext] structure Outcome where
  chainedFrom : UInt64
  head : UInt64
  headHash : Option Bytes
  brokenAt : UInt64
  verdict : Verdict
deriving DecidableEq

/-- The outcome of a verification. -/
def outcome (r : ChainReport × Option VerifyError) : Outcome where
  chainedFrom := r.1.chainedFrom
  head := r.1.head
  headHash := r.1.headHash
  brokenAt := r.1.brokenAt
  verdict :=
    match r.2 with
    | none => .ok
    | some (.chain _) => .chainBroken
    | some _ => .failed

/-! ## When paging leaves the verdict as it is -/

/-- The rule of strict mode leaves the head alone, and reports only version 1. -/
theorem strictRule_head (opts : VerifyOptions) (sid : StreamID) (rep : ChainReport) :
    (strictRule opts sid rep).1.head = rep.head := by
  unfold strictRule
  split <;> rfl

theorem strictRule_brokenAt (opts : VerifyOptions) (sid : StreamID) (rep : ChainReport) :
    (strictRule opts sid rep).1.brokenAt = rep.brokenAt ∨ (strictRule opts sid rep).1.brokenAt = 1 := by
  unfold strictRule
  split
  · exact .inr rfl
  · exact .inl rfl

/-- Whether the checker refuses one of the rows up to version `b`. -/
def rejectsUpTo (sid : StreamID) (chainedSince : Time) (b : Nat) (rows : List Envelope) : Bool :=
  ((newChainChecker sid chainedSince).feed (upTo Envelope.versionNat b rows)).2.isSome

/-- When the checker accepts the rows up to `b ≥ 1` and there are rows above, feeding those as well
changes the head or where the chain is broken. -/
theorem outcome_ne_of_above {opts : VerifyOptions} {b : Nat} (hb : 1 ≤ b)
    (hsorted : SortedBy Envelope.versionNat rows)
    (haccept : rejectsUpTo sid opts.chainedSince b rows = false)
    (habove : above Envelope.versionNat b rows ≠ []) :
    outcome (finish opts sid (ofFeed ((newChainChecker sid opts.chainedSince).feed
        (upTo Envelope.versionNat b rows)))) ≠
      outcome (finish opts sid (ofFeed ((newChainChecker sid opts.chainedSince).feed rows))) := by
  intro heq
  set c := newChainChecker sid opts.chainedSince
  have hc : c.rep = .new sid := rfl
  rcases hfed : c.feed (upTo Envelope.versionNat b rows) with ⟨c₁, _ | err⟩
  case some => simp [rejectsUpTo, c, hfed] at haccept
  obtain ⟨hhead, hbroken, herr⟩ := ChainChecker.rep_of_feed hfed
  have hall : c.feed rows = c₁.feed (above Envelope.versionNat b rows) := by
    conv_lhs => rw [← upTo_append_above hsorted b, ChainChecker.feed_append, hfed]
  rw [hall, hfed] at heq
  have hhead₁ : c₁.rep.head.toNat ≤ b := by
    rw [hhead]
    cases hl : (upTo Envelope.versionNat b rows).getLast? with
    | none => simp [hc, ChainReport.new]
    | some e => exact (mem_upTo.mp (List.mem_of_getLast? hl)).2
  have hbroken₁ : c₁.rep.brokenAt = 0 := by rw [hbroken, hc]; rfl
  rcases hrest : c₁.feed (above Envelope.versionNat b rows) with ⟨c₂, _ | err⟩
  · -- the rows above are accepted as well: the head moves
    have hheads := congrArg Outcome.head heq
    rw [hrest] at hheads
    simp only [outcome, finish, ofFeed, Option.map_none, strictRule_head] at hheads
    obtain ⟨hhead₂, -, -⟩ := ChainChecker.rep_of_feed hrest
    have hlast := List.getLast_mem habove
    rw [List.getLast?_eq_some_getLast habove] at hhead₂
    have hgt : b < c₂.rep.head.toNat := by
      rw [hhead₂]
      exact (mem_above.mp hlast).2
    rw [hheads] at hhead₁
    omega
  · -- one of them is refused: the chain is broken above `b`
    have hbs := congrArg Outcome.brokenAt heq
    rw [hrest] at hbs
    simp only [outcome, finish, ofFeed, Option.map_none, Option.map_some] at hbs
    obtain ⟨e, he, hbe⟩ := ChainChecker.brokenAt_of_feed (herr.trans (by rw [hc]; rfl)) hrest
    have hgt : b < e.version.toNat := (mem_above.mp he).2
    rw [hbe] at hbs
    rcases strictRule_brokenAt opts sid c₁.rep with h | h
    · rw [h, hbroken₁] at hbs
      simp [← hbs] at hgt
    · rw [h] at hbs
      have : e.version.toNat = 1 := by rw [← hbs]; rfl
      omega

/-- **Paging and the verdict.** Verification page by page has the outcome of one checker over the
whole stream exactly when no row lies above the last page that is read, or the checker refuses a row
before that. -/
theorem outcome_verifyStreamWith_eq_iff {store : Store} {sid : StreamID} {rows : List Envelope}
    (h : Serves store sid rows) (opts : VerifyOptions) {fuel : Nat} (hfuel : rows.length < fuel) :
    (verifyStreamWith fuel store sid opts).map outcome =
        some (outcome (verifyUnpaged store sid opts)) ↔
      (∀ e ∈ rows, e.versionNat ≤ lastRead opts.pageSize rows) ∨
        rejectsUpTo sid opts.chainedSince (lastRead opts.pageSize rows) rows = true := by
  rw [verifyStreamWith_spec h opts hfuel, verifyUnpaged_spec h opts, Option.map_some,
    Option.some.injEq]
  set b := lastRead opts.pageSize rows
  constructor
  · intro heq
    by_contra hcon
    rw [not_or, Bool.not_eq_true] at hcon
    obtain ⟨hrow, haccept⟩ := hcon
    push Not at hrow
    obtain ⟨e, he, hlt⟩ := hrow
    refine outcome_ne_of_above ?_ h.sorted haccept
      (List.ne_nil_of_mem (mem_above.mpr ⟨he, hlt⟩)) heq
    have := le_windowEnd (k := Envelope.versionNat) opts.pageSize 0 rows
    have := opts.pageSize_pos
    simp only [b, lastRead]
    omega
  · rintro (hall | hrej)
    · rw [show upTo Envelope.versionNat b rows = rows from
        List.filter_eq_self.mpr (fun e he => decide_eq_true (hall e he))]
    · -- refused among the rows that are read: the rest is not looked at in either case
      rcases hfed : (newChainChecker sid opts.chainedSince).feed
        (upTo Envelope.versionNat b rows) with ⟨c₁, _ | err⟩
      · simp [rejectsUpTo, hfed] at hrej
      · conv_rhs => rw [← upTo_append_above h.sorted b, ChainChecker.feed_append, hfed]

theorem serves_unhashedRows {vs : List UInt64}
    (sorted : SortedBy Envelope.versionNat (vs.map (unhashedRow counterMain)))
    (hvs : ∀ v ∈ vs, 0 < v.toNat ∧ v.toNat < 2 ^ 62) :
    Serves (.ofRows counterMain (vs.map (unhashedRow counterMain))) counterMain
      (vs.map (unhashedRow counterMain)) := by
  refine .ofRows (by decide) sorted (fun e he => ?_) (fun e he => ?_) <;>
  · obtain ⟨v, hv, rfl⟩ := List.mem_map.mp he
    have := hvs v hv
    simp only [Envelope.versionNat, unhashedRow]
    omega

/-- Two rows without a gap: paging by single rows changes nothing. -/
theorem outcome_verifyStreamWith_two_rows :
    (verifyStreamWith 3 (.ofRows counterMain ([1, 2].map (unhashedRow counterMain))) counterMain
        ⟨.zero, false, 1⟩).map outcome =
      some (outcome (verifyUnpaged (.ofRows counterMain ([1, 2].map (unhashedRow counterMain)))
        counterMain ⟨.zero, false, 1⟩)) :=
  (outcome_verifyStreamWith_eq_iff (serves_unhashedRows (by decide) (by simp)) ⟨.zero, false, 1⟩
    (by decide)).mpr (.inl (by decide +kernel))

/-- Versions 1 and 3 with pages of one row: the empty page for version 2 ends the verification, which
reports an intact chain with head 1; the checker over the whole stream finds it broken at 3. -/
theorem verifyStreamWith_misses_gap :
    Serves (.ofRows counterMain ([1, 3].map (unhashedRow counterMain))) counterMain
      ([1, 3].map (unhashedRow counterMain)) ∧
    (verifyStreamWith 3 (.ofRows counterMain ([1, 3].map (unhashedRow counterMain))) counterMain
        ⟨.zero, false, 1⟩).map outcome = some ⟨0, 1, none, 0, .ok⟩ ∧
    outcome (verifyUnpaged (.ofRows counterMain ([1, 3].map (unhashedRow counterMain)))
        counterMain ⟨.zero, false, 1⟩) = ⟨0, 1, none, 3, .chainBroken⟩ :=
  ⟨serves_unhashedRows (by decide) (by simp), by decide +kernel, by decide +kernel⟩

/-! ## Which deletions are detected -/

/-- Verification returned an error wrapping `ErrChainBroken`. -/
def ChainBroken (r : ChainReport × Option VerifyError) : Prop := ∃ err, r.2 = some (.chain err)

/-- The rows that are left when the versions in `deleted` are deleted. -/
def kept (deleted : Nat → Bool) (rows : List Envelope) : List Envelope :=
  rows.filter (fun e => !deleted e.versionNat)

theorem mem_kept {deleted : Nat → Bool} {e : Envelope} :
    e ∈ kept deleted rows ↔ e ∈ rows ∧ deleted e.versionNat = false := by
  simp [kept]

/-- On linked rows verification reports a broken chain when the checker refuses a gap, or in strict
mode when the first row is not version 1. -/
theorem chainBroken_finish_iff {opts : VerifyOptions} {es : List Envelope} (hl : Linked sid es) :
    ChainBroken (finish opts sid (ofFeed ((newChainChecker sid opts.chainedSince).feed es))) ↔
      ((newChainChecker sid opts.chainedSince).feed es).2.isSome ∨
        (opts.strict = true ∧ ∃ e, es.head? = some e ∧ e.versionNat ≠ 1) := by
  rcases hfed : (newChainChecker sid opts.chainedSince).feed es with ⟨c', _ | err⟩
  · simp only [finish, ofFeed, Option.map_none, Option.isSome_none, Bool.false_eq_true, false_or]
    cases es with
    | nil =>
      cases hfed
      simp [strictRule, ChainBroken, newChainChecker, ChainReport.new]
    | cons e es =>
      have hfrom := ChainChecker.chainedFrom_of_feed_fresh hl hfed
      have hhead : 0 < c'.rep.head := by
        rw [(ChainChecker.rep_of_feed hfed).1,
          List.getLast?_eq_some_getLast (List.cons_ne_nil e es), UInt64.lt_iff_toNat_lt]
        exact hl.pos _ (List.getLast_mem (List.cons_ne_nil e es))
      have hone : e.version = 1 ↔ e.versionNat = 1 := by
        rw [← UInt64.toNat_inj]
        rfl
      by_cases hstrict : opts.strict = true <;> by_cases h1 : e.versionNat = 1 <;>
        simp [strictRule, ChainBroken, hfrom, hhead, hstrict, hone, h1]
  · simp [finish, ofFeed, ChainBroken]

/-- The rule of strict mode returns no error or one about the chain. -/
theorem strictRule_snd (opts : VerifyOptions) (sid : StreamID) (rep : ChainReport) :
    (strictRule opts sid rep).2 = none ∨ ChainBroken (strictRule opts sid rep) := by
  unfold strictRule
  split
  · exact .inr ⟨_, rfl⟩
  · exact .inl rfl

/-- **No false alarm.** Verification passes on rows of a chain when no version is missing between two
rows that it reads and, in strict mode, the first row is version 1. -/
theorem verifyStreamWith_passes {store : Store} (hl : Linked sid rows) (serves : Serves store sid rows)
    (opts : VerifyOptions) {fuel : Nat} (hfuel : rows.length < fuel)
    (hgap : ∀ a ∈ rows, ∀ b ∈ rows, b.versionNat ≤ lastRead opts.pageSize rows →
      ∀ d < b.versionNat, a.versionNat < d → ∃ e ∈ rows, e.versionNat = d)
    (hstrict : opts.strict = true → ∀ e ∈ rows.head?, e.versionNat = 1) :
    (verifyStreamWith fuel store sid opts).map Prod.snd = some none := by
  set es := upTo Envelope.versionNat (lastRead opts.pageSize rows) rows with hes
  have hread : Linked sid es := hl.sublist List.filter_sublist
  have hnot : ¬ ChainBroken (finish opts sid (ofFeed
      ((newChainChecker sid opts.chainedSince).feed es))) := by
    rw [chainBroken_finish_iff hread, ChainChecker.feed_fresh_linked_isSome_iff hread
      (fun e he => (serves.bound e (mem_upTo.mp he).1).trans (by decide))]
    rintro (⟨a, ha, b, hb, d, had, hdb, hmiss⟩ | ⟨hs, e, he, hne⟩)
    · obtain ⟨hb, hbL⟩ := mem_upTo.mp hb
      obtain ⟨e, he, hed⟩ := hgap a (mem_upTo.mp ha).1 b hb hbL d hdb had
      exact hmiss e (mem_upTo.mpr ⟨he, by omega⟩) hed
    · obtain ⟨x, hx⟩ := Option.isSome_iff_exists.mp (List.isSome_head?.mpr
        (List.ne_nil_of_mem (mem_upTo.mp (List.mem_of_head? he)).1))
      have hx1 := hstrict hs x hx
      have hxL := le_windowEnd (k := Envelope.versionNat) opts.pageSize 0 rows
      have hpos := opts.pageSize_pos
      have hxmem : x ∈ es :=
        mem_upTo.mpr ⟨List.mem_of_head? hx, by rw [hx1, lastRead]; omega⟩
      have := head_le_of_sorted hread.sorted he hxmem
      have := hread.pos e (List.mem_of_head? he)
      omega
  rw [verifyStreamWith_spec serves opts hfuel, ← hes, Option.map_some, Option.some.injEq]
  rcases hfed : (newChainChecker sid opts.chainedSince).feed es with ⟨c, _ | err⟩
  · rw [hfed] at hnot
    exact (strictRule_snd opts sid c.rep).resolve_right hnot
  · rw [hfed] at hnot
    exact absurd ⟨err, rfl⟩ hnot

section Deletion

variable {sid : StreamID} {rows : List Envelope} (honest : Chained sid rows)
  {deleted : Nat → Bool}

include honest

/-- Below the lowest deleted version nothing is missing. -/
theorem leadingRun_kept {lo : Nat}
    (hlo : IsLeast {v | (∃ e ∈ rows, e.versionNat = v) ∧ deleted v = true} lo) :
    leadingRun Envelope.versionNat 0 (kept deleted rows) = lo - 1 := by
  have hlinked : Linked sid (kept deleted rows) := honest.toLinked.sublist List.filter_sublist
  obtain ⟨⟨hlorow, hlodel⟩, hleast⟩ := hlo
  have hlopos : 0 < lo := (ChainFrom.mem_version honest).mp hlorow |>.1
  have hlole := (ChainFrom.mem_version honest).mp hlorow |>.2
  refine le_antisymm ?_ ?_
  · by_contra hgt
    obtain ⟨e, he, hev⟩ := exists_of_le_leadingRun (k := Envelope.versionNat)
      (l := kept deleted rows) hlopos (by omega)
    have := (mem_kept.mp he).2
    rw [hev, hlodel] at this
    cases this
  · by_contra hlt
    set r := leadingRun Envelope.versionNat 0 (kept deleted rows)
    obtain ⟨e, he, hev⟩ := (ChainFrom.mem_version honest).mpr
      (⟨by omega, by omega⟩ : 0 < r + 1 ∧ r + 1 ≤ 0 + rows.length)
    have hnot : deleted (r + 1) = false := by
      by_contra hdel
      have := hleast ⟨⟨e, he, hev⟩, by simpa using hdel⟩
      omega
    exact key_ne_succ_leadingRun hlinked.sorted hlinked.pos e
      (mem_kept.mpr ⟨he, by rw [hev]; exact hnot⟩) hev

/-- A version below a kept one is missing exactly when it was deleted. -/
theorem missing_iff_deleted {b : Envelope} (hb : b ∈ kept deleted rows) {d : Nat} (hd : 0 < d)
    (hdb : d < b.versionNat) : (∀ e ∈ kept deleted rows, e.versionNat ≠ d) ↔ deleted d = true := by
  have hbn := (ChainFrom.mem_version honest).mp ⟨b, (mem_kept.mp hb).1, rfl⟩
  constructor
  · intro hmiss
    by_contra hnot
    obtain ⟨e, he, hev⟩ := (ChainFrom.mem_version honest).mpr
      (⟨hd, by omega⟩ : 0 < d ∧ d ≤ 0 + rows.length)
    exact hmiss e (mem_kept.mpr ⟨he, by rw [hev]; simpa using hnot⟩) hev
  · rintro hdel e he rfl
    rw [(mem_kept.mp he).2] at hdel
    cases hdel

/-- **Which deletions are detected.** Rows are deleted from an honest stream, `lo` being the lowest
deleted version. Verification reports a broken chain exactly when a row above `lo` is left in the page
that holds `lo`, and, unless strict mode is on or `lo` is above 1, a deleted version lies between two
rows left in that page. -/
theorem verifyStreamWith_detects_iff {lo : Nat}
    (hlo : IsLeast {v | (∃ e ∈ rows, e.versionNat = v) ∧ deleted v = true} lo)
    {store : Store} (serves : Serves store sid (kept deleted rows)) (opts : VerifyOptions)
    {fuel : Nat} (hfuel : (kept deleted rows).length < fuel) :
    (∃ r, verifyStreamWith fuel store sid opts = some r ∧ ChainBroken r) ↔
      ∃ b ∈ kept deleted rows, lo < b.versionNat ∧
        b.versionNat ≤ ((lo - 1) / opts.pageSize + 1) * opts.pageSize ∧
        (opts.strict = true ∨ 1 < lo ∨
          ∃ a ∈ kept deleted rows, ∃ d, deleted d = true ∧ a.versionNat < d ∧
            d < b.versionNat) := by
  have hlinked : Linked sid (kept deleted rows) := honest.toLinked.sublist List.filter_sublist
  have hrun := leadingRun_kept honest hlo
  have hlopos : 0 < lo := ((ChainFrom.mem_version honest).mp hlo.1.1).1
  have hlodel : deleted lo = true := hlo.1.2
  have hlast : lastRead opts.pageSize (kept deleted rows) =
      ((lo - 1) / opts.pageSize + 1) * opts.pageSize := by
    simp [lastRead, windowEnd, hrun]
  rw [verifyStreamWith_spec serves opts hfuel, hlast]
  set L := ((lo - 1) / opts.pageSize + 1) * opts.pageSize
  have hread : Linked sid (upTo Envelope.versionNat L (kept deleted rows)) :=
    hlinked.sublist List.filter_sublist
  have hbound : ∀ e ∈ upTo Envelope.versionNat L (kept deleted rows), e.versionNat < 2 ^ 63 :=
    fun e he => (serves.bound e (mem_upTo.mp he).1).trans (by decide)
  simp only [Option.some.injEq, exists_eq_left', chainBroken_finish_iff hread,
    ChainChecker.feed_fresh_linked_isSome_iff hread hbound]
  constructor
  · rintro (⟨a, ha, b, hb, d, had, hdb, hmiss⟩ | ⟨hstrict, e, he, hne⟩)
    · obtain ⟨hb, hbL⟩ := mem_upTo.mp hb
      have ha := (mem_upTo.mp ha).1
      have hdel : deleted d = true := by
        refine (missing_iff_deleted honest hb (by omega) hdb).mp (fun e he hed => ?_)
        exact hmiss e (mem_upTo.mpr ⟨he, by omega⟩) hed
      have hbn := (ChainFrom.mem_version honest).mp ⟨b, (mem_kept.mp hb).1, rfl⟩
      have hrow := (ChainFrom.mem_version honest).mpr
        (⟨by omega, by omega⟩ : 0 < d ∧ d ≤ 0 + rows.length)
      have : lo ≤ d := hlo.2 ⟨hrow, hdel⟩
      exact ⟨b, hb, by omega, hbL, .inr (.inr ⟨a, ha, d, hdel, had, hdb⟩)⟩
    · -- version 1 is the lowest one missing, and `e` the first row left
      obtain ⟨hmem, heL⟩ := mem_upTo.mp (List.mem_of_head? he)
      have hpos := hlinked.pos e hmem
      have hone : leadingRun Envelope.versionNat 0 (kept deleted rows) = 0 := by
        by_contra hrun1
        obtain ⟨x, hx, hxv⟩ := exists_of_le_leadingRun (k := Envelope.versionNat)
          (l := kept deleted rows) (a := 0) (v := 1) (by omega) (by omega)
        have hxL : x ∈ upTo Envelope.versionNat L (kept deleted rows) :=
          mem_upTo.mpr ⟨hx, by omega⟩
        have := head_le_of_sorted hread.sorted he hxL
        omega
      exact ⟨e, hmem, by omega, heL, .inl hstrict⟩
  · rintro ⟨b, hb, hlob, hbL, hcase⟩
    have hbmem := mem_upTo.mpr ⟨hb, hbL⟩
    by_cases hlo1 : 1 < lo
    · -- the rows around the lowest missing version
      obtain ⟨a, ha, hav⟩ := exists_of_le_leadingRun (k := Envelope.versionNat)
        (l := kept deleted rows) (a := 0) (v := lo - 1) (by omega) hrun.ge
      refine .inl ⟨a, mem_upTo.mpr ⟨ha, by omega⟩, b, hbmem, lo, by omega, hlob, fun e he => ?_⟩
      exact (missing_iff_deleted honest hb hlopos hlob).mpr hlodel e (mem_upTo.mp he).1
    · rcases hcase with hstrict | hcase | ⟨a, ha, d, hdel, had, hdb⟩
      · refine .inr ⟨hstrict, ?_⟩
        obtain ⟨e, he⟩ := Option.isSome_iff_exists.mp
          (List.isSome_head?.mpr (List.ne_nil_of_mem hbmem))
        refine ⟨e, he, fun h1 => ?_⟩
        have hdel := (mem_kept.mp (mem_upTo.mp (List.mem_of_head? he)).1).2
        rw [h1, show 1 = lo by omega, hlodel] at hdel
        cases hdel
      · exact absurd hcase hlo1
      · refine .inl ⟨a, mem_upTo.mpr ⟨ha, by omega⟩, b, hbmem, d, had, hdb, fun e he => ?_⟩
        exact (missing_iff_deleted honest hb (by omega) hdb).mpr hdel e (mem_upTo.mp he).1

end Deletion

/-- Three events of `counter:main` as an honest store has written them. -/
def threeRows : List Envelope := chainRows zeroHash ([1, 2, 3].map (unhashedRow counterMain))

theorem chained_threeRows : Chained counterMain threeRows :=
  chainFrom_chainRows (by decide) (by decide)

theorem linked_kept_threeRows (deleted : Nat → Bool) : Linked counterMain (kept deleted threeRows) :=
  chained_threeRows.toLinked.sublist List.filter_sublist

theorem serves_kept_threeRows (deleted : Nat → Bool) :
    Serves (.ofRows counterMain (kept deleted threeRows)) counterMain (kept deleted threeRows) := by
  have hlinked := linked_kept_threeRows deleted
  refine .ofRows (by decide) hlinked.sorted hlinked.pos (fun e he => ?_)
  have := (ChainFrom.mem_version chained_threeRows).mp ⟨e, (mem_kept.mp he).1, rfl⟩
  have hlen : threeRows.length = 3 := rfl
  omega

/-- Version 2 deleted from three, all rows on one page: the gap is found. -/
theorem verifyStreamWith_detects_middle_row :
    ∃ r, verifyStreamWith 3 (.ofRows counterMain (kept (· == 2) threeRows)) counterMain
      ⟨.zero, false, 500⟩ = some r ∧ ChainBroken r :=
  (verifyStreamWith_detects_iff chained_threeRows
    (⟨by decide, fun v hv => (by simpa using hv.2 : v = 2).ge⟩ : IsLeast _ 2)
    (serves_kept_threeRows (· == 2)) ⟨.zero, false, 500⟩ (by decide)).mpr
    ⟨_, List.mem_cons_of_mem _ List.mem_cons_self, by decide, by decide, .inr (.inl (by decide))⟩

/-- Version 2 deleted from three and pages of one row: verification ends with the empty page of
version 2 and passes, even in strict mode. Version 1 deleted: verification starts at version 2 and
passes when strict mode is off. -/
theorem verifyStreamWith_misses_deleted_row :
    Chained counterMain threeRows ∧
    (kept (· == 2) threeRows).map Envelope.versionNat = [1, 3] ∧
    (verifyStreamWith 3 (.ofRows counterMain (kept (· == 2) threeRows)) counterMain
      ⟨.zero, true, 1⟩).map Prod.snd = some none ∧
    (kept (· == 1) threeRows).map Envelope.versionNat = [2, 3] ∧
    (verifyStreamWith 3 (.ofRows counterMain (kept (· == 1) threeRows)) counterMain
      ⟨.zero, false, 500⟩).map Prod.snd = some none := by
  refine ⟨chained_threeRows, by decide, ?_, by decide, ?_⟩
  · exact verifyStreamWith_passes (linked_kept_threeRows _) (serves_kept_threeRows _) _
      (by decide) (by decide) (by decide)
  · exact verifyStreamWith_passes (linked_kept_threeRows _) (serves_kept_threeRows _) _
      (by decide) (by decide) (by decide)

end EsLite
