import EsLite.Es.Chain

/-!
# What the checker says of an honest stream

A stream that was written partly before the hash columns existed holds unhashed versions from 1 on and
then a hash chain. `At c sid n prev` says that a checker has accepted the versions up to `n` and wants
the next row to link to `prev`; both kinds of rows take it from one such point to the next, so a fresh
checker accepts the whole stream (`feed_honest`).
-/

namespace EsLite

/-! ## Unhashed rows -/

/-- A row written before the chain was introduced: it carries no hashes. -/
def unhashedRow (sid : StreamID) (version : UInt64) : Envelope where
  eventID := .zero 16
  streamID := sid
  version := version
  globalPosition := version
  workspace := []
  typeURL := str "counter.v1.Incremented"
  schemaVersion := 1
  occurredAt := ⟨0⟩
  recordedAt := ⟨0⟩
  correlationID := .zero 16
  causationID := .zero 16
  commandID := .zero 16
  actor := ⟨[], []⟩
  payload := some []
  prevHash := none
  hash := none

/-- A row of the stream that was written before the chain was introduced, where that time is known. -/
structure Unhashed (sid : StreamID) (since : Time) (e : Envelope) : Prop where
  stream : e.streamID = sid
  prevHash : e.prevHash = none
  hash : e.hash = none
  early : since.isZero ∨ e.recordedAt.ns ≤ since.ns

variable {c : ChainChecker} {es : List Envelope} {sid : StreamID}

namespace ChainChecker

/-! ## One row -/

/-- The checker has accepted the versions up to `n`, and the next row must link to `prev`. -/
structure At (c : ChainChecker) (sid : StreamID) (n : Nat) (prev : Digest) : Prop where
  sid : c.sid = sid
  err : c.rep.err = none
  head : c.rep.head.toNat = n
  bound : n < 2 ^ 63
  start : c.last = none → n = 0
  last : ∀ l, c.last = some l → l.versionNat = n
  wantPrev : ∀ e : Envelope, e.versionNat = n + 1 → c.wantPrev e = some prev.bytes

/-- A fresh checker wants version 1 to link to the zero hash. -/
theorem at_fresh (sid : StreamID) (since : Time) : At (newChainChecker sid since) sid 0 zeroHash where
  sid := rfl
  err := rfl
  head := rfl
  bound := by decide
  start := fun _ => rfl
  last := fun _ h => by cases h
  wantPrev := by
    intro e he
    have hv : e.version = 1 := UInt64.toNat_inj.mp he
    show (if e.version = 1 then some zeroHash.bytes else none) = _
    rw [if_pos hv]

section Steps

variable {c : ChainChecker} {sid : StreamID} {n : Nat} {prev : Digest} {e : Envelope}

/-- The next version of the stream passes the checks of the stream and of the version. -/
theorem At.check_eq (h : At c sid n prev) (hsid : e.streamID = sid) (hv : e.versionNat = n + 1) :
    c.check e = c.checkHashes e := by
  rw [check, if_neg (by rw [hsid, h.sid]; exact not_not.mpr rfl)]
  cases hlast : c.last with
  | none =>
    have h0 : e.version ≠ 0 := fun h0 => by
      rw [Envelope.versionNat, h0] at hv
      cases hv
    exact if_neg h0
  | some l =>
    have hnext : e.version = l.version + 1 := by
      rw [← UInt64.toNat_inj, UInt64.toNat_add]
      have hl := h.last l hlast
      have hb := h.bound
      simp only [Envelope.versionNat] at hv hl
      rw [hv, hl, show (1 : UInt64).toNat = 1 from rfl]
      omega
    exact if_neg (not_not.mpr hnext)

/-- An unbroken checker accepts what passes its checks. -/
theorem next_of_check (herr : c.rep.err = none) (hok : c.check e = .ok ()) :
    c.next e = (c.accept e, none) := by
  unfold next
  rw [herr]
  simp only [hok]

theorem At.next_eq (h : At c sid n prev) (hok : c.check e = .ok ()) : c.next e = (c.accept e, none) :=
  next_of_check h.err hok

/-- What the row after an accepted one has to link to. -/
theorem wantPrev_accept (c : ChainChecker) (e e' : Envelope) : (c.accept e).wantPrev e' =
    some (e.hash.getD (unchainedHeadHash c.sid e.version).bytes) := by
  cases hhash : e.hash with
  | none => simp only [wantPrev, accept, hhash, Option.getD_none]
  | some d => simp only [wantPrev, accept, hhash, Option.getD_some]

/-- Where an accepted row takes the checker. -/
theorem At.accept (h : At c sid n prev) (hv : e.versionNat = n + 1) (hbound : n + 1 < 2 ^ 63)
    {prev' : Digest} (hwant : ∀ e' : Envelope, (c.accept e).wantPrev e' = some prev'.bytes) :
    At (c.accept e) sid (n + 1) prev' where
  sid := h.sid
  err := h.err
  head := hv
  bound := hbound
  start := fun hnone => by cases hnone
  last := fun l hl => by
    cases hl
    exact hv
  wantPrev := fun e' _ => hwant e'

/-- **A hashed row** that links to the wanted hash is accepted. -/
theorem At.hashed (h : At c sid n prev) (hrow : ChainRow sid n prev e) (hbound : n + 1 < 2 ^ 63) :
    c.next e = (c.accept e, none) ∧ At (c.accept e) sid (n + 1) (envelopeHash e) := by
  have hhashes : c.checkHashes e = .ok () := by
    refine checkHashes_of_hashed hrow.hashed hrow.linked (fun w hw => ?_)
    rw [h.wantPrev e hrow.version] at hw
    exact Option.some.inj hw
  refine ⟨h.next_eq ((h.check_eq hrow.stream hrow.version).trans hhashes), ?_⟩
  refine h.accept hrow.version hbound (fun e' => ?_)
  rw [wantPrev_accept, hrow.hashed, Option.getD_some]

/-- **An unhashed row** is accepted as long as no row before it was hashed. -/
theorem At.unhashed (h : At c sid n prev) (hrow : Unhashed sid c.chainedSince e)
    (hv : e.versionNat = n + 1) (hbound : n + 1 < 2 ^ 63) (hlast : c.last.bind (·.hash) = none) :
    c.next e = (c.accept e, none) ∧ At (c.accept e) sid (n + 1) (unchainedHeadHash sid e.version) := by
  have hearly : (!c.chainedSince.isZero && decide (c.chainedSince.ns < e.recordedAt.ns)) = false := by
    rcases hrow.early with hz | hle
    · rw [hz]
      rfl
    · rw [decide_eq_false (not_lt.mpr hle), Bool.and_false]
  have hhashes : c.checkHashes e = .ok () := by
    rw [checkHashes, hrow.hash]
    show c.checkUnhashed e = _
    rw [checkUnhashed, hrow.prevHash, hlast]
    simp only [Option.isSome_none, Bool.false_eq_true, if_false, hearly]
  refine ⟨h.next_eq ((h.check_eq hrow.stream hv).trans hhashes), ?_⟩
  refine h.accept hv hbound (fun e' => ?_)
  rw [wantPrev_accept, hrow.hash, h.sid, Option.getD_none]

end Steps

/-! ## Whole streams -/

/-- An accepted row goes on with the rest. -/
theorem feed_cons_of_next {e : Envelope} (h : c.next e = (c.accept e, none)) :
    c.feed (e :: es) = (c.accept e).feed es := by
  rw [feed, h]

/-- **A run of unhashed rows** is accepted; nothing is reported as hashed. -/
theorem feed_unhashed {n : Nat} (h : At c sid n (chainBase sid n)) (hlast : c.last.bind (·.hash) = none)
    (hrows : ∀ e ∈ es, Unhashed sid c.chainedSince e)
    (hversions : es.map Envelope.versionNat = List.range' (n + 1) es.length)
    (hbound : n + es.length < 2 ^ 63) :
    ∃ c', c.feed es = (c', none) ∧
      At c' sid (n + es.length) (chainBase sid (n + es.length)) ∧
      c'.rep.chainedFrom = c.rep.chainedFrom := by
  induction es generalizing c n with
  | nil => exact ⟨c, rfl, h, rfl⟩
  | cons e es ih =>
    rw [List.map_cons, List.length_cons, List.range'_succ, List.cons.injEq] at hversions
    rw [List.length_cons] at hbound
    have hrow := hrows e List.mem_cons_self
    obtain ⟨hnext, hat⟩ := h.unhashed hrow hversions.1 (by omega) hlast
    have hbase : unchainedHeadHash sid e.version = chainBase sid (n + 1) := by
      rw [chainBase, if_neg (Nat.succ_ne_zero n), ← hversions.1]
      exact congrArg _ UInt64.ofNat_toNat.symm
    rw [hbase] at hat
    have hacc : (c.accept e).rep.chainedFrom = c.rep.chainedFrom := by
      show (if e.hash.isSome && c.rep.chainedFrom == 0 then e.version else c.rep.chainedFrom) = _
      rw [hrow.hash]
      rfl
    obtain ⟨c', hfeed, hat', hfrom⟩ := ih hat hrow.hash
      (fun x hx => hrows x (List.mem_cons_of_mem _ hx)) hversions.2 (by omega)
    rw [List.length_cons, Nat.add_comm es.length 1, ← Nat.add_assoc]
    exact ⟨c', (feed_cons_of_next hnext).trans hfeed, hat', hfrom.trans hacc⟩

/-- **A chain** that continues where the checker is, is accepted; its first row is the first hashed one,
unless there was one before. -/
theorem feed_chainFrom {n : Nat} {prev : Digest} (h : At c sid n prev) (hchain : ChainFrom sid n prev es)
    (hbound : n + es.length < 2 ^ 63) :
    ∃ c', c.feed es = (c', none) ∧ At c' sid (n + es.length) (headDigest prev es) ∧
      c'.rep.chainedFrom.toNat =
        if es = [] ∨ c.rep.chainedFrom ≠ 0 then c.rep.chainedFrom.toNat else n + 1 := by
  induction es generalizing c n prev with
  | nil => exact ⟨c, rfl, h, (if_pos (.inl rfl)).symm⟩
  | cons e es ih =>
    obtain ⟨hrow, htail⟩ := hchain
    rw [List.length_cons] at hbound
    obtain ⟨hnext, hat⟩ := h.hashed hrow (by omega)
    obtain ⟨c', hfeed, hat', hfrom⟩ := ih hat htail (by omega)
    rw [List.length_cons, Nat.add_comm es.length 1, ← Nat.add_assoc, headDigest_cons]
    refine ⟨c', (feed_cons_of_next hnext).trans hfeed, hat', ?_⟩
    have hacc : (c.accept e).rep.chainedFrom =
        if c.rep.chainedFrom = 0 then e.version else c.rep.chainedFrom := by
      show (if e.hash.isSome && c.rep.chainedFrom == 0 then e.version else c.rep.chainedFrom) = _
      rw [hrow.hashed]
      simp
    have hne : e.version ≠ 0 := fun h0 => by
      have hv := hrow.version
      rw [Envelope.versionNat, h0] at hv
      cases hv
    by_cases h0 : c.rep.chainedFrom = 0
    · -- the first hashed row
      rw [hacc, if_pos h0, if_pos (.inr hne)] at hfrom
      rw [if_neg (by simp [h0]), hfrom]
      exact hrow.version
    · rw [hacc, if_neg h0, if_pos (.inr h0)] at hfrom
      rw [if_pos (.inr h0), hfrom]

/-- **An honest stream is accepted**: unhashed versions from 1 on and then a chain. The head is the
number of its rows, and the first hashed version the one after the unhashed ones. -/
theorem feed_honest {since : Time} {pre log : List Envelope} (hpre : ∀ e ∈ pre, Unhashed sid since e)
    (hversions : pre.map Envelope.versionNat = List.range' 1 pre.length)
    (hlog : ChainFrom sid pre.length (chainBase sid pre.length) log)
    (hbound : pre.length + log.length < 2 ^ 63) :
    ∃ c', (newChainChecker sid since).feed (pre ++ log) = (c', none) ∧
      c'.rep.head.toNat = pre.length + log.length ∧
      c'.rep.chainedFrom.toNat = if log = [] then 0 else pre.length + 1 := by
  have hfresh : At (newChainChecker sid since) sid 0 (chainBase sid 0) := at_fresh sid since
  obtain ⟨c₁, hfeed₁, hat₁, hfrom₁⟩ := feed_unhashed hfresh rfl hpre hversions (by omega)
  rw [Nat.zero_add] at hat₁
  obtain ⟨c₂, hfeed₂, hat₂, hfrom₂⟩ := feed_chainFrom hat₁ hlog hbound
  have hzero : c₁.rep.chainedFrom = 0 := hfrom₁
  refine ⟨c₂, ?_, hat₂.head, ?_⟩
  · rw [feed_append, hfeed₁]
    exact hfeed₂
  · rw [hfrom₂, hzero]
    by_cases hnil : log = []
    · rw [if_pos (.inl hnil), if_pos hnil]
      rfl
    · rw [if_neg (by simp [hnil]), if_neg hnil]

/-! ## Starting in the middle of a stream -/

/-- What the checks on an envelope depend on: the stream, the envelope before it and when the chain was
introduced. -/
theorem check_congr {c' : ChainChecker} (hsid : c.sid = c'.sid) (hlast : c.last = c'.last)
    (hsince : c.chainedSince = c'.chainedSince) (e : Envelope) : c.check e = c'.check e := by
  obtain ⟨since, sid, last, rep⟩ := c
  obtain ⟨since', sid', last', rep'⟩ := c'
  obtain rfl : sid = sid' := hsid
  obtain rfl : last = last' := hlast
  obtain rfl : since = since' := hsince
  rfl

/-- Checkers that agree on that accept the same lists. -/
theorem feed_congr {c' : ChainChecker} (hsid : c.sid = c'.sid) (hlast : c.last = c'.last)
    (hsince : c.chainedSince = c'.chainedSince) (herr : c'.rep.err = none) (h : (c.feed es).2 = none) :
    (c'.feed es).2 = none := by
  induction es generalizing c c' with
  | nil => rfl
  | cons e es ih =>
    obtain ⟨-, hcheck, hrest⟩ := feed_cons_eq_none.mp (Prod.ext rfl h : c.feed (e :: es) = (_, none))
    rw [check_congr hsid hlast hsince] at hcheck
    rw [feed_cons_of_next (next_of_check herr hcheck)]
    exact ih (c := c.accept e) hsid rfl hsince herr (congrArg Prod.snd hrest)

/-- What may follow an accepted envelope may come first, if it is not version 1. -/
theorem check_fresh {e : Envelope} (h : c.check e = .ok ()) (hv : 1 < e.versionNat) :
    (newChainChecker c.sid c.chainedSince).check e = .ok () := by
  have hzero : e.version ≠ 0 := fun h0 => by
    rw [Envelope.versionNat, h0] at hv
    cases hv
  have hone : e.version ≠ 1 := fun h1 => by
    rw [Envelope.versionNat, h1] at hv
    exact absurd hv (by decide)
  obtain ⟨hsid, -, hhashes⟩ := check_eq_ok h
  have hfresh : (newChainChecker c.sid c.chainedSince).checkHashes e = .ok () := by
    cases hhash : e.hash with
    | none =>
      simp only [checkHashes, hhash, checkUnhashed] at hhashes ⊢
      split at hhashes
      · cases hhashes
      rename_i hprev
      split at hhashes
      · cases hhashes
      rw [if_neg hprev]
      exact hhashes
    | some b =>
      rw [checkHashes, hhash] at hhashes
      obtain ⟨rfl, d, hprev, -⟩ := checkHashed_eq_ok hhashes
      refine checkHashes_of_hashed hhash hprev (fun w hw => ?_)
      -- nothing is known of the row before, so it may link to anything
      have hw : (if e.version = 1 then some zeroHash.bytes else none) = some w := hw
      rw [if_neg hone] at hw
      cases hw
  rw [check, if_neg (fun hne => hne hsid)]
  show (if e.version = 0 then _ else _) = _
  rw [if_neg hzero, hfresh]

/-- **A checker may start in the middle**: the rest of a stream that is accepted is accepted, too. -/
theorem feed_fresh {xs ys : List Envelope} (h : (c.feed (xs ++ ys)).2 = none)
    (hys : ∀ e ∈ ys, 1 < e.versionNat) : ((newChainChecker c.sid c.chainedSince).feed ys).2 = none := by
  induction xs generalizing c with
  | nil =>
    cases ys with
    | nil => rfl
    | cons e es =>
      obtain ⟨-, hcheck, hrest⟩ := feed_cons_eq_none.mp (Prod.ext rfl h : c.feed (e :: es) = (_, none))
      have hfresh := check_fresh hcheck (hys e List.mem_cons_self)
      rw [feed_cons_of_next (next_of_check rfl hfresh)]
      exact feed_congr (c := c.accept e) rfl rfl rfl rfl (congrArg Prod.snd hrest)
  | cons e es ih =>
    obtain ⟨-, -, hrest⟩ :=
      feed_cons_eq_none.mp (Prod.ext rfl h : c.feed (e :: (es ++ ys)) = (_, none))
    exact ih (c := c.accept e) (congrArg Prod.snd hrest)

end ChainChecker

end EsLite
