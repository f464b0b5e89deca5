import EsLite.Es.Verify

/-!
# Chains as an honest store writes them

`ChainFrom sid n prev rows` says that `rows` are the versions `n + 1, n + 2, …` of a stream, each
carrying its own hash and the hash of the version before, the first one `prev`. That is what an honest
store writes, and what a checker that starts at version 1 accepts (`feed_chain`,
`chained_of_feed`). Rows of such a chain with some of them missing are still `Linked`: on those the
checker refuses exactly the gaps (`feed_linked_isSome_iff`).
-/

namespace EsLite

/-- One row of a chain: version `n + 1`, linked to `prev` and carrying its own hash. -/
structure ChainRow (sid : StreamID) (n : Nat) (prev : Digest) (e : Envelope) : Prop where
  stream : e.streamID = sid
  version : e.versionNat = n + 1
  linked : e.prevHash = some prev.bytes
  hashed : e.hash = some (envelopeHash e).bytes

/-- The rows are the versions after `n` of a chain whose hash at `n` is `prev`. -/
def ChainFrom (sid : StreamID) : Nat → Digest → List Envelope → Prop
  | _, _, [] => True
  | n, prev, e :: es => ChainRow sid n prev e ∧ ChainFrom sid (n + 1) (envelopeHash e) es

/-- The rows are a whole chain, from version 1 on. -/
def Chained (sid : StreamID) (rows : List Envelope) : Prop := ChainFrom sid 0 zeroHash rows

/-- The hash that the first hashed row of a stream links to when `n` rows before it are not hashed. -/
def chainBase (sid : StreamID) (n : Nat) : Digest :=
  if n = 0 then zeroHash else unchainedHeadHash sid (UInt64.ofNat n)

/-- The hash that the row after `rows` links to. -/
def headDigest (prev : Digest) (rows : List Envelope) : Digest :=
  (rows.getLast?.map envelopeHash).getD prev

theorem headDigest_cons (prev : Digest) (e : Envelope) (es : List Envelope) :
    headDigest prev (e :: es) = headDigest (envelopeHash e) es := by
  cases es with
  | nil => rfl
  | cons e' es' => simp [headDigest, List.getLast?_eq_some_getLast]

variable {sid : StreamID} {prev : Digest} {n : Nat} {rows es : List Envelope} {e l : Envelope}
  {c c' : ChainChecker} {since : Time}

/-- A chain can be continued at its head. -/
theorem chainFrom_append {xs ys : List Envelope} :
    ChainFrom sid n prev (xs ++ ys) ↔
      ChainFrom sid n prev xs ∧ ChainFrom sid (n + xs.length) (headDigest prev xs) ys := by
  induction xs generalizing n prev with
  | nil => simp [ChainFrom, headDigest]
  | cons e es ih =>
    have hn : n + 1 + es.length = n + (e :: es).length := by
      simp only [List.length_cons]
      omega
    simp only [List.cons_append, ChainFrom, ih, headDigest_cons, and_assoc, hn]

/-- The versions of a chain are consecutive. -/
theorem ChainFrom.versions (h : ChainFrom sid n prev rows) :
    rows.map Envelope.versionNat = List.range' (n + 1) rows.length := by
  induction rows generalizing n prev with
  | nil => rfl
  | cons e es ih =>
    rw [List.map_cons, List.length_cons, List.range'_succ, h.1.version, ih h.2]

theorem ChainFrom.mem_version (h : ChainFrom sid n prev rows) {v : Nat} :
    (∃ e ∈ rows, e.versionNat = v) ↔ n < v ∧ v ≤ n + rows.length := by
  rw [← List.mem_map, h.versions, List.mem_range'_1]
  omega

/-- Every row of a chain is one row of it after some version and hash. -/
theorem ChainFrom.row (h : ChainFrom sid n prev rows) (he : e ∈ rows) :
    ∃ m d, ChainRow sid m d e ∧ n ≤ m ∧ (m = n → d = prev) := by
  induction rows generalizing n prev with
  | nil => cases he
  | cons x xs ih =>
    rcases List.mem_cons.mp he with rfl | he
    · exact ⟨n, prev, h.1, le_rfl, fun _ => rfl⟩
    · obtain ⟨m, d, hrow, hm, -⟩ := ih h.2 he
      exact ⟨m, d, hrow, by omega, by omega⟩

/-- A row without hashes, completed to the row of a chain that links to `prev`. -/
def chainRow (e : Envelope) (prev : Digest) : Envelope :=
  let e := { e with prevHash := some prev.bytes }
  { e with hash := some (envelopeHash e).bytes }

/-- The chain over given rows, linked one after another. -/
def chainRows (prev : Digest) : List Envelope → List Envelope
  | [] => []
  | e :: es => chainRow e prev :: chainRows (envelopeHash (chainRow e prev)) es

/-- Linking rows with consecutive versions makes a chain. -/
theorem chainFrom_chainRows (hsid : ∀ e ∈ es, e.streamID = sid)
    (hversions : es.map Envelope.versionNat = List.range' (n + 1) es.length) :
    ChainFrom sid n prev (chainRows prev es) := by
  induction es generalizing n prev with
  | nil => trivial
  | cons e es ih =>
    rw [List.map_cons, List.length_cons, List.range'_succ, List.cons.injEq] at hversions
    refine ⟨⟨hsid e List.mem_cons_self, hversions.1, rfl, rfl⟩, ?_⟩
    exact ih (fun x hx => hsid x (List.mem_cons_of_mem _ hx)) hversions.2

/-- The position is not attested. -/
theorem ChainRow.withPosition (h : ChainRow sid n prev e) (position : UInt64) :
    ChainRow sid n prev { e with globalPosition := position } where
  stream := h.stream
  version := h.version
  linked := h.linked
  hashed := by
    have : envelopeHash { e with globalPosition := position } = envelopeHash e :=
      envelopeHash_congr rfl
    rw [this]
    exact h.hashed

/-! ## The head hash determines the chain -/

/-- What is left of a chain when rows are taken out of it. -/
structure Linked (sid : StreamID) (rows : List Envelope) : Prop where
  stream : ∀ e ∈ rows, e.streamID = sid
  pos : ∀ e ∈ rows, 0 < e.versionNat
  hashed : ∀ e ∈ rows, e.hash = some (envelopeHash e).bytes
  prev : ∀ e ∈ rows, ∃ d : Digest, e.prevHash = some d.bytes ∧ (e.versionNat = 1 → d = zeroHash)
  sorted : SortedBy Envelope.versionNat rows
  /-- A row is linked to the version right before it, where that is still there. -/
  linked : rows.Pairwise (fun l e => e.versionNat = l.versionNat + 1 → e.prevHash = l.hash)

theorem Linked.sublist {rows' : List Envelope} (h : Linked sid rows) (hs : rows'.Sublist rows) :
    Linked sid rows' where
  stream e he := h.stream e (hs.mem he)
  pos e he := h.pos e (hs.mem he)
  hashed e he := h.hashed e (hs.mem he)
  prev e he := h.prev e (hs.mem he)
  sorted := h.sorted.sublist hs
  linked := h.linked.sublist hs

theorem Linked.tail (h : Linked sid (e :: es)) : Linked sid es := h.sublist (List.sublist_cons_self e es)

theorem ChainFrom.pairwise (h : ChainFrom sid n prev rows) :
    rows.Pairwise (fun l e => l.versionNat < e.versionNat ∧
      (e.versionNat = l.versionNat + 1 → e.prevHash = l.hash)) := by
  induction rows generalizing n prev with
  | nil => exact .nil
  | cons x xs ih =>
    refine List.pairwise_cons.mpr ⟨fun e he => ?_, ih h.2⟩
    obtain ⟨m, d, hrow, hm, hd⟩ := h.2.row he
    have hx := h.1.version
    refine ⟨by rw [hrow.version]; omega, fun hv => ?_⟩
    rw [hrow.linked, h.1.hashed, hd (by rw [hrow.version] at hv; omega)]

theorem Chained.toLinked (h : Chained sid rows) : Linked sid rows where
  stream e he := let ⟨_, _, hrow, _⟩ := ChainFrom.row h he; hrow.stream
  pos e he := by
    obtain ⟨m, d, hrow, -⟩ := ChainFrom.row h he
    rw [hrow.version]
    omega
  hashed e he := let ⟨_, _, hrow, _⟩ := ChainFrom.row h he; hrow.hashed
  prev e he := by
    obtain ⟨m, d, hrow, -, hd⟩ := ChainFrom.row h he
    exact ⟨d, hrow.linked, fun h1 => hd (by rw [hrow.version] at h1; omega)⟩
  sorted := (ChainFrom.pairwise h).imp And.left
  linked := (ChainFrom.pairwise h).imp And.right

/-! ## What the checker says of linked rows -/

namespace ChainChecker

/-- The hash checks pass on a row that carries its hash and links to what the checker expects. -/
theorem checkHashes_of_hashed {d : Digest} (hhash : e.hash = some (envelopeHash e).bytes)
    (hprev : e.prevHash = some d.bytes) (hwant : ∀ w, c.wantPrev e = some w → d.bytes = w) :
    c.checkHashes e = .ok () := by
  have hnot : ((c.wantPrev e).any fun want => d.bytes != want) = false := by
    cases hw : c.wantPrev e with
    | none => rfl
    | some w => simp [hwant w hw]
  simp [checkHashes, hhash, checkHashed, hprev, hashSize, hnot]

/-- A fresh checker accepts any row of a chain. -/
theorem check_linked_fresh (h : Linked c.sid (e :: es)) (hlast : c.last = none) :
    c.check e = .ok () := by
  have hmem : e ∈ e :: es := List.mem_cons_self
  obtain ⟨d, hprev, hfirst⟩ := h.prev e hmem
  have hne : e.version ≠ 0 := fun h0 => by
    have := h.pos e hmem
    rw [Envelope.versionNat, h0] at this
    exact lt_irrefl _ this
  have hwant : ∀ w, c.wantPrev e = some w → d.bytes = w := by
    intro w hw
    simp only [wantPrev, hlast] at hw
    split at hw
    · rename_i h1
      rw [hfirst (by rw [Envelope.versionNat, h1]; rfl)]
      exact Option.some.inj hw
    · cases hw
  simp [check, h.stream e hmem, hlast, hne, checkHashes_of_hashed (h.hashed e hmem) hprev hwant]

/-- After a row of a chain, the checker accepts exactly the next version. -/
theorem check_linked_iff (h : Linked c.sid (l :: e :: es)) (hlast : c.last = some l)
    (hl : l.versionNat < 2 ^ 63) : c.check e = .ok () ↔ e.versionNat = l.versionNat + 1 := by
  have hmem : e ∈ l :: e :: es := List.mem_cons_of_mem _ List.mem_cons_self
  have hlmem : l ∈ l :: e :: es := List.mem_cons_self
  have hsucc : e.version = l.version + 1 ↔ e.versionNat = l.versionNat + 1 := by
    rw [← UInt64.toNat_inj, UInt64.toNat_add]
    simp only [Envelope.versionNat] at hl ⊢
    rw [show (1 : UInt64).toNat = 1 from rfl, Nat.mod_eq_of_lt (by omega)]
  simp only [check, h.stream e hmem, hlast, ne_eq, not_true_eq_false, if_false]
  by_cases hv : e.versionNat = l.versionNat + 1
  · obtain ⟨d, hprev, -⟩ := h.prev e hmem
    have hlink : e.prevHash = l.hash :=
      (List.pairwise_cons.mp h.linked).1 e List.mem_cons_self hv
    have hwant : ∀ w, c.wantPrev e = some w → d.bytes = w := by
      intro w hw
      simp only [wantPrev, hlast, hlink.symm.trans hprev] at hw
      exact Option.some.inj hw
    simp [hv, hsucc.mpr hv, checkHashes_of_hashed (h.hashed e hmem) hprev hwant]
  · simp [hv, mt hsucc.mp hv]

/-- After a row of a chain, the checker refuses a list of later rows exactly when a version is missing
below one of them. -/
theorem feed_linked_isSome_iff (h : Linked c.sid (l :: es)) (hlast : c.last = some l)
    (herr : c.rep.err = none) (hbound : ∀ e ∈ l :: es, e.versionNat < 2 ^ 63) :
    (c.feed es).2.isSome ↔ ∃ b ∈ es, ∃ d, l.versionNat < d ∧ d < b.versionNat ∧
      ∀ e ∈ es, e.versionNat ≠ d := by
  induction es generalizing c l with
  | nil => simp [feed]
  | cons e es ih =>
    have hcheck := check_linked_iff h hlast (hbound l List.mem_cons_self)
    have hlt := List.pairwise_cons.mp h.sorted
    have hle := hlt.1 e List.mem_cons_self
    have hes := (List.pairwise_cons.mp hlt.2).1
    by_cases hv : e.versionNat = l.versionNat + 1
    · -- the next version: the checker goes on from there
      have hstep : c.feed (e :: es) = (c.accept e).feed es := by
        simp only [feed, next, herr, hcheck.mpr hv]
      rw [hstep, ih (c := c.accept e) h.tail rfl herr
        (fun x hx => hbound x (List.mem_cons_of_mem _ hx))]
      constructor
      · rintro ⟨b, hb, d, hed, hdb, hd⟩
        refine ⟨b, List.mem_cons_of_mem _ hb, d, by omega, hdb, fun x hx => ?_⟩
        rcases List.mem_cons.mp hx with rfl | hx
        · omega
        · exact hd x hx
      · rintro ⟨b, hb, d, hld, hdb, hd⟩
        have hde := hd e List.mem_cons_self
        rcases List.mem_cons.mp hb with rfl | hb
        · omega
        · exact ⟨b, hb, d, by omega, hdb, fun x hx => hd x (List.mem_cons_of_mem _ hx)⟩
    · -- a gap: the version after `l` is missing below `e`
      refine iff_of_true ?_ ⟨e, List.mem_cons_self, l.versionNat + 1, by omega, by omega, ?_⟩
      · have hne : c.check e ≠ .ok () := mt hcheck.mp hv
        simp only [feed, next, herr]
        cases hc : c.check e with
        | error cause => rfl
        | ok u => exact absurd hc hne
      · intro x hx
        rcases List.mem_cons.mp hx with rfl | hx
        · omega
        · have := hes x hx
          omega

/-- A fresh checker refuses rows of a chain exactly when a version between two of them is missing. -/
theorem feed_fresh_linked_isSome_iff (h : Linked sid es) (hbound : ∀ e ∈ es, e.versionNat < 2 ^ 63) :
    ((newChainChecker sid since).feed es).2.isSome ↔
      ∃ a ∈ es, ∃ b ∈ es, ∃ d, a.versionNat < d ∧ d < b.versionNat ∧
        ∀ e ∈ es, e.versionNat ≠ d := by
  cases es with
  | nil => simp [feed]
  | cons e es =>
    have hes := (List.pairwise_cons.mp h.sorted).1
    have hstep : (newChainChecker sid since).feed (e :: es) =
        ((newChainChecker sid since).accept e).feed es := by
      have hcheck := check_linked_fresh (c := newChainChecker sid since) h rfl
      simp only [feed, next, hcheck]
      rfl
    rw [hstep, feed_linked_isSome_iff (c := (newChainChecker sid since).accept e) h rfl rfl hbound]
    constructor
    · rintro ⟨b, hb, d, hed, hdb, hd⟩
      refine ⟨e, List.mem_cons_self, b, List.mem_cons_of_mem _ hb, d, hed, hdb, fun x hx => ?_⟩
      rcases List.mem_cons.mp hx with rfl | hx
      · omega
      · exact hd x hx
    · rintro ⟨a, ha, b, hb, d, had, hdb, hd⟩
      have hea : e.versionNat ≤ a.versionNat := by
        rcases List.mem_cons.mp ha with rfl | ha
        · exact le_rfl
        · exact (hes a ha).le
      rcases List.mem_cons.mp hb with rfl | hb
      · omega
      · exact ⟨b, hb, d, by omega, hdb, fun x hx => hd x (List.mem_cons_of_mem _ hx)⟩

/-- The first hashed version stays in the report. -/
theorem chainedFrom_of_feed (h : c.feed es = (c', none)) (hc : c.rep.chainedFrom ≠ 0) :
    c'.rep.chainedFrom = c.rep.chainedFrom := by
  induction es generalizing c with
  | nil =>
    cases h
    rfl
  | cons e es ih =>
    obtain ⟨-, -, h⟩ := feed_cons_eq_none.mp h
    have hacc : (c.accept e).rep.chainedFrom = c.rep.chainedFrom := by simp [accept, hc]
    rw [ih h (by rwa [hacc]), hacc]

/-- On rows of a chain, a fresh checker reports the first of them as the first hashed one. -/
theorem chainedFrom_of_feed_fresh (hl : Linked sid (e :: es))
    (h : (newChainChecker sid since).feed (e :: es) = (c', none)) : c'.rep.chainedFrom = e.version := by
  obtain ⟨-, -, h⟩ := feed_cons_eq_none.mp h
  have hpos := hl.pos e List.mem_cons_self
  have hacc : ((newChainChecker sid since).accept e).rep.chainedFrom = e.version := by
    simp [accept, hl.hashed e List.mem_cons_self, newChainChecker, ChainReport.new]
  rw [chainedFrom_of_feed h, hacc]
  rw [hacc]
  rintro h0
  rw [Envelope.versionNat, h0] at hpos
  exact lt_irrefl _ hpos

/-- **A chain is accepted**, from version 1 on, by a fresh checker. -/
theorem feed_chained (h : Chained sid es) (hne : es ≠ []) (hbound : ∀ e ∈ es, e.versionNat < 2 ^ 63) :
    ∃ c', (newChainChecker sid since).feed es = (c', none) ∧ c'.rep.chainedFrom = 1 := by
  have hlinked := h.toLinked
  rcases hfeed : (newChainChecker sid since).feed es with ⟨c', _ | err⟩
  · cases es with
    | nil => exact absurd rfl hne
    | cons e es =>
      refine ⟨c', rfl, ?_⟩
      rw [chainedFrom_of_feed_fresh hlinked hfeed, ← UInt64.toNat_inj]
      exact h.1.version
  · -- a chain has no gap to refuse
    exfalso
    have hrejected : ((newChainChecker sid since).feed es).2.isSome := by rw [hfeed]; rfl
    obtain ⟨a, ha, b, hb, d, had, hdb, hmiss⟩ :=
      (feed_fresh_linked_isSome_iff hlinked hbound).mp hrejected
    have hbn := (ChainFrom.mem_version h).mp ⟨b, hb, rfl⟩
    obtain ⟨e, he, hed⟩ := (ChainFrom.mem_version h).mpr
      (⟨by omega, by omega⟩ : 0 < d ∧ d ≤ 0 + es.length)
    exact hmiss e he hed

/-! ## What a checker that starts at version 1 accepts -/

/-- The checks an accepted envelope has passed. -/
theorem check_eq_ok (h : c.check e = .ok ()) :
    e.streamID = c.sid ∧ (∀ l, c.last = some l → e.version = l.version + 1) ∧
      c.checkHashes e = .ok () := by
  unfold check at h
  split at h
  · cases h
  · rename_i hsid
    refine ⟨not_not.mp hsid, ?_⟩
    split at h <;> rename_i hlast
    · split at h
      · cases h
      · rename_i hv
        refine ⟨fun l hl => ?_, h⟩
        rw [hlast] at hl
        cases hl
        exact not_not.mp hv
    · split at h
      · cases h
      · exact ⟨fun l hl => (by rw [hlast] at hl; cases hl), h⟩

/-- An accepted hashed row carries its own hash and the previous hash that was expected. -/
theorem checkHashed_eq_ok {b : Bytes} (h : c.checkHashed e b = .ok ()) :
    b = (envelopeHash e).bytes ∧
      ∃ d : Digest, e.prevHash = some d.bytes ∧ ∀ w, c.wantPrev e = some w → d.bytes = w := by
  unfold checkHashed at h
  split at h
  · cases h
  split at h
  · cases h
  rename_i hprev
  split at h
  · cases h
  rename_i hlink
  split at h
  · cases h
  rename_i hhash
  refine ⟨(not_not.mp hhash).symm, ?_⟩
  cases hp : e.prevHash with
  | none =>
    rw [hp] at hprev
    exact absurd (by decide) hprev
  | some p =>
    rw [hp] at hprev hlink
    refine ⟨⟨p, not_not.mp hprev⟩, rfl, fun w hw => ?_⟩
    rw [hw] at hlink
    simpa using hlink

/-- A row that the checker accepts after a hashed one is the next row of the chain. -/
theorem chainRow_of_check {d : Digest} (hlast : c.last = some l) (hhash : l.hash = some d.bytes)
    (h : c.check e = .ok ()) (hbound : l.versionNat < 2 ^ 63) : ChainRow c.sid l.versionNat d e := by
  obtain ⟨hsid, hversion, hhashes⟩ := check_eq_ok h
  have hversion : e.versionNat = l.versionNat + 1 := by
    simp only [Envelope.versionNat] at hbound ⊢
    rw [hversion l hlast, UInt64.toNat_add, show (1 : UInt64).toNat = 1 from rfl]
    omega
  unfold checkHashes at hhashes
  split at hhashes
  · -- an unhashed row is refused after a hashed one
    exfalso
    simp only [checkUnhashed, hlast, Option.bind_some, hhash, Option.isSome_some, if_true] at hhashes
    split at hhashes <;> cases hhashes
  · rename_i b heq
    obtain ⟨hb, p, hp, hwant⟩ := checkHashed_eq_ok hhashes
    have hpd : p.bytes = d.bytes := hwant d.bytes (by simp only [wantPrev, hlast, hhash])
    exact ⟨hsid, hversion, by rw [hp, hpd], by rw [heq, hb]⟩

/-- What the checker accepts after a hashed row continues the chain. -/
theorem chainFrom_of_feed {d : Digest} (h : c.feed es = (c', none)) (hlast : c.last = some l)
    (hhash : l.hash = some d.bytes) (hbound : ∀ e ∈ l :: es, e.versionNat < 2 ^ 63) :
    ChainFrom c.sid l.versionNat d es := by
  induction es generalizing c l d with
  | nil => trivial
  | cons e es ih =>
    obtain ⟨-, hcheck, h⟩ := feed_cons_eq_none.mp h
    have hrow := chainRow_of_check hlast hhash hcheck (hbound l List.mem_cons_self)
    refine ⟨hrow, ?_⟩
    rw [← hrow.version]
    exact ih (c := c.accept e) h rfl hrow.hashed
      (fun x hx => hbound x (List.mem_cons_of_mem _ hx))

/-- Once past version 1, the checker does not report it as the first hashed version any more. -/
theorem chainedFrom_ne_one_of_feed (h : c.feed es = (c', none)) (hlast : c.last = some l)
    (hpos : 1 ≤ l.versionNat) (hbound : ∀ e ∈ l :: es, e.versionNat < 2 ^ 63)
    (hc : c.rep.chainedFrom ≠ 1) : c'.rep.chainedFrom ≠ 1 := by
  induction es generalizing c l with
  | nil =>
    cases h
    exact hc
  | cons e es ih =>
    obtain ⟨-, hcheck, h⟩ := feed_cons_eq_none.mp h
    have hl := hbound l List.mem_cons_self
    have hv : e.versionNat = l.versionNat + 1 := by
      simp only [Envelope.versionNat] at hl ⊢
      rw [(check_eq_ok hcheck).2.1 l hlast, UInt64.toNat_add, show (1 : UInt64).toNat = 1 from rfl]
      omega
    refine ih (c := c.accept e) h rfl (by omega)
      (fun x hx => hbound x (List.mem_cons_of_mem _ hx)) ?_
    simp only [accept]
    split
    · intro h1
      rw [Envelope.versionNat, h1, show (1 : UInt64).toNat = 1 from rfl] at hv
      omega
    · exact hc

/-- **What a fresh checker accepts from a hashed row on is a chain**: it takes the first link as given,
unless it is that of version 1. -/
theorem chainFrom_of_feed_fresh (h : (newChainChecker sid since).feed es = (c', none))
    (hfirst : ∀ e ∈ es.head?, e.versionNat = n + 1 ∧ e.hash.isSome)
    (hbound : ∀ e ∈ es, e.versionNat < 2 ^ 63) :
    ∃ prev : Digest, (n = 0 → prev = zeroHash) ∧ ChainFrom sid n prev es := by
  cases es with
  | nil => exact ⟨zeroHash, fun _ => rfl, trivial⟩
  | cons e es =>
    obtain ⟨-, hcheck, h⟩ := feed_cons_eq_none.mp h
    obtain ⟨hsid, -, hhashes⟩ := check_eq_ok hcheck
    obtain ⟨hv, hhash⟩ := hfirst e rfl
    obtain ⟨b, hb⟩ := Option.isSome_iff_exists.mp hhash
    simp only [checkHashes, hb] at hhashes
    obtain ⟨rfl, p, hp, hwant⟩ := checkHashed_eq_ok hhashes
    refine ⟨p, fun hn => FixedBytes.ext ?_, ⟨hsid, hv, hp, hb⟩, ?_⟩
    · have hone : e.version = 1 := by
        rw [hn] at hv
        exact UInt64.toNat_inj.mp hv
      exact hwant _ (by simp [wantPrev, newChainChecker, hone])
    · rw [← hv]
      exact chainFrom_of_feed (c := (newChainChecker sid since).accept e) h rfl hb hbound

/-- **What a fresh checker accepts is a chain**, if it starts at version 1 and reports it as the first
hashed version. -/
theorem chained_of_feed (h : (newChainChecker sid since).feed es = (c', none))
    (hfirst : es.head?.map (·.version) = some 1) (hfrom : c'.rep.chainedFrom = 1)
    (hbound : ∀ e ∈ es, e.versionNat < 2 ^ 63) : Chained sid es := by
  have hhead : ∀ e ∈ es.head?, e.versionNat = 0 + 1 ∧ e.hash.isSome := by
    intro e he
    rw [Option.mem_def] at he
    rw [he, Option.map_some, Option.some.injEq] at hfirst
    have hvn : e.versionNat = 1 := by rw [Envelope.versionNat, hfirst]; rfl
    refine ⟨hvn, ?_⟩
    obtain ⟨es, rfl⟩ := List.head?_eq_some_iff.mp he
    obtain ⟨-, -, hrest⟩ := feed_cons_eq_none.mp h
    by_contra hnone
    -- with version 1 unhashed, the first hashed version would be a later one
    have hnone : e.hash = none := Option.not_isSome_iff_eq_none.mp hnone
    refine chainedFrom_ne_one_of_feed hrest rfl hvn.ge hbound ?_ hfrom
    simp [accept, hnone, newChainChecker, ChainReport.new]
  obtain ⟨prev, hprev, hchain⟩ := chainFrom_of_feed_fresh h hhead hbound
  rw [hprev rfl] at hchain
  exact hchain

end ChainChecker

end EsLite
