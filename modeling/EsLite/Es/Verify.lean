import EsLite.Foundation.Windows
import EsLite.Es.Hash

/-!
# Verifying a stream's hash chain

`ChainChecker` takes a stream's envelopes one at a time in version order and checks contiguity,
linkage and every hash. `verifyStreamWith` drives it over a whole stream, reading the store page by
page: by version range, but stopping on the number of rows. `verifyStreamWith_spec` says what that
amounts to on any stream: the checker sees exactly the rows up to the end of the page that holds the
lowest missing version.
-/

namespace EsLite

/-! ## Reports and errors -/

/-- Why `check` refuses an envelope. -/
inductive CheckError : Type where
  /-- `envelope belongs to stream %s` -/
  | otherStream (sid : StreamID)
  /-- `version not contiguous: previous %d` -/
  | notContiguous (previous : UInt64)
  /-- `version 0` -/
  | versionZero
  /-- `prev_hash set on an unhashed row` -/
  | prevHashOnUnhashed
  /-- `unhashed row after a chained one` -/
  | unhashedAfterChained
  /-- `unhashed row recorded at %s, after the chain started at %s` -/
  | unhashedSince (recordedAt chainedSince : Time)
  /-- `hash is %d bytes, want %d` -/
  | hashLength (len : Nat)
  /-- `prev_hash is %d bytes, want %d` -/
  | prevHashLength (len : Nat)
  /-- `prev_hash does not link to the previous version` -/
  | notLinked
  /-- `stored hash does not match the recomputed hash` -/
  | hashMismatch
deriving DecidableEq

/-- An error wrapping `ErrChainBroken`. -/
inductive ChainError : Type where
  /-- `stream %s v%d: %v` -/
  | at (sid : StreamID) (version : UInt64) (cause : CheckError)
  /-- `stream %s chained from version %d, strict mode requires 1` -/
  | strict (sid : StreamID) (chainedFrom : UInt64)
deriving DecidableEq

/-- The outcome of verifying one stream's chain. -/
@[ext] structure ChainReport where
  streamID : StreamID
  /-- The first version carrying a hash; 0 when there is none. -/
  chainedFrom : UInt64
  /-- The highest version accepted. -/
  head : UInt64
  /-- The stored hash of the head. -/
  headHash : Option Bytes
  /-- The first version that failed; 0 when the chain is intact. -/
  brokenAt : UInt64
  err : Option ChainError
deriving DecidableEq

/-- The report of a checker that has seen nothing. -/
def ChainReport.new (sid : StreamID) : ChainReport := ⟨sid, 0, 0, none, 0, none⟩

/-- The options of `verifyStreamWith`. -/
structure VerifyOptions where
  /-- When the chain was introduced; zero disables the check. -/
  chainedSince : Time
  /-- Whether every row must be attested. -/
  strict : Bool
  /-- The batch size; 500 when it is not positive. -/
  page : Int64
deriving DecidableEq

/-! ## The checker -/

/-- A checker part way through a stream. -/
@[ext] structure ChainChecker where
  chainedSince : Time
  sid : StreamID
  /-- The envelope accepted last; `none` before the checker has started. -/
  last : Option Envelope
  rep : ChainReport
deriving DecidableEq

/-- A fresh checker for `sid`. -/
def newChainChecker (sid : StreamID) (chainedSince : Time) : ChainChecker :=
  ⟨chainedSince, sid, none, .new sid⟩

namespace ChainChecker

/-- What an unhashed row must satisfy. -/
def checkUnhashed (c : ChainChecker) (e : Envelope) : Except CheckError Unit :=
  if e.prevHash.isSome then .error .prevHashOnUnhashed
  else if (c.last.bind (·.hash)).isSome then .error .unhashedAfterChained
  else if !c.chainedSince.isZero && c.chainedSince.ns < e.recordedAt.ns then
    .error (.unhashedSince e.recordedAt c.chainedSince)
  else .ok ()

/-- The `prev_hash` that the next envelope must carry, when it can be known. -/
def wantPrev (c : ChainChecker) (e : Envelope) : Option Bytes :=
  match c.last with
  | none => if e.version = 1 then some zeroHash.bytes else none
  | some l =>
    match l.hash with
    | none => some (unchainedHeadHash c.sid l.version).bytes
    | some h => some h

/-- What a row with the stored hash `hash` must satisfy. -/
def checkHashed (c : ChainChecker) (e : Envelope) (hash : Bytes) : Except CheckError Unit :=
  if hash.length ≠ hashSize then .error (.hashLength hash.length)
  else if (e.prevHash.getD []).length ≠ hashSize then
    .error (.prevHashLength (e.prevHash.getD []).length)
  else if (c.wantPrev e).any (fun want => e.prevHash.getD [] != want) then .error .notLinked
  else if (envelopeHash e).bytes ≠ hash then .error .hashMismatch
  else .ok ()

/-- The checks on the two stored hashes. -/
def checkHashes (c : ChainChecker) (e : Envelope) : Except CheckError Unit :=
  match e.hash with
  | none => c.checkUnhashed e
  | some hash => c.checkHashed e hash

/-- Whether `e` may follow what the checker has accepted. -/
def check (c : ChainChecker) (e : Envelope) : Except CheckError Unit :=
  if e.streamID ≠ c.sid then .error (.otherStream e.streamID)
  else
    match c.last with
    | some l =>
      if e.version ≠ l.version + 1 then .error (.notContiguous l.version) else c.checkHashes e
    | none => if e.version = 0 then .error .versionZero else c.checkHashes e

/-- The checker after it has accepted `e`. -/
def accept (c : ChainChecker) (e : Envelope) : ChainChecker :=
  { c with
    last := some e
    rep := { c.rep with
      chainedFrom := if e.hash.isSome && c.rep.chainedFrom == 0 then e.version
        else c.rep.chainedFrom
      head := e.version
      headHash := e.hash } }

/-- Verify `e` against the envelope before it. Once broken, the checker stays broken. -/
def next (c : ChainChecker) (e : Envelope) : ChainChecker × Option ChainError :=
  match c.rep.err with
  | some err => (c, some err)
  | none =>
    match c.check e with
    | .error cause =>
      let err := ChainError.at c.sid e.version cause
      ({ c with rep := { c.rep with brokenAt := e.version, err := some err } }, some err)
    | .ok () => (c.accept e, none)

/-- Feed envelopes to the checker up to its first error. -/
def feed (c : ChainChecker) : List Envelope → ChainChecker × Option ChainError
  | [] => (c, none)
  | e :: es =>
    match c.next e with
    | (c', some err) => (c', some err)
    | (c', none) => feed c' es

end ChainChecker

/-! ## The driver -/

/-- An error of a store read. -/
inductive StoreError : Type where
  /-- An error wrapping one of the sentinels. -/
  | sentinel (s : Sentinel)
  /-- An error of the database. -/
  | backend (text : Bytes)
deriving DecidableEq

/-- What verification uses of a store: `ReadStream(sid, from, to)`. -/
structure Store where
  readStream : StreamID → UInt64 → UInt64 → List Envelope × Option StoreError

/-- What `verifyStreamWith` can fail with. -/
inductive VerifyError : Type where
  /-- The stream id is invalid. -/
  | invalid (s : Sentinel)
  /-- The store failed. -/
  | store (e : StoreError)
  /-- The chain is broken: `errors.Is(err, ErrChainBroken)`. -/
  | chain (e : ChainError)
deriving DecidableEq

/-- The effective page size. -/
def VerifyOptions.pageSize (opts : VerifyOptions) : Nat :=
  if opts.page ≤ 0 then 500 else opts.page.toInt.toNat

/-- The paging loop from version `fromVersion` on; `none` when the fuel runs out. -/
def verifyLoop (store : Store) (sid : StreamID) (page : Nat) :
    Nat → UInt64 → ChainChecker → Option (ChainChecker × Option VerifyError)
  | 0, _, _ => none
  | fuel + 1, fromVersion, c =>
    let (envs, err) := store.readStream sid fromVersion (fromVersion + UInt64.ofNat page)
    match err.filter (· ≠ .sentinel .streamNotFound) with
    | some err => some (c, some (.store err))
    | none =>
      match c.feed envs with
      | (c', some err) => some (c', some (.chain err))
      | (c', none) =>
        if envs.length < page then some (c', none)
        else
          match envs.getLast? with
          | some e => verifyLoop store sid page fuel e.version c'
          -- a page holds at least one row, so an empty one is never full
          | none => none

/-- The rule of strict mode, applied to the report of an unbroken chain. -/
def strictRule (opts : VerifyOptions) (sid : StreamID) (rep : ChainReport) :
    ChainReport × Option VerifyError :=
  if opts.strict && 0 < rep.head && rep.chainedFrom != 1 then
    let err := ChainError.strict sid rep.chainedFrom
    ({ rep with brokenAt := 1, err := some err }, some (.chain err))
  else (rep, none)

/-- What is returned once the rows have been fed to the checker. -/
def finish (opts : VerifyOptions) (sid : StreamID) (r : ChainChecker × Option VerifyError) :
    ChainReport × Option VerifyError :=
  match r.2 with
  | some err => (r.1.rep, some err)
  | none => strictRule opts sid r.1.rep

/-- Verify the hash chain of one stream, reading it page by page. -/
def verifyStreamWith (fuel : Nat) (store : Store) (sid : StreamID) (opts : VerifyOptions) :
    Option (ChainReport × Option VerifyError) :=
  match sid.validate with
  | .error s => some (.new sid, some (.invalid s))
  | .ok () =>
    (verifyLoop store sid opts.pageSize fuel 0 (newChainChecker sid opts.chainedSince)).map
      (finish opts sid)

theorem VerifyOptions.pageSize_pos (opts : VerifyOptions) : 0 < opts.pageSize := by
  unfold pageSize
  split
  · decide
  · rename_i h
    have := Int64.not_le.mp h
    rw [Int64.lt_iff_toInt_lt] at this
    simp only [Int64.toInt_zero] at this
    omega

theorem VerifyOptions.pageSize_lt (opts : VerifyOptions) : opts.pageSize < 2 ^ 63 := by
  unfold pageSize
  split
  · decide
  · have := opts.page.toInt_lt
    omega

/-! ## What the checker reports -/

variable {es rows : List Envelope} {sid : StreamID} {store : Store}

namespace ChainChecker

/-- An unbroken checker accepts a list when it accepts the head and then the tail. -/
theorem feed_cons_eq_none {c c' : ChainChecker} {e : Envelope} :
    c.feed (e :: es) = (c', none) ↔
      c.rep.err = none ∧ c.check e = .ok () ∧ (c.accept e).feed es = (c', none) := by
  simp only [feed, next]
  cases herr : c.rep.err with
  | some err => simp
  | none =>
    cases hcheck : c.check e with
    | error cause => simp
    | ok u => simp

/-- An unbroken checker refuses a list when it refuses the head, or accepts it and refuses the tail. -/
theorem feed_cons_eq_some {c c' : ChainChecker} {e : Envelope} {err : ChainError} (hc : c.rep.err = none)
    (h : c.feed (e :: es) = (c', some err)) :
    (c'.rep.brokenAt = e.version ∧ ∃ cause, c.check e = .error cause) ∨
      (c.check e = .ok () ∧ (c.accept e).feed es = (c', some err)) := by
  simp only [feed, next, hc] at h
  cases hcheck : c.check e with
  | error cause =>
    rw [hcheck] at h
    cases h
    exact .inl ⟨rfl, cause, rfl⟩
  | ok u =>
    rw [hcheck] at h
    exact .inr ⟨rfl, h⟩

/-- What accepting a list leaves in the report: the last version as head, and nothing broken. -/
theorem rep_of_feed {c c' : ChainChecker} (h : c.feed es = (c', none)) :
    c'.rep.head = (es.getLast?.map (·.version)).getD c.rep.head ∧
      c'.rep.brokenAt = c.rep.brokenAt ∧ c'.rep.err = c.rep.err := by
  induction es generalizing c with
  | nil =>
    cases h
    exact ⟨rfl, rfl, rfl⟩
  | cons e es ih =>
    obtain ⟨-, -, h⟩ := feed_cons_eq_none.mp h
    obtain ⟨hhead, hbroken⟩ := ih h
    refine ⟨?_, hbroken⟩
    rw [hhead]
    cases es with
    | nil => rfl
    | cons e' es' => simp [List.getLast?_eq_some_getLast]

/-- Refusing a list reports the version of one of its envelopes. -/
theorem brokenAt_of_feed {c c' : ChainChecker} {err : ChainError} (hc : c.rep.err = none)
    (h : c.feed es = (c', some err)) : ∃ e ∈ es, c'.rep.brokenAt = e.version := by
  induction es generalizing c with
  | nil => cases h
  | cons e es ih =>
    rcases feed_cons_eq_some hc h with ⟨hb, -⟩ | ⟨-, h⟩
    · exact ⟨e, List.mem_cons_self, hb⟩
    · obtain ⟨e', he', hb⟩ := ih (c := c.accept e) hc h
      exact ⟨e', List.mem_cons_of_mem _ he', hb⟩

/-- Feeding a list in two parts. -/
theorem feed_append (c : ChainChecker) (xs ys : List Envelope) :
    c.feed (xs ++ ys) =
      match c.feed xs with
      | (c', some err) => (c', some err)
      | (c', none) => c'.feed ys := by
  induction xs generalizing c with
  | nil => rfl
  | cons e es ih =>
    simp only [List.cons_append, feed]
    rcases c.next e with ⟨c', _ | err⟩
    · exact ih c'
    · rfl

end ChainChecker

/-! ## A store that serves a stream -/

/-- The version of an envelope as a natural number. -/
def Envelope.versionNat (e : Envelope) : Nat := e.version.toNat

/-- The rows with versions in `(fromVersion, toVersion]`; 0 means no upper bound. -/
def window (rows : List Envelope) (fromVersion toVersion : UInt64) : List Envelope :=
  rows.filter (fun e => fromVersion < e.version && (toVersion == 0 || e.version ≤ toVersion))

/-- `store` serves `rows` as the content of the stream `sid`: any envelopes with distinct positive
versions below `2 ^ 62`, in version order. Arguments up to the signed 64-bit bound of the databases
are answered by the rows of that range; an empty range may be reported as a missing stream. -/
structure Serves (store : Store) (sid : StreamID) (rows : List Envelope) : Prop where
  valid : sid.Valid
  sorted : SortedBy Envelope.versionNat rows
  pos : ∀ e ∈ rows, 0 < e.versionNat
  bound : ∀ e ∈ rows, e.versionNat < 2 ^ 62
  read : ∀ fromVersion toVersion : UInt64, fromVersion.toNat < 2 ^ 63 → toVersion.toNat < 2 ^ 63 →
    store.readStream sid fromVersion toVersion = (window rows fromVersion toVersion, none) ∨
    (window rows fromVersion toVersion = [] ∧
      store.readStream sid fromVersion toVersion = ([], some (.sentinel .streamNotFound)))

/-- The store that holds one stream in memory. -/
def Store.ofRows (sid : StreamID) (rows : List Envelope) : Store where
  readStream s fromVersion toVersion :=
    if s = sid then (window rows fromVersion toVersion, none) else ([], none)

theorem Serves.ofRows (valid : sid.Valid) (sorted : SortedBy Envelope.versionNat rows)
    (pos : ∀ e ∈ rows, 0 < e.versionNat) (bound : ∀ e ∈ rows, e.versionNat < 2 ^ 62) :
    Serves (.ofRows sid rows) sid rows :=
  ⟨valid, sorted, pos, bound, fun _ _ _ _ => .inl (if_pos rfl)⟩

/-- A window with an upper bound is a window of the sorted list. -/
theorem window_eq_upTo {a b : UInt64} (hb : b ≠ 0) :
    window rows a b = upTo Envelope.versionNat b.toNat (above Envelope.versionNat a.toNat rows) := by
  simp only [window, upTo, above, List.filter_filter]
  refine List.filter_congr (fun e _ => ?_)
  simp only [Envelope.versionNat, UInt64.lt_iff_toNat_lt, UInt64.le_iff_toNat_le]
  by_cases h1 : a.toNat < e.version.toNat <;> by_cases h2 : e.version.toNat ≤ b.toNat <;>
    simp [h1, h2, hb]

/-- The window without bounds is everything. -/
theorem window_zero_zero (h : ∀ e ∈ rows, 0 < e.versionNat) : window rows 0 0 = rows := by
  refine List.filter_eq_self.mpr (fun e he => ?_)
  have := h e he
  simpa [Envelope.versionNat, UInt64.lt_iff_toNat_lt] using this

/-- What a read of a served stream comes to, whether or not an empty range is an error. -/
theorem Serves.readStream_eq (h : Serves store sid rows) {a b : UInt64} (ha : a.toNat < 2 ^ 63)
    (hb : b.toNat < 2 ^ 63) :
    (store.readStream sid a b).1 = window rows a b ∧
    (store.readStream sid a b).2.filter (· ≠ .sentinel .streamNotFound) = none := by
  rcases h.read a b ha hb with h | ⟨hw, h⟩
  · rw [h]
    exact ⟨rfl, rfl⟩
  · rw [h, hw]
    exact ⟨rfl, by simp⟩

/-! ## What the paging loop feeds to the checker -/

/-- The checker's result as the loop returns it. -/
def ofFeed (r : ChainChecker × Option ChainError) : ChainChecker × Option VerifyError :=
  (r.1, r.2.map .chain)

/-- **The paging loop**, from the end of a page on: with fuel for the rows left, it feeds the checker
the rows above it up to the end of the first page that is not full. -/
theorem verifyLoop_eq (h : Serves store sid rows) {p : Nat} (hp : 0 < p) (hp' : p < 2 ^ 63) {fuel : Nat}
    {a : UInt64} (ha : a.toNat = 0 ∨ (a.toNat < 2 ^ 62 ∧ p ≤ a.toNat)) (c : ChainChecker)
    (hfuel : (above Envelope.versionNat a.toNat rows).length < fuel) :
    verifyLoop store sid p fuel a c =
      some (ofFeed (c.feed (upTo Envelope.versionNat
        (windowEnd Envelope.versionNat p a.toNat (above Envelope.versionNat a.toNat rows))
        (above Envelope.versionNat a.toNat rows)))) := by
  induction fuel generalizing a c with
  | zero => omega
  | succ fuel ih =>
    have hadd : (a + UInt64.ofNat p).toNat = a.toNat + p := by
      have hofNat : (UInt64.ofNat p).toNat = p :=
        UInt64.toNat_ofNat_of_lt' (hp'.trans (by decide))
      rw [UInt64.toNat_add, hofNat]
      omega
    have hne : a + UInt64.ofNat p ≠ 0 := fun h0 => by
      rw [h0] at hadd
      simp only [UInt64.toNat_zero] at hadd
      omega
    set rest := above Envelope.versionNat a.toNat rows with hrest
    have hsorted : SortedBy Envelope.versionNat rest := h.sorted.above
    have habove : ∀ e ∈ rest, a.toNat < e.versionNat := fun e he => (mem_above.mp he).2
    obtain ⟨henvs, herr⟩ := h.readStream_eq (a := a) (b := a + UInt64.ofNat p) (by omega)
      (by rw [hadd]; omega)
    rw [window_eq_upTo hne, hadd, ← hrest] at henvs
    rcases hread : store.readStream sid a (a + UInt64.ofNat p) with ⟨envs, err⟩
    rw [hread] at henvs herr
    simp only at henvs herr
    subst henvs
    simp only [verifyLoop, hread, herr]
    rcases (length_upTo_le hsorted habove : (upTo _ (a.toNat + p) rest).length ≤ p).lt_or_eq
      with hlt | hfull
    · -- a page that is not full: the loop ends here
      rw [windowEnd_of_not_full hlt]
      rcases c.feed (upTo Envelope.versionNat (a.toNat + p) rest) with ⟨c', _ | err⟩
      · simp [hlt, ofFeed]
      · rfl
    · -- a full page: its last row is at the window's end, where the loop goes on
      obtain ⟨e, hlast, hversion⟩ := getLast_of_full hsorted habove hp hfull
      have habove' : above Envelope.versionNat e.version.toNat rows =
          above Envelope.versionNat (a.toNat + p) rest := by
        rw [hrest, above_above (by omega)]
        exact congrArg (above Envelope.versionNat · rows) hversion
      have hmem : e ∈ rows :=
        (mem_above.mp (mem_upTo.mp (List.mem_of_getLast? hlast)).1).1
      have hbound := h.bound e hmem
      have hlen : (above Envelope.versionNat (a.toNat + p) rest).length + p = rest.length := by
        have := congrArg List.length (upTo_append_above hsorted (a.toNat + p))
        rw [List.length_append] at this
        omega
      rw [windowEnd_of_full hsorted habove hp hfull,
        upTo_eq_append hsorted ((Nat.le_add_right _ _).trans (le_windowEnd p (a.toNat + p) _)),
        ChainChecker.feed_append]
      rcases c.feed (upTo Envelope.versionNat (a.toNat + p) rest) with ⟨c', _ | err⟩
      · simp only [hfull, lt_irrefl, if_false, hlast]
        rw [ih (.inr ⟨hbound, by simp only [Envelope.versionNat] at hversion; omega⟩) c'
          (by rw [habove']; omega), habove']
        simp only [Envelope.versionNat] at hversion
        rw [hversion]
      · rfl

/-- The last version that verification with page size `p` looks at. -/
def lastRead (p : Nat) (rows : List Envelope) : Nat := windowEnd Envelope.versionNat p 0 rows

/-- **What verification does.** With fuel for the rows of the stream, `verifyStreamWith` returns what
the checker says of the rows up to `lastRead`. -/
theorem verifyStreamWith_spec (h : Serves store sid rows) (opts : VerifyOptions) {fuel : Nat}
    (hfuel : rows.length < fuel) :
    verifyStreamWith fuel store sid opts =
      some (finish opts sid (ofFeed ((newChainChecker sid opts.chainedSince).feed
        (upTo Envelope.versionNat (lastRead opts.pageSize rows) rows)))) := by
  have hall : above Envelope.versionNat (0 : UInt64).toNat rows = rows :=
    List.filter_eq_self.mpr (fun e he => decide_eq_true (h.pos e he))
  have hloop := verifyLoop_eq h opts.pageSize_pos opts.pageSize_lt (a := 0) (.inl rfl)
    (newChainChecker sid opts.chainedSince) (by rw [hall]; exact hfuel)
  rw [hall] at hloop
  simp only [verifyStreamWith, show sid.validate = .ok () from h.valid, hloop]
  rfl

end EsLite
