import EsLite.Es.Verify

/-!
# The storage contract

The inputs and results of `Append`, shared by the storage adapters: a batch of encoded events for one
stream, uniqueness operations applied with it, and the audit metadata of the command behind it.
-/

namespace EsLite

/-- The kind of a uniqueness operation. -/
inductive ConstraintOpKind : Type where
  | claimOp
  | releaseOp
  /-- Any other value of the underlying byte. -/
  | unknown (kind : UInt8)
deriving DecidableEq

/-- A uniqueness operation, applied in the transaction of the append. -/
structure ConstraintOp where
  op : ConstraintOpKind
  scope : Bytes
  value : Bytes
deriving DecidableEq

/-- A uniqueness operation has a known kind and a scope. -/
def ConstraintOp.validate (o : ConstraintOp) : Except Sentinel Unit :=
  match o.op with
  | .unknown _ => .error .invalidConstraint
  | _ => if o.scope = [] then .error .invalidConstraint else .ok ()

/-- One event to append; a zero id is replaced by a fresh one. -/
structure EventData where
  eventID : UUID
  typeURL : Bytes
  schemaVersion : UInt32
  payload : Option Bytes
deriving DecidableEq

/-- The input of `Append`. -/
structure AppendParams where
  streamID : StreamID
  /-- The version the caller believes is current. -/
  expectedVersion : UInt64
  events : List EventData
  constraints : List ConstraintOp
  commandID : UUID
  correlationID : UUID
  causationID : UUID
  actor : Actor
  occurredAt : Time
deriving DecidableEq

/-- What an append committed. -/
structure AppendResult where
  fromVersion : UInt64
  toVersion : UInt64
  envelopes : List Envelope
deriving DecidableEq

/-- Why an append failed. -/
inductive AppendError : Type where
  /-- The stream id or an operation is malformed. -/
  | invalid (s : Sentinel)
  /-- `ErrPayloadTooLarge: stream %s v%d, type %s, payload %d bytes exceeds cap %d` -/
  | payloadTooLarge (sid : StreamID) (version : UInt64) (typeURL : Bytes) (size : Nat) (cap : Int)
  /-- `ErrConflict: stream %s at v%d, expected v%d` -/
  | conflict (sid : StreamID) (current expected : UInt64)
  /-- `ErrConflict: stream %s v%d`: the insert lost a race -/
  | conflictAt (sid : StreamID) (version : UInt64)
  /-- `ErrConstraintViolated: %s=%q` -/
  | constraintViolated (scope value : Bytes)
  /-- An error of the database. -/
  | backend (text : Bytes)
deriving DecidableEq

/-- The sentinel that `errors.Is` finds in an append error. -/
def AppendError.sentinel : AppendError → Option Sentinel
  | .invalid s => some s
  | .payloadTooLarge .. => some .payloadTooLarge
  | .conflict .. | .conflictAt .. => some .conflict
  | .constraintViolated .. => some .constraintViolated
  | .backend _ => none

/-- The first event of a batch whose payload exceeds the cap, as the error that rejects the batch.
The version is the one the event would take; a cap that is not positive is no cap. -/
def checkPayloads (cap : Int) (sid : StreamID) : UInt64 → List EventData → Except AppendError Unit
  | _, [] => .ok ()
  | version, ev :: evs =>
    if 0 < cap ∧ cap < (ev.payload.getD []).length then
      .error (.payloadTooLarge sid (version + 1) ev.typeURL (ev.payload.getD []).length cap)
    else checkPayloads cap sid (version + 1) evs

/-- The first operation that does not validate. -/
def checkConstraints : List ConstraintOp → Except AppendError Unit
  | [] => .ok ()
  | o :: os =>
    match o.validate with
    | .error s => .error (.invalid s)
    | .ok () => checkConstraints os

/-- The category and id of an actor as one string, empty for no actor. -/
def Actor.principal (a : Actor) : Bytes :=
  if a.type = [] ∧ a.id = [] then [] else a.type ++ 58 :: a.id

/-! ## Scanning result rows -/

/-- Scan rows up to the first that does not scan. -/
def scanAll {α β : Type} (scan : α → Except StoreError β) : List α → Except StoreError (List β)
  | [] => .ok []
  | r :: rs =>
    match scan r with
    | .error e => .error e
    | .ok x =>
      match scanAll scan rs with
      | .error e => .error e
      | .ok xs => .ok (x :: xs)

/-- A scan that succeeds scans every row. -/
theorem scanAll_eq_ok {α β : Type} {scan : α → Except StoreError β} {rs : List α} {xs : List β} :
    scanAll scan rs = .ok xs ↔ rs.map scan = xs.map .ok := by
  induction rs generalizing xs with
  | nil =>
    cases xs with
    | nil => simp [scanAll]
    | cons x xs => simp [scanAll]
  | cons r rs ih =>
    simp only [scanAll]
    cases hr : scan r with
    | error e => cases xs <;> simp [hr]
    | ok x =>
      cases hrs : scanAll scan rs with
      | error e =>
        cases xs with
        | nil => simp
        | cons y ys =>
          simp only [List.map_cons, hr, List.cons.injEq, reduceCtorEq, false_iff, not_and]
          intro _ hmap
          rw [ih.mpr hmap] at hrs
          cases hrs
      | ok zs =>
        have hzs := ih.mp hrs
        cases xs with
        | nil => simp
        | cons y ys =>
          simp only [List.map_cons, hr, List.cons.injEq, Except.ok.injEq, ← ih, hrs]

/-- A scan that fails does so with the error of a row. -/
theorem scanAll_eq_error {α β : Type} {scan : α → Except StoreError β} {rs : List α} {e : StoreError}
    (h : scanAll scan rs = .error e) : ∃ r ∈ rs, scan r = .error e := by
  induction rs with
  | nil => cases h
  | cons r rs ih =>
    simp only [scanAll] at h
    split at h
    · rename_i hr
      cases h
      exact ⟨r, List.mem_cons_self, hr⟩
    · split at h
      · rename_i hrs
        cases h
        obtain ⟨r', hr', hscan⟩ := ih hrs
        exact ⟨r', List.mem_cons_of_mem _ hr', hscan⟩
      · cases h

/-- Scanning succeeds when every row scans. -/
theorem exists_scanAll {α β : Type} {scan : α → Except StoreError β} {rs : List α}
    (h : ∀ r ∈ rs, ∃ x, scan r = .ok x) : ∃ xs, scanAll scan rs = .ok xs := by
  induction rs with
  | nil => exact ⟨[], rfl⟩
  | cons r rs ih =>
    obtain ⟨x, hx⟩ := h r List.mem_cons_self
    obtain ⟨xs, hxs⟩ := ih (fun s hs => h s (List.mem_cons_of_mem _ hs))
    exact ⟨x :: xs, by simp only [scanAll, hx, hxs]⟩

/-- Every row of a scan that succeeded scans to one of its results. -/
theorem exists_of_scanAll {α β : Type} {scan : α → Except StoreError β} {rs : List α} {xs : List β}
    (h : scanAll scan rs = .ok xs) {r : α} (hr : r ∈ rs) : ∃ x ∈ xs, scan r = .ok x := by
  have hmem : scan r ∈ xs.map Except.ok := by
    rw [← scanAll_eq_ok.mp h]
    exact List.mem_map_of_mem hr
  obtain ⟨x, hx, hxr⟩ := List.mem_map.mp hmem
  exact ⟨x, hx, hxr.symm⟩

/-- Every result of a scan comes from one of its rows. -/
theorem exists_row_of_scanAll {α β : Type} {scan : α → Except StoreError β} {rs : List α} {xs : List β}
    (h : scanAll scan rs = .ok xs) {x : β} (hx : x ∈ xs) : ∃ r ∈ rs, scan r = .ok x := by
  have hmem : Except.ok x ∈ rs.map scan := by
    rw [scanAll_eq_ok.mp h]
    exact List.mem_map_of_mem hx
  obtain ⟨r, hr, hxr⟩ := List.mem_map.mp hmem
  exact ⟨r, hr, hxr⟩

/-- Rows that are changed, and scan to changed results. -/
theorem scanAll_map {α β α' β' : Type} {scan : α → Except StoreError β}
    {scan' : α' → Except StoreError β'} {f : α → α'} {g : β → β'} {rs : List α} {xs : List β}
    (h : scanAll scan rs = .ok xs) (hscan : ∀ r ∈ rs, ∀ x, scan r = .ok x → scan' (f r) = .ok (g x)) :
    scanAll scan' (rs.map f) = .ok (xs.map g) := by
  rw [scanAll_eq_ok] at h ⊢
  induction rs generalizing xs with
  | nil => rw [List.map_eq_nil_iff.mp h.symm, List.map_nil, List.map_nil, List.map_nil, List.map_nil]
  | cons r rs ih =>
    obtain ⟨x, xs, rfl, hr, hrs⟩ := List.map_eq_cons_iff.mp h.symm
    rw [List.forall_mem_cons] at hscan
    simp only [List.map_cons]
    rw [hscan.1 x hr.symm, ih hrs.symm hscan.2]

end EsLite
