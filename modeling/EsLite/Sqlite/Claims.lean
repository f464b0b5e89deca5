import EsLite.Sqlite.Store

/-!
# Uniqueness claims

The claims table of the SQLite store as a function of the history. An append applies its releases and
then its claims, in its own transaction; `mem_applyClaims` says what that does to the table, and
`ClaimHistory` what the table says about all appends that succeeded: a value is held by the stream
whose last append that mentions it claims it.

* `lookupClaim` — who holds a value.
* `accepted` — the appends of a run that succeeded.
* `claims_follow_history` — the table after any run, and when a claim is refused.
-/

namespace EsLite

namespace ConstraintOp

/-- The scope and value an operation is about. -/
def key (o : ConstraintOp) : Bytes × Bytes := (o.scope, o.value)

end ConstraintOp

namespace AppendParams

/-- The keys an append claims, in order. -/
def claimed (p : AppendParams) : List (Bytes × Bytes) :=
  (p.constraints.filter (·.op = .claimOp)).map ConstraintOp.key

/-- The keys an append releases, in order. -/
def released (p : AppendParams) : List (Bytes × Bytes) :=
  (p.constraints.filter (·.op = .releaseOp)).map ConstraintOp.key

end AppendParams

variable {hist : List AppendParams} {k : Bytes × Bytes} {claims' claims : List ClaimRow}
  {o : ConstraintOp} {p : AppendParams} {prev : Digest}

namespace Sqlite

/-- The primary key of a claim. -/
def ClaimRow.key (c : ClaimRow) : Bytes × Bytes := (c.scope, c.value)

/-- `LookupClaim`: the stream that holds a value. -/
def lookupClaim (db : Db) (scope value : Bytes) : Option Bytes :=
  (db.claims.find? (fun c => c.scope = scope ∧ c.value = value)).map (·.streamID)

/-- In a table with distinct keys the holder is the stream of the row. -/
theorem lookupClaim_eq_some {db : Db} (hkeys : (db.claims.map ClaimRow.key).Nodup)
    {scope value s : Bytes} : lookupClaim db scope value = some s ↔ ⟨scope, value, s⟩ ∈ db.claims := by
  unfold lookupClaim
  rw [Option.map_eq_some_iff]
  constructor
  · rintro ⟨c, hfind, rfl⟩
    have hkey := List.find?_some hfind
    simp only [decide_eq_true_eq] at hkey
    obtain ⟨rfl, rfl⟩ := hkey
    exact List.mem_of_find?_eq_some hfind
  · intro hmem
    cases hfind : db.claims.find? (fun c => c.scope = scope ∧ c.value = value) with
    | none =>
      have := List.find?_eq_none.mp hfind _ hmem
      simp at this
    | some c =>
      have hkey := List.find?_some hfind
      simp only [decide_eq_true_eq] at hkey
      have hc : c = ⟨scope, value, s⟩ := by
        refine List.inj_on_of_nodup_map hkeys (List.mem_of_find?_eq_some hfind) hmem ?_
        exact Prod.ext hkey.1 hkey.2
      exact ⟨c, rfl, by rw [hc]⟩

/-! ## What the operations of one append do -/

section Operations

variable {streamID : Bytes} {claims : List ClaimRow} {ops : List ConstraintOp}

/-- The releases delete the rows of this stream that they name, and no others. -/
theorem mem_applyReleases {c : ClaimRow} :
    c ∈ applyReleases streamID claims ops ↔
      c ∈ claims ∧ ¬ (c.streamID = streamID ∧ ⟨.releaseOp, c.scope, c.value⟩ ∈ ops) := by
  induction ops generalizing claims with
  | nil => simp [applyReleases]
  | cons o os ih =>
    obtain ⟨op, scope, value⟩ := o
    simp only [applyReleases]
    by_cases ho : op = .releaseOp
    · subst ho
      rw [if_pos rfl, ih, List.mem_filter, decide_eq_true_eq]
      -- the row named by this release, or one named by a later one
      constructor
      · rintro ⟨⟨hmem, hne⟩, hrest⟩
        refine ⟨hmem, fun h => ?_⟩
        rcases List.mem_cons.mp h.2 with heq | htail
        · injection heq with _ hscope hvalue
          exact hne (by rw [← hscope, ← hvalue, ← h.1])
        · exact hrest ⟨h.1, htail⟩
      · rintro ⟨hmem, hnot⟩
        refine ⟨⟨hmem, ?_⟩, fun h => hnot ⟨h.1, List.mem_cons_of_mem _ h.2⟩⟩
        rintro rfl
        exact hnot ⟨rfl, List.mem_cons_self⟩
    · rw [if_neg ho, ih]
      have hne : ∀ scope' value', (⟨.releaseOp, scope', value'⟩ : ConstraintOp) ≠
          ⟨op, scope, value⟩ := fun _ _ h => ho (ConstraintOp.mk.inj h).1.symm
      simp only [List.mem_cons, hne, false_or]

/-- Deleting rows keeps the rest in order. -/
theorem applyReleases_sublist : (applyReleases streamID claims ops).Sublist claims := by
  induction ops generalizing claims with
  | nil => exact List.Sublist.refl _
  | cons o os ih =>
    simp only [applyReleases]
    split
    · exact ih.trans List.filter_sublist
    · exact ih

/-- A release of a value that this stream does not hold can be left out. -/
theorem applyReleases_of_not_mem {os os' : List ConstraintOp}
    (ho : (⟨o.scope, o.value, streamID⟩ : ClaimRow) ∉ claims) :
    applyReleases streamID claims (os ++ o :: os') = applyReleases streamID claims (os ++ os') := by
  induction os generalizing claims with
  | nil =>
    simp only [List.nil_append, applyReleases]
    split
    · rw [List.filter_eq_self.mpr]
      rintro c hc
      refine decide_eq_true ?_
      rintro rfl
      exact ho hc
    · rfl
  | cons x xs ih =>
    simp only [List.cons_append, applyReleases]
    split
    · exact ih (fun h => ho (List.mem_filter.mp h).1)
    · exact ih ho

/-- The claims are inserted in order. -/
theorem insertClaims_eq_ok (h : insertClaims streamID claims ops = .ok claims') :
    claims' = claims ++ (ops.filter (·.op = .claimOp)).map (fun o => ⟨o.scope, o.value, streamID⟩) := by
  induction ops generalizing claims with
  | nil => simpa [insertClaims] using h.symm
  | cons o os ih =>
    simp only [insertClaims] at h
    by_cases ho : o.op = .claimOp
    · rw [if_pos ho] at h
      split at h
      · cases h
      · rw [ih h, List.filter_cons_of_pos (by simpa using ho), List.map_cons, List.append_assoc,
          List.singleton_append]
    · rw [if_neg ho] at h
      rw [ih h, List.filter_cons_of_neg (by simpa using ho)]

/-- **When a claim is refused.** Inserting claims fails exactly when one of them is taken or two are
for one key, and it fails with a violated constraint. -/
theorem insertClaims_eq_error :
    (∃ err, insertClaims streamID claims ops = .error err) ↔
      (∃ o ∈ ops, o.op = .claimOp ∧ o.key ∈ claims.map ClaimRow.key) ∨
        ¬ ((ops.filter (·.op = .claimOp)).map ConstraintOp.key).Nodup := by
  induction ops generalizing claims with
  | nil => simp [insertClaims]
  | cons o os ih =>
    simp only [insertClaims]
    by_cases ho : o.op = .claimOp
    · have htaken : claims.any (fun c => c.scope = o.scope ∧ c.value = o.value) = true ↔
          o.key ∈ claims.map ClaimRow.key := by
        simp [ClaimRow.key, ConstraintOp.key, Prod.ext_iff]
      rw [if_pos ho]
      by_cases hany : claims.any (fun c => c.scope = o.scope ∧ c.value = o.value) = true
      · rw [if_pos hany]
        exact ⟨fun _ => .inl ⟨o, List.mem_cons_self, ho, htaken.mp hany⟩, fun _ => ⟨_, rfl⟩⟩
      · rw [if_neg hany, ih, List.filter_cons_of_pos (by simpa using ho), List.map_cons,
          List.nodup_cons]
        have hfree : o.key ∉ claims.map ClaimRow.key := fun h => hany (htaken.mpr h)
        -- a later claim of the key just taken is the second claim of that key
        have hmem : ∀ k, k ∈ (claims ++ [ClaimRow.mk o.scope o.value streamID]).map ClaimRow.key ↔
            k ∈ claims.map ClaimRow.key ∨ k = o.key := by
          intro k
          rw [List.map_append, List.mem_append, List.map_singleton, List.mem_singleton]
          rfl
        have hdup : o.key ∈ (os.filter (·.op = .claimOp)).map ConstraintOp.key ↔
            ∃ x ∈ os, x.op = .claimOp ∧ x.key = o.key := by
          simp [and_assoc]
        simp only [hmem, hdup, List.mem_cons]
        grind
    · rw [if_neg ho, ih, List.filter_cons_of_neg (by simpa using ho)]
      simp [ho]

theorem insertClaims_error_sentinel {err : AppendError}
    (h : insertClaims streamID claims ops = .error err) : err.sentinel = some .constraintViolated := by
  induction ops generalizing claims with
  | nil => cases h
  | cons o os ih =>
    simp only [insertClaims] at h
    split at h
    · split at h
      · cases h
        rfl
      · exact ih h
    · exact ih h

/-- **The operations of one append.** Afterwards a row is in the table if it was there and was not
released by its own stream, or if this append claims it. -/
theorem mem_applyClaims (h : applyClaims streamID claims ops = .ok claims') {c : ClaimRow} :
    c ∈ claims' ↔
      (c ∈ claims ∧ ¬ (c.streamID = streamID ∧ ⟨.releaseOp, c.scope, c.value⟩ ∈ ops)) ∨
        (c.streamID = streamID ∧ ⟨.claimOp, c.scope, c.value⟩ ∈ ops) := by
  rw [insertClaims_eq_ok h, List.mem_append, mem_applyReleases, List.mem_map]
  refine or_congr_right ⟨?_, ?_⟩
  · rintro ⟨⟨op, scope, value⟩, ho, rfl⟩
    obtain ⟨hmem, hop⟩ := List.mem_filter.mp ho
    obtain rfl : op = .claimOp := by simpa using hop
    exact ⟨rfl, hmem⟩
  · rintro ⟨rfl, hmem⟩
    exact ⟨_, List.mem_filter.mpr ⟨hmem, by simp⟩, rfl⟩

/-- The operations of an append keep the keys of the table distinct. -/
theorem nodup_applyClaims (hkeys : (claims.map ClaimRow.key).Nodup)
    (h : applyClaims streamID claims ops = .ok claims') : (claims'.map ClaimRow.key).Nodup := by
  have hclaimed : ((ops.filter (·.op = .claimOp)).map
      (fun o => (⟨o.scope, o.value, streamID⟩ : ClaimRow))).map ClaimRow.key =
      (ops.filter (·.op = .claimOp)).map ConstraintOp.key := by
    rw [List.map_map]
    rfl
  have hnot : ¬ ∃ err, insertClaims streamID (applyReleases streamID claims ops) ops = .error err := by
    rintro ⟨err, herr⟩
    rw [applyClaims, herr] at h
    cases h
  rw [insertClaims_eq_error, not_or, not_not] at hnot
  obtain ⟨hfree, hdistinct⟩ := hnot
  rw [insertClaims_eq_ok h, List.map_append, hclaimed, List.nodup_append]
  refine ⟨hkeys.sublist (applyReleases_sublist.map _), hdistinct, fun k hk k' hk' hkk => ?_⟩
  obtain ⟨o, ho, rfl⟩ := List.mem_map.mp hk'
  obtain ⟨hmem, hop⟩ := List.mem_filter.mp ho
  exact hfree ⟨o, hmem, by simpa using hop, hkk ▸ hk⟩

end Operations

/-! ## The table and the history -/

/-- The last append of a stream in a history that mentions a key. -/
def lastMention (hist : List AppendParams) (sid : StreamID) (k : Bytes × Bytes) :
    Option AppendParams :=
  (hist.filter (fun p => p.streamID = sid ∧ (k ∈ p.claimed ∨ k ∈ p.released))).getLast?

/-- The stream's last append that mentions the key claims it. -/
def Holds (hist : List AppendParams) (sid : StreamID) (k : Bytes × Bytes) : Prop :=
  ∃ p, lastMention hist sid k = some p ∧ k ∈ p.claimed

theorem mem_claimed : k ∈ p.claimed ↔ ⟨.claimOp, k.1, k.2⟩ ∈ p.constraints := by
  constructor
  · intro h
    obtain ⟨⟨op, scope, value⟩, ho, rfl⟩ := List.mem_map.mp h
    obtain ⟨hmem, hop⟩ := List.mem_filter.mp ho
    obtain rfl : op = .claimOp := by simpa using hop
    exact hmem
  · intro h
    exact List.mem_map.mpr ⟨_, List.mem_filter.mpr ⟨h, by simp⟩, rfl⟩

theorem mem_released : k ∈ p.released ↔ ⟨.releaseOp, k.1, k.2⟩ ∈ p.constraints := by
  constructor
  · intro h
    obtain ⟨⟨op, scope, value⟩, ho, rfl⟩ := List.mem_map.mp h
    obtain ⟨hmem, hop⟩ := List.mem_filter.mp ho
    obtain rfl : op = .releaseOp := by simpa using hop
    exact hmem
  · intro h
    exact List.mem_map.mpr ⟨_, List.mem_filter.mpr ⟨h, by simp⟩, rfl⟩

/-- One more append decides the keys it mentions for its own stream, and nothing else. -/
theorem holds_concat {sid : StreamID} :
    Holds (hist ++ [p]) sid k ↔
      (p.streamID = sid ∧ k ∈ p.claimed) ∨
        (¬ (p.streamID = sid ∧ (k ∈ p.claimed ∨ k ∈ p.released)) ∧ Holds hist sid k) := by
  unfold Holds lastMention
  rw [List.filter_append]
  by_cases hp : p.streamID = sid ∧ (k ∈ p.claimed ∨ k ∈ p.released)
  · rw [List.filter_cons_of_pos (by simpa using hp), List.filter_nil, List.getLast?_concat]
    simp [hp]
  · rw [List.filter_cons_of_neg (by simpa using hp), List.filter_nil, List.append_nil]
    simp only [hp, not_false_eq_true, true_and]
    constructor
    · exact .inr
    · rintro (⟨hsid, hk⟩ | h)
      · exact absurd ⟨hsid, .inl hk⟩ hp
      · exact h

/-- The claims table is what a history of successful appends leaves. -/
structure ClaimHistory (hist : List AppendParams) (claims : List ClaimRow) : Prop where
  valid : ∀ p ∈ hist, p.streamID.Valid
  keys : (claims.map ClaimRow.key).Nodup
  /-- Every row belongs to a stream. -/
  owner : ∀ c ∈ claims, ∃ sid : StreamID, sid.Valid ∧ c.streamID = sid.canonical
  /-- A stream has a row exactly for the keys it holds. -/
  holds : ∀ sid : StreamID, sid.Valid → ∀ k : Bytes × Bytes,
    ⟨k.1, k.2, sid.canonical⟩ ∈ claims ↔ Holds hist sid k

/-- Whoever holds a value has appended. -/
theorem Holds.valid {sid : StreamID} (h : Holds hist sid k) (hhist : ClaimHistory hist claims) :
    sid.Valid := by
  obtain ⟨p, hlast, -⟩ := h
  obtain ⟨hmem, hp⟩ := List.mem_filter.mp (List.mem_of_getLast? hlast)
  rw [← (of_decide_eq_true hp).1]
  exact hhist.valid p hmem

theorem claimHistory_nil : ClaimHistory [] [] where
  valid := by simp
  keys := List.nodup_nil
  owner := by simp
  holds := by simp [Holds, lastMention]

/-- **One append.** The operations of an append take the table of the history before it to the table
of the history with it. -/
theorem ClaimHistory.concat (h : ClaimHistory hist claims) (hvalid : p.streamID.Valid)
    (hok : applyClaims p.streamID.canonical claims p.constraints = .ok claims') :
    ClaimHistory (hist ++ [p]) claims' where
  valid q hq := by
    rcases List.mem_append.mp hq with hq | hq
    · exact h.valid q hq
    · rw [List.mem_singleton.mp hq]
      exact hvalid
  keys := nodup_applyClaims h.keys hok
  owner c hc := by
    rcases (mem_applyClaims hok).mp hc with ⟨hmem, -⟩ | ⟨hs, -⟩
    · exact h.owner c hmem
    · exact ⟨p.streamID, hvalid, hs⟩
  holds sid hsid k := by
    have hcanon : sid.canonical = p.streamID.canonical ↔ p.streamID = sid :=
      ⟨fun heq => (canonical_inj hsid hvalid heq).symm, fun heq => congrArg _ heq.symm⟩
    rw [mem_applyClaims hok, holds_concat, h.holds sid hsid k]
    simp only [hcanon, ← mem_claimed, ← mem_released]
    grind

/-- The appends of a run that succeeded, in order. -/
def accepted (T : GoText) (cap : Int) : Db → List (AppendInputs × AppendParams) → List AppendParams
  | _, [] => []
  | db, (inp, p) :: calls =>
    match append T cap inp p db with
    | .error _ => accepted T cap db calls
    | .ok (db', _) => p :: accepted T cap db' calls

section Append

variable {T : GoText} {cap : Int} {inp : AppendInputs} {p : AppendParams} {db db' : Db}

/-- Inserting events leaves the claims alone. -/
theorem insertEvents_claims {i : Nat} {evs : List EventData} {envs : List Envelope}
    (h : insertEvents T inp p i prev db evs = .ok (db', envs)) : db'.claims = db.claims := by
  induction evs generalizing i prev db envs with
  | nil =>
    cases h
    rfl
  | cons ev evs ih =>
    simp only [insertEvents] at h
    split at h
    · cases h
    · cases h
    · rename_i hins
      split at h
      · cases h
      · rename_i hrest
        cases h
        exact (ih hrest).trans (Db.insertEvent_eq_ok hins).2.2.2.2.2.1

/-- The events do not depend on the uniqueness operations. -/
theorem insertEvents_constraints {os : List ConstraintOp} {i : Nat} {evs : List EventData} :
    insertEvents T inp { p with constraints := os } i prev db evs =
      insertEvents T inp p i prev db evs := by
  induction evs generalizing i prev db with
  | nil => rfl
  | cons ev evs ih =>
    have henv : appendEnvelope inp { p with constraints := os } i prev ev =
        appendEnvelope inp p i prev ev := rfl
    simp only [insertEvents, henv, ih]

/-- The claims an append leaves are its operations applied to those it found. -/
theorem append_claims {res : AppendResult} (h : append T cap inp p db = .ok (db', res)) :
    applyClaims p.streamID.canonical db.claims p.constraints = .ok db'.claims := by
  obtain ⟨-, htx⟩ := append_eq_ok h
  unfold appendTx at htx
  split at htx
  · cases htx
  split at htx
  · cases htx
  split at htx
  · cases htx
  rename_i hins
  split at htx
  · cases htx
  rename_i hclaims
  cases htx
  rwa [insertEvents_claims hins] at hclaims

/-- **Every run of appends** leaves the claims table of its successful appends. -/
theorem claimHistory_appendRun {log : List Envelope} (h : ClaimHistory hist db.claims)
    (calls : List (AppendInputs × AppendParams)) :
    ClaimHistory (hist ++ accepted T cap db calls) (appendRun T cap (db, log) calls).1.claims := by
  induction calls generalizing hist db log with
  | nil => simpa [accepted, appendRun] using h
  | cons call calls ih =>
    obtain ⟨inp, p⟩ := call
    simp only [accepted, appendRun]
    rcases hres : append T cap inp p db with err | ⟨db', res⟩
    · exact ih h
    · have hstep := h.concat (append_eq_ok hres).1 (append_claims hres)
      simpa using ih hstep

/-- A valid release passes the check wherever it stands. -/
theorem checkConstraints_release {os os' : List ConstraintOp} (hop : o.op = .releaseOp)
    (hscope : o.scope ≠ []) : checkConstraints (os ++ o :: os') = checkConstraints (os ++ os') := by
  induction os with
  | nil =>
    have hok : o.validate = .ok () := by
      simp [ConstraintOp.validate, hop, hscope]
    simp only [List.nil_append, checkConstraints, hok]
  | cons x xs ih => simp only [List.cons_append, checkConstraints, ih]

/-- A release is no claim. -/
theorem insertClaims_release {streamID : Bytes} {os os' : List ConstraintOp} (hop : o.op = .releaseOp) :
    insertClaims streamID claims (os ++ o :: os') = insertClaims streamID claims (os ++ os') := by
  induction os generalizing claims with
  | nil => simp [insertClaims, hop]
  | cons x xs ih => simp only [List.cons_append, insertClaims, ih]

/-- **A release by a stream that does not hold the value** changes nothing: the append does what it
does without it. -/
theorem append_release {os os' : List ConstraintOp} (hkeys : (db.claims.map ClaimRow.key).Nodup)
    (hop : o.op = .releaseOp) (hscope : o.scope ≠ [])
    (hnot : lookupClaim db o.scope o.value ≠ some p.streamID.canonical) :
    append T cap inp { p with constraints := os ++ o :: os' } db =
      append T cap inp { p with constraints := os ++ os' } db := by
  have hmem : (⟨o.scope, o.value, p.streamID.canonical⟩ : ClaimRow) ∉ db.claims :=
    fun h => hnot ((lookupClaim_eq_some hkeys).mpr h)
  have hclaims : ∀ {db' : Db} {i prev evs envs},
      insertEvents T inp p i prev db evs = .ok (db', envs) →
      applyClaims p.streamID.canonical db'.claims (os ++ o :: os') =
        applyClaims p.streamID.canonical db'.claims (os ++ os') := by
    intro db' i prev evs envs hins
    rw [applyClaims, applyClaims, insertEvents_claims hins, applyReleases_of_not_mem hmem,
      insertClaims_release hop]
  have htx : appendTx T inp { p with constraints := os ++ o :: os' } db =
      appendTx T inp { p with constraints := os ++ os' } db := by
    simp only [appendTx, insertEvents_constraints]
    cases readHead T db.events p.streamID with
    | error err => rfl
    | ok head =>
      obtain ⟨current, prev⟩ := head
      rcases hins : insertEvents T inp p 0 prev db p.events with err | ⟨db', envs⟩
      · simp only [hins]
      · simp only [hins, hclaims hins]
  simp only [append, checkConstraints_release hop hscope, htx]

/-- **When a uniqueness operation is refused.** An append whose events went in fails with a violated
constraint exactly when, with its own releases applied, a value it claims is held or it claims a value
twice. -/
theorem append_constraintViolated {envs : List Envelope} (hkeys : (db.claims.map ClaimRow.key).Nodup)
    (hvalid : p.streamID.Valid) (hops : checkConstraints p.constraints = .ok ())
    (hpayloads : checkPayloads cap p.streamID p.expectedVersion p.events = .ok ())
    (hhead : readHead T db.events p.streamID = .ok (p.expectedVersion, prev))
    (hins : insertEvents T inp p 0 prev db p.events = .ok (db', envs)) :
    (∃ err, append T cap inp p db = .error err ∧ err.sentinel = some .constraintViolated) ↔
      (∃ k ∈ p.claimed, ∃ s, lookupClaim db k.1 k.2 = some s ∧
        ¬ (s = p.streamID.canonical ∧ k ∈ p.released)) ∨ ¬ p.claimed.Nodup := by
  -- what is held once the releases are applied
  have htaken : ∀ k : Bytes × Bytes,
      k ∈ (applyReleases p.streamID.canonical db.claims p.constraints).map ClaimRow.key ↔
        ∃ s, lookupClaim db k.1 k.2 = some s ∧ ¬ (s = p.streamID.canonical ∧ k ∈ p.released) := by
    intro k
    simp only [lookupClaim_eq_some hkeys, mem_released, List.mem_map, mem_applyReleases]
    constructor
    · rintro ⟨⟨scope, value, s⟩, hc, rfl⟩
      exact ⟨s, hc⟩
    · rintro ⟨s, hs⟩
      exact ⟨⟨k.1, k.2, s⟩, hs, rfl⟩
  have hclaimed : (∃ o ∈ p.constraints, o.op = .claimOp ∧
      o.key ∈ (applyReleases p.streamID.canonical db.claims p.constraints).map ClaimRow.key) ↔
      ∃ k ∈ p.claimed, ∃ s, lookupClaim db k.1 k.2 = some s ∧
        ¬ (s = p.streamID.canonical ∧ k ∈ p.released) := by
    simp only [htaken, AppendParams.claimed, List.mem_map, List.mem_filter, decide_eq_true_eq]
    constructor
    · rintro ⟨o, ho, hop, hheld⟩
      exact ⟨o.key, ⟨o, ⟨ho, hop⟩, rfl⟩, hheld⟩
    · rintro ⟨_, ⟨o, ⟨ho, hop⟩, rfl⟩, hheld⟩
      exact ⟨o, ho, hop, hheld⟩
  suffices hrefused : (∃ err, append T cap inp p db = .error err ∧
      err.sentinel = some .constraintViolated) ↔
      ∃ err, applyClaims p.streamID.canonical db.claims p.constraints = .error err from
    hrefused.trans (insertClaims_eq_error.trans (or_congr_left hclaimed))
  rw [← insertEvents_claims hins]
  have hvalid' : p.streamID.validate = .ok () := hvalid
  simp only [append, hvalid', hops, hpayloads, appendTx, hhead, hins, ne_eq, not_true_eq_false,
    if_false]
  cases hres : applyClaims p.streamID.canonical db'.claims p.constraints with
  | error err => simpa using insertClaims_error_sentinel hres
  | ok claims => simp

end Append

/-! ## The whole history -/

/-- **Uniqueness claims follow the history.** After any run of appends on an empty database:

* an append succeeds, or leaves the log and the claims as they were;
* a stream holds a value exactly when its last successful append that mentions the value claims it,
  whoever holds a value is a stream, and no two streams hold one value;
* a release by a stream that does not hold the value changes nothing;
* an append whose events went in is refused with a violated constraint exactly when, with its own
  releases applied, a value it claims is held, or it claims a value twice. -/
theorem claims_follow_history (T : GoText) (cap : Int)
    (calls : List (AppendInputs × AppendParams)) :
    let db := (appendRun T cap (.empty, []) calls).1
    let hist := accepted T cap .empty calls
    (∀ inp p log, (∃ r, append T cap inp p db = .ok r) ∨
      appendRun T cap (db, log) [(inp, p)] = (db, log)) ∧
    (∀ sid : StreamID, sid.Valid → ∀ scope value,
      lookupClaim db scope value = some sid.canonical ↔ Holds hist sid (scope, value)) ∧
    (∀ scope value s, lookupClaim db scope value = some s →
      ∃ sid : StreamID, sid.Valid ∧ s = sid.canonical) ∧
    (∀ sid sid' k, Holds hist sid k → Holds hist sid' k → sid = sid') ∧
    (∀ inp (p : AppendParams) os (o : ConstraintOp) os', o.op = .releaseOp → o.scope ≠ [] →
      lookupClaim db o.scope o.value ≠ some p.streamID.canonical →
      append T cap inp { p with constraints := os ++ o :: os' } db =
        append T cap inp { p with constraints := os ++ os' } db) ∧
    (∀ inp (p : AppendParams) prev db' envs, p.streamID.Valid → checkConstraints p.constraints = .ok () →
      checkPayloads cap p.streamID p.expectedVersion p.events = .ok () →
      readHead T db.events p.streamID = .ok (p.expectedVersion, prev) →
      insertEvents T inp p 0 prev db p.events = .ok (db', envs) →
      ((∃ err, append T cap inp p db = .error err ∧
          err.sentinel = some .constraintViolated) ↔
        (∃ k ∈ p.claimed, ∃ s, lookupClaim db k.1 k.2 = some s ∧
          ¬ (s = p.streamID.canonical ∧ k ∈ p.released)) ∨ ¬ p.claimed.Nodup)) := by
  intro db hist
  have hhist : ClaimHistory hist db.claims := by
    have hrun : ClaimHistory ([] ++ accepted T cap .empty calls)
        (appendRun T cap (.empty, []) calls).1.claims :=
      claimHistory_appendRun claimHistory_nil calls
    simpa using hrun
  have hlookup : ∀ sid : StreamID, sid.Valid → ∀ scope value,
      lookupClaim db scope value = some sid.canonical ↔ Holds hist sid (scope, value) :=
    fun sid hsid scope value =>
      (lookupClaim_eq_some hhist.keys).trans (hhist.holds sid hsid (scope, value))
  refine ⟨fun inp p log => ?_, hlookup, fun scope value s hs => ?_, fun sid sid' k h h' => ?_,
    fun inp p os o os' hop hscope hnot => append_release hhist.keys hop hscope hnot,
    fun inp p prev db' envs hvalid hops hpayloads hhead hins =>
      append_constraintViolated hhist.keys hvalid hops hpayloads hhead hins⟩
  · rcases hres : append T cap inp p db with err | r
    · exact .inr (by simp only [appendRun, hres])
    · exact .inl ⟨r, rfl⟩
  · exact hhist.owner _ ((lookupClaim_eq_some hhist.keys).mp hs)
  · have hvalid := h.valid hhist
    have hvalid' := h'.valid hhist
    have hone := (hlookup sid hvalid k.1 k.2).mpr h
    rw [(hlookup sid' hvalid' k.1 k.2).mpr h'] at hone
    exact canonical_inj hvalid hvalid' (Option.some.inj hone).symm

end Sqlite

end EsLite
