import EsLite.Foundation.Bytes

/-!
# Stream identities

A stream is named by an aggregate type and an instance id, both slugs, and stored as `type:id`. The
separator cannot occur in a slug, so the storage form determines the pair (`canonical_inj`), parsing
undoes printing (`parseCanonical_canonical`), and whatever parses is a valid identity in its storage
form (`parseCanonical_eq_ok`).
-/

namespace EsLite

/-- The sentinel errors of the `es` package, matched with `errors.Is`. -/
inductive Sentinel : Type where
  | conflict
  | streamNotFound
  | constraintViolated
  | invalidStreamID
  | versionOutOfRange
  | invalidConstraint
  | terminal
  | decidedAtSkew
  | decidedAtMissing
  | chainBroken
  | anchorMismatch
  | unknownEventType
  | payloadTooLarge
deriving DecidableEq, Repr

/-- One stream: an aggregate type and an instance id. -/
@[ext] structure StreamID where
  /-- The aggregate type. -/
  type : Bytes
  /-- The instance id. -/
  id : Bytes
deriving DecidableEq

/-- The byte between the two components of a stored stream id: `:`. -/
def canonicalSep : UInt8 := 58

/-- A byte of `[a-z0-9]`. -/
def slugHead (b : UInt8) : Bool := (97 ≤ b && b ≤ 122) || (48 ≤ b && b ≤ 57)

/-- A byte of `[a-z0-9_-]`. -/
def slugTail (b : UInt8) : Bool := slugHead b || b == 95 || b == 45

/-- The expression `^[a-z0-9][a-z0-9_-]{0,127}$`. -/
def slugRe : Bytes → Bool
  | [] => false
  | b :: bs => slugHead b && bs.length ≤ 127 && bs.all slugTail

theorem slugTail_of_slugHead {b : UInt8} (h : slugHead b = true) : slugTail b = true := by
  simp [slugTail, h]

/-- Every byte of a slug is a slug byte. -/
theorem slugTail_of_mem {s : Bytes} (hs : slugRe s = true) {b : UInt8} (hb : b ∈ s) :
    slugTail b = true := by
  cases s with
  | nil => cases hb
  | cons c cs =>
    simp only [slugRe, Bool.and_eq_true, List.all_eq_true] at hs
    rcases List.mem_cons.mp hb with rfl | hb
    · exact slugTail_of_slugHead hs.1.1
    · exact hs.2 b hb

/-- The separator is no slug byte. -/
theorem sep_not_mem_slug {s : Bytes} (hs : slugRe s = true) : canonicalSep ∉ s := by
  intro hmem
  have := slugTail_of_mem hs hmem
  revert this
  decide

theorem slug_ne_nil {s : Bytes} (hs : slugRe s = true) : s ≠ [] := by
  rintro rfl
  cases hs

theorem slug_length_le {s : Bytes} (hs : slugRe s = true) : s.length ≤ 128 := by
  cases s with
  | nil => cases hs
  | cons c cs =>
    simp only [slugRe, Bool.and_eq_true, decide_eq_true_eq] at hs
    simp only [List.length_cons]
    omega

variable {s : StreamID}

namespace StreamID

/-- Whether both components are slugs. -/
def validate (s : StreamID) : Except Sentinel Unit :=
  if slugRe s.type && slugRe s.id then .ok () else .error .invalidStreamID

/-- The storage form `type:id`. -/
def canonical (s : StreamID) : Bytes := s.type ++ canonicalSep :: s.id

/-- A stream id that passes `validate`. -/
def Valid (s : StreamID) : Prop := s.validate = .ok ()

theorem valid_iff : s.Valid ↔ slugRe s.type = true ∧ slugRe s.id = true := by
  unfold Valid validate
  split
  · rename_i h
    simpa using h
  · rename_i h
    simpa using h

instance (s : StreamID) : Decidable s.Valid := decidable_of_iff _ valid_iff.symm

theorem validate_eq_error {e : Sentinel} (h : s.validate = .error e) : e = .invalidStreamID := by
  unfold validate at h
  split at h
  · cases h
  · exact (Except.error.inj h).symm

theorem length_canonical_le (h : s.Valid) : s.canonical.length ≤ 257 := by
  obtain ⟨ht, hi⟩ := valid_iff.mp h
  have := slug_length_le ht
  have := slug_length_le hi
  simp only [canonical, List.length_append, List.length_cons]
  omega

end StreamID

/-- A validated stream id. -/
def newStreamID (typ id : Bytes) : Except Sentinel StreamID :=
  match (StreamID.mk typ id).validate with
  | .ok () => .ok ⟨typ, id⟩
  | .error e => .error e

/-- Split a stored stream id at its first separator. -/
def parseCanonical (canonical : Bytes) : Except Sentinel StreamID :=
  let i := canonical.idxOf canonicalSep
  -- `IndexByte` is -1 without a separator, `idxOf` the length: both are refused
  if i = 0 ∨ canonical.length ≤ i + 1 then .error .invalidStreamID
  else newStreamID (canonical.take i) (canonical.drop (i + 1))

/-- The one error of parsing. -/
theorem parseCanonical_eq_error {c : Bytes} {e : Sentinel} (h : parseCanonical c = .error e) :
    e = .invalidStreamID := by
  unfold parseCanonical at h
  simp only at h
  split at h
  · exact (Except.error.inj h).symm
  · unfold newStreamID at h
    split at h
    · cases h
    · rename_i hvalidate
      cases h
      exact StreamID.validate_eq_error hvalidate

/-- The first separator of a canonical form stands right after the type. -/
theorem idxOf_sep_canonical (h : s.Valid) : s.canonical.idxOf canonicalSep = s.type.length := by
  have hsep := sep_not_mem_slug (StreamID.valid_iff.mp h).1
  simp [StreamID.canonical, List.idxOf_append, hsep]

/-- **Parsing undoes printing** on valid stream ids. -/
theorem parseCanonical_canonical (h : s.Valid) : parseCanonical s.canonical = .ok s := by
  have hv := StreamID.valid_iff.mp h
  have htype : s.type.length ≠ 0 := fun h0 => slug_ne_nil hv.1 (List.length_eq_zero_iff.mp h0)
  have hid : s.id.length ≠ 0 := fun h0 => slug_ne_nil hv.2 (List.length_eq_zero_iff.mp h0)
  have hlen : s.canonical.length = s.type.length + (s.id.length + 1) := by
    simp [StreamID.canonical]
  have htake : s.canonical.take s.type.length = s.type := by simp [StreamID.canonical]
  have hdrop : s.canonical.drop (s.type.length + 1) = s.id := by
    rw [StreamID.canonical, ← List.drop_drop, List.drop_left]
    rfl
  simp only [parseCanonical, idxOf_sep_canonical h]
  rw [if_neg (by omega), htake, hdrop]
  simp only [newStreamID]
  rw [show (StreamID.mk s.type s.id).validate = .ok () from h]

/-- The storage form determines a valid stream id. -/
theorem canonical_inj {t : StreamID} (hs : s.Valid) (ht : t.Valid) (h : s.canonical = t.canonical) :
    s = t := by
  have := parseCanonical_canonical hs
  rw [h, parseCanonical_canonical ht] at this
  exact (Except.ok.inj this).symm

/-- The stream `counter:main`. -/
def counterMain : StreamID := ⟨str "counter", str "main"⟩

example : counterMain.Valid ∧ parseCanonical (str "counter:main") = .ok counterMain := by
  exact ⟨by decide, parseCanonical_canonical (by decide : counterMain.Valid)⟩

end EsLite
