import EsLite.Es.Hash
import EsLite.Foundation.ByteOrder

/-!
# Anchors

An anchor fixes every stream's head under one root: SHA-256 over the heads sorted by workspace and
stream id. `entries_eq_of_anchorEncoding_eq` says that the hashed bytes determine the sorted list of
heads, and `anchorRoot_identifies_heads` that the root identifies the set of heads.
-/

namespace EsLite

/-- One stream's position at anchoring time. -/
structure StreamHead where
  workspace : Bytes
  streamID : StreamID
  version : UInt64
  /-- The stored hash of the head row; `none` when it is not hashed. -/
  hash : Option Bytes
deriving DecidableEq

/-- One exported anchor. -/
structure Anchor where
  id : Bytes
  createdAt : Time
  uptoGlobalPosition : UInt64
  streamCount : UInt64
  rootHash : Bytes
deriving DecidableEq

/-- The order in which `AnchorRoot` sorts the heads. -/
def headLess (a b : StreamHead) : Bool :=
  if a.workspace ≠ b.workspace then lexLt a.workspace b.workspace
  else lexLt a.streamID.canonical b.streamID.canonical

/-- The heads in the order in which they are hashed. -/
def sortHeads (heads : List StreamHead) : List StreamHead :=
  heads.mergeSort (fun a b => !headLess b a)

/-- The 32 bytes that stand for a head: its hash, or the hash of an unhashed head. -/
def StreamHead.effectiveHash (h : StreamHead) : Digest :=
  digestOr h.hash (unchainedHeadHash h.streamID h.version)

/-- The encoding of one head. -/
def encodeHead (h : StreamHead) : Bytes :=
  lengthPrefixed h.workspace ++ (lengthPrefixed h.streamID.canonical ++
    (bigEndian 8 h.version.toNat ++ h.effectiveHash.bytes))

/-- The domain separator of anchor roots. -/
def anchorDomain : Bytes := str "es-lite.anchor.v1"

/-- The bytes that `anchorRoot` hashes. -/
def anchorEncoding (heads : List StreamHead) : Bytes :=
  lengthPrefixed anchorDomain ++ (bigEndian 8 (sortHeads heads).length ++
    (sortHeads heads).flatMap encodeHead)

/-- The anchor root. -/
def anchorRoot (heads : List StreamHead) : Digest := sha256 (anchorEncoding heads)

/-- What the root attests of one head. -/
@[ext] structure HeadEntry where
  workspace : Bytes
  streamID : Bytes
  version : UInt64
  hash : Digest
deriving DecidableEq

/-- The attested part of a head. -/
def StreamHead.entry (h : StreamHead) : HeadEntry :=
  ⟨h.workspace, h.streamID.canonical, h.version, h.effectiveHash⟩

/-- The variable-length fields of a head fit their length prefixes. -/
def StreamHead.Sized (h : StreamHead) : Prop :=
  h.workspace.length < 2 ^ 32 ∧ h.streamID.canonical.length < 2 ^ 32

theorem sortHeads_perm (heads : List StreamHead) : (sortHeads heads).Perm heads := List.mergeSort_perm _ _

@[simp] theorem mem_sortHeads {heads : List StreamHead} {h : StreamHead} :
    h ∈ sortHeads heads ↔ h ∈ heads := List.mem_mergeSort

theorem encodeHead_ne_nil (h : StreamHead) : encodeHead h ≠ [] := by
  intro h0
  have := congrArg List.length h0
  simp only [encodeHead, List.length_append, length_lengthPrefixed, List.length_nil] at this
  omega

/-- Peel one head off two equal encodings. -/
theorem encodeHead_append_inj {a b : StreamHead} (ha : a.Sized) (hb : b.Sized) {x y : Bytes}
    (h : encodeHead a ++ x = encodeHead b ++ y) : a.entry = b.entry ∧ x = y := by
  simp only [encodeHead, List.append_assoc] at h
  obtain ⟨hworkspace, h⟩ := lengthPrefixed_append_inj ha.1 hb.1 h
  obtain ⟨hstream, h⟩ := lengthPrefixed_append_inj ha.2 hb.2 h
  obtain ⟨hversion, h⟩ := bigEndian64_append_inj h
  obtain ⟨hhash, h⟩ := FixedBytes.append_inj h
  exact ⟨HeadEntry.ext hworkspace hstream hversion hhash, h⟩

/-- **The hashed bytes determine the heads**, in sorted order and in what is attested of them. -/
theorem entries_eq_of_anchorEncoding_eq {heads heads' : List StreamHead} (hs : ∀ h ∈ heads, h.Sized)
    (hs' : ∀ h ∈ heads', h.Sized) (h : anchorEncoding heads = anchorEncoding heads') :
    (sortHeads heads).map StreamHead.entry = (sortHeads heads').map StreamHead.entry := by
  simp only [anchorEncoding] at h
  have h := List.append_cancel_left h
  obtain ⟨-, h⟩ := List.append_inj h (by simp)
  refine flatMap_inj (fun a ha b hb x y hxy => ?_) encodeHead_ne_nil h
  exact encodeHead_append_inj (hs a (mem_sortHeads.mp ha)) (hs' b (mem_sortHeads.mp hb)) hxy

/-- The key by which the heads are sorted. -/
def StreamHead.sortKey (h : StreamHead) : List Nat ×ₗ List Nat := pairNumbers h.workspace h.streamID.canonical

/-- The heads are sorted by a linear order of their keys. -/
theorem sortHeads_eq (heads : List StreamHead) :
    sortHeads heads = heads.mergeSort (fun a b => decide (a.sortKey ≤ b.sortKey)) := by
  unfold sortHeads
  congr 1
  funext a b
  exact not_lexLt_pair_eq ..

/-- **Heads that can be anchored**: their streams are valid, their workspaces fit the length prefix, and each
stream is there once. -/
structure Anchorable (heads : List StreamHead) : Prop where
  valid : ∀ h ∈ heads, h.streamID.Valid
  short : ∀ h ∈ heads, h.workspace.length < 2 ^ 32
  distinct : (heads.map (fun h => (h.workspace, h.streamID))).Nodup

namespace Anchorable

variable {heads heads' : List StreamHead}

theorem sized (h : Anchorable heads) {a : StreamHead} (ha : a ∈ heads) : a.Sized :=
  ⟨h.short a ha, (StreamID.length_canonical_le (h.valid a ha)).trans_lt (by decide)⟩

/-- The keys tell the heads apart. -/
theorem eq_of_sortKey_eq (h : Anchorable heads) {a b : StreamHead} (ha : a ∈ heads) (hb : b ∈ heads)
    (hkey : a.sortKey = b.sortKey) : a = b := by
  obtain ⟨hworkspace, hcanonical⟩ := pairNumbers_inj.mp hkey
  have hstream := canonical_inj (h.valid a ha) (h.valid b hb) hcanonical
  exact List.inj_on_of_nodup_map h.distinct ha hb (Prod.ext hworkspace hstream)

end Anchorable

/-- **The order of the heads does not matter.** -/
theorem anchorEncoding_perm {heads heads' : List StreamHead} (h : Anchorable heads)
    (hperm : heads.Perm heads') : anchorEncoding heads = anchorEncoding heads' := by
  have hsort : sortHeads heads = sortHeads heads' := by
    rw [sortHeads_eq, sortHeads_eq]
    exact mergeSort_congr_perm (fun a ha b hb => h.eq_of_sortKey_eq ha hb) hperm
  rw [anchorEncoding, anchorEncoding, hsort]

/-- What the root attests of one head, with the stream itself in place of its storage form. -/
def StreamHead.position (h : StreamHead) : Bytes × StreamID × UInt64 × Digest :=
  (h.workspace, h.streamID, h.version, h.effectiveHash)

/-- What an entry says, with its stream id parsed. -/
def HeadEntry.position (x : HeadEntry) : Option (Bytes × StreamID × UInt64 × Digest) :=
  match parseCanonical x.streamID with
  | .ok sid => some (x.workspace, sid, x.version, x.hash)
  | .error _ => none

/-- The entry of a valid stream says where the stream stands. -/
theorem position_entry {h : StreamHead} (hvalid : h.streamID.Valid) : h.entry.position = some h.position := by
  simp only [HeadEntry.position, StreamHead.entry, parseCanonical_canonical hvalid]
  rfl

/-- **The hashed bytes determine where every stream stands.** -/
theorem positions_perm_of_anchorEncoding_eq {heads heads' : List StreamHead} (hs : Anchorable heads)
    (hs' : Anchorable heads') (h : anchorEncoding heads = anchorEncoding heads') :
    (heads.map StreamHead.position).Perm (heads'.map StreamHead.position) := by
  have hentries : (heads.map StreamHead.entry).Perm (heads'.map StreamHead.entry) := by
    have hsorted := entries_eq_of_anchorEncoding_eq (fun a ha => hs.sized ha) (fun a ha => hs'.sized ha) h
    refine ((sortHeads_perm heads).map _).symm.trans ?_
    rw [hsorted]
    exact (sortHeads_perm heads').map _
  have hread : ∀ {l : List StreamHead}, Anchorable l →
      (l.map StreamHead.entry).filterMap HeadEntry.position = l.map StreamHead.position := by
    intro l hl
    rw [List.filterMap_map, ← List.filterMap_eq_map]
    exact List.filterMap_congr (fun a ha => position_entry (hl.valid a ha))
  rw [← hread hs, ← hread hs']
  exact hentries.filterMap _

/-- **The root identifies the set of heads.** Any arrangement of the same heads has the same root; and two
lists of heads with the same root hold the same workspaces, streams, versions and hashes, as long as SHA-256
does not collide on what is hashed for them. -/
theorem anchorRoot_identifies_heads :
    (∀ heads heads' : List StreamHead, Anchorable heads → heads.Perm heads' →
      anchorRoot heads = anchorRoot heads') ∧
    ∀ (X : Set Bytes) (heads heads' : List StreamHead), Set.InjOn sha256 X → anchorEncoding heads ∈ X →
      anchorEncoding heads' ∈ X → Anchorable heads → Anchorable heads' →
      anchorRoot heads = anchorRoot heads' →
        (heads.map (fun h => (h.workspace, h.streamID, h.version, h.effectiveHash))).Perm
          (heads'.map (fun h => (h.workspace, h.streamID, h.version, h.effectiveHash))) := by
  refine ⟨fun heads heads' h hperm => ?_, fun X heads heads' hX hmem hmem' h h' hroot => ?_⟩
  · rw [anchorRoot, anchorRoot, anchorEncoding_perm h hperm]
  · exact positions_perm_of_anchorEncoding_eq h h' (hX hmem hmem' hroot)

/-- The head of `counter:main` in a workspace, at version 1. -/
def mainHead (workspace : Bytes) (hash : Option Bytes) : StreamHead := ⟨workspace, counterMain, 1, hash⟩

/-- The same head with the hash of an unhashed head stored in it. -/
def storedHead : StreamHead := mainHead [] (some (unchainedHeadHash counterMain 1).bytes)

/-- Two heads have one root in either order. A head that is not hashed and one that stores the hash of an
unhashed head have one root, and the same is attested of them. -/
theorem anchorRoot_identifies_heads_main :
    anchorRoot [mainHead [] none, mainHead (str "acme") none] =
        anchorRoot [mainHead (str "acme") none, mainHead [] none] ∧
      anchorRoot [mainHead [] none] = anchorRoot [storedHead] ∧
      ([mainHead [] none].map (fun h => (h.workspace, h.streamID, h.version, h.effectiveHash))).Perm
        ([storedHead].map (fun h => (h.workspace, h.streamID, h.version, h.effectiveHash))) := by
  have hvalid : counterMain.Valid := by decide
  have hone : ∀ hash, Anchorable [mainHead [] hash] :=
    fun hash => ⟨by simp [mainHead, hvalid], by simp [mainHead], List.nodup_singleton _⟩
  have htwo : Anchorable [mainHead [] none, mainHead (str "acme") none] :=
    ⟨by simp [mainHead, hvalid], by simp only [mainHead]; decide, by decide⟩
  have hencoding : anchorEncoding [mainHead [] none] = anchorEncoding [storedHead] := by
    have heffective : (mainHead [] none).effectiveHash = storedHead.effectiveHash :=
      (digestOr_some _ _).symm
    simp only [anchorEncoding, sortHeads, List.mergeSort_singleton, List.flatMap_cons, encodeHead, heffective]
    rfl
  refine ⟨anchorRoot_identifies_heads.1 _ _ htwo (List.Perm.swap ..), congrArg sha256 hencoding, ?_⟩
  exact anchorRoot_identifies_heads.2 {anchorEncoding [mainHead [] none]} _ _ (Set.injOn_singleton _ _) rfl
    hencoding.symm (hone _) (hone _) (congrArg sha256 hencoding)

/-! ## The three hashed encodings -/

/-- Encodings that start with different domain separators differ. -/
theorem lengthPrefixed_append_ne {a b : Bytes} (ha : a.length < 2 ^ 32) (hb : b.length < 2 ^ 32)
    (hab : a ≠ b) (x y : Bytes) : lengthPrefixed a ++ x ≠ lengthPrefixed b ++ y :=
  fun h => hab (lengthPrefixed_append_inj ha hb h).1

/-- **The hashed encodings are unambiguous.** The canonical encoding of an envelope on a valid stream
determines every attested field, type and id of the stream apart; and what is hashed for an envelope,
for an unhashed head and for an anchor root is never the same byte string, whatever the inputs. -/
theorem encodings_unambiguous :
    (∀ e e' : Envelope, e.streamID.Valid → e'.streamID.Valid → e.Sized → e'.Sized →
      canonicalEnvelope e = canonicalEnvelope e' →
        e.workspace = e'.workspace ∧ e.streamID.type = e'.streamID.type ∧
        e.streamID.id = e'.streamID.id ∧ e.version = e'.version ∧ e.eventID = e'.eventID ∧
        e.typeURL = e'.typeURL ∧ e.schemaVersion = e'.schemaVersion ∧
        unixMicros e.occurredAt = unixMicros e'.occurredAt ∧
        unixMicros e.recordedAt = unixMicros e'.recordedAt ∧
        e.correlationID = e'.correlationID ∧ e.causationID = e'.causationID ∧
        e.commandID = e'.commandID ∧ e.actor.type = e'.actor.type ∧ e.actor.id = e'.actor.id ∧
        e.payload.getD [] = e'.payload.getD [] ∧ fixedHash e.prevHash = fixedHash e'.prevHash) ∧
    (∀ (e : Envelope) (sid : StreamID) (v : UInt64),
      canonicalEnvelope e ≠ unchainedHeadEncoding sid v) ∧
    (∀ (e : Envelope) (heads : List StreamHead), canonicalEnvelope e ≠ anchorEncoding heads) ∧
    ∀ (sid : StreamID) (v : UInt64) (heads : List StreamHead),
      unchainedHeadEncoding sid v ≠ anchorEncoding heads := by
  refine ⟨fun e e' hid hid' hs hs' h => ?_, fun e sid v => ?_, fun e heads => ?_,
    fun sid v heads => ?_⟩
  · have ha := canonicalEnvelope_inj hs hs' h
    simp only [Envelope.attested, Attested.mk.injEq] at ha
    obtain ⟨hworkspace, hstream, hversion, heventID, htypeURL, hschema, hoccurred, hrecorded,
      hcorrelation, hcausation, hcommand, hactor, hpayload, hprev⟩ := ha
    -- the separator cannot occur in a slug, so the storage form splits in one way
    have hsid := canonical_inj hid hid' hstream
    exact ⟨hworkspace, congrArg _ hsid, congrArg _ hsid, hversion, heventID, htypeURL, hschema,
      hoccurred, hrecorded, hcorrelation, hcausation, hcommand, congrArg _ hactor,
      congrArg _ hactor, hpayload, hprev⟩
  · exact lengthPrefixed_append_ne (by decide) (by decide) (by decide) _ _
  · exact lengthPrefixed_append_ne (by decide) (by decide) (by decide) _ _
  · exact lengthPrefixed_append_ne (by decide) (by decide) (by decide) _ _

/-- Version 1 of `counter:main` with nothing but its stream set. -/
def bareEnvelope (prevHash : Option Bytes) : Envelope where
  eventID := FixedBytes.zero 16
  streamID := counterMain
  version := 1
  globalPosition := 0
  workspace := []
  typeURL := []
  schemaVersion := 0
  occurredAt := Time.zero
  recordedAt := Time.zero
  correlationID := FixedBytes.zero 16
  causationID := FixedBytes.zero 16
  commandID := FixedBytes.zero 16
  actor := ⟨[], []⟩
  payload := none
  prevHash := prevHash
  hash := none

/-- A previous hash that is not set and one of 32 zero bytes have one encoding, and count as the same
digest. -/
theorem encodings_unambiguous_unset_prevHash :
    canonicalEnvelope (bareEnvelope none) =
        canonicalEnvelope (bareEnvelope (some zeroHash.bytes)) ∧
      fixedHash none = fixedHash (some zeroHash.bytes) := by
  have hs : ∀ h, (bareEnvelope h).Sized := fun h => by
    constructor <;> simp only [bareEnvelope] <;> decide
  have heq : canonicalEnvelope (bareEnvelope none) =
      canonicalEnvelope (bareEnvelope (some zeroHash.bytes)) := by decide +kernel
  have hvalid : counterMain.Valid := by decide
  obtain ⟨-, -, -, -, -, -, -, -, -, -, -, -, -, -, -, hprev⟩ :=
    encodings_unambiguous.1 _ _ hvalid hvalid (hs _) (hs _) heq
  exact ⟨heq, hprev⟩

end EsLite
