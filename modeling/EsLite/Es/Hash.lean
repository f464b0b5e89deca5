import EsLite.Foundation.Sha256
import EsLite.Es.StreamId

/-!
# Envelopes and the canonical encoding behind the hash chain

Every stored event is an envelope. Its hash is SHA-256 over a canonical encoding of the attested
fields, the previous hash among them. `canonicalEnvelope_inj` says that the encoding determines the
attested fields, so a collision-free hash does too (`attested_eq_of_envelopeHash_eq`).
-/

namespace EsLite

/-! ## Time -/

/-- An instant: nanoseconds since the Unix epoch, in UTC. -/
@[ext] structure Time where
  /-- Nanoseconds since 1970-01-01T00:00:00Z. -/
  ns : Int
deriving DecidableEq

namespace Time

/-- Go's zero time, 0001-01-01T00:00:00Z: a timestamp that was not set. -/
def zero : Time := ⟨-62135596800000000000⟩

/-- Whether the timestamp was not set. -/
def isZero (t : Time) : Bool := t == zero

/-- The number of microseconds since the epoch, in an `int64`. -/
def unixMicro (t : Time) : Int64 := Int64.ofInt (t.ns / 1000)

end Time

/-- A timestamp cut to the microsecond. -/
def truncateMicros (t : Time) : Time := ⟨t.ns - t.ns % 1000⟩

/-- The integer form of a timestamp in the canonical encoding: 0 when it was not set. -/
def unixMicros (t : Time) : Int64 := if t.isZero then 0 else t.unixMicro

/-- `t.Sub(u)`: a 64-bit number of nanoseconds, saturated at the ends of its range. -/
def Time.sub (t u : Time) : Int64 :=
  if 2 ^ 63 ≤ t.ns - u.ns then Int64.maxValue
  else if t.ns - u.ns < -2 ^ 63 then Int64.minValue
  else Int64.ofInt (t.ns - u.ns)

/-! ## Envelopes -/

/-- A UUID. -/
abbrev UUID := FixedBytes 16

/-- A SHA-256 digest. -/
abbrev Digest := FixedBytes 32

/-- The byte length of `prevHash` and `hash`. -/
def hashSize : Nat := 32

/-- The previous hash of version 1 of every stream. -/
def zeroHash : Digest := FixedBytes.zero 32

/-- Who caused an event. -/
@[ext] structure Actor where
  /-- A coarse category. -/
  type : Bytes
  /-- The principal within the category. -/
  id : Bytes
deriving DecidableEq

/-- One stored event. A Go slice that may be `nil` is an option. -/
@[ext] structure Envelope where
  eventID : UUID
  streamID : StreamID
  /-- The position in the stream, from 1. -/
  version : UInt64
  /-- The position in the log across all streams. -/
  globalPosition : UInt64
  workspace : Bytes
  typeURL : Bytes
  schemaVersion : UInt32
  occurredAt : Time
  recordedAt : Time
  correlationID : UUID
  causationID : UUID
  commandID : UUID
  actor : Actor
  payload : Option Bytes
  /-- The hash of the version before. -/
  prevHash : Option Bytes
  /-- The hash of this envelope. -/
  hash : Option Bytes
deriving DecidableEq

/-! ## The canonical encoding -/

/-- The domain separator of envelope hashes. -/
def envelopeDomain : Bytes := str "es-lite.envelope.v1"

/-- The domain separator of the hash a chain starts from after unhashed rows. -/
def unchainedHeadDomain : Bytes := str "es-lite.unchained-head.v1"

/-- A stored hash when it has the length of one, `d` otherwise. -/
def digestOr (h : Option Bytes) (d : Digest) : Digest :=
  if hl : (h.getD []).length = 32 then ⟨h.getD [], hl⟩ else d

/-- A stored hash of the right length is taken as it is. -/
@[simp] theorem digestOr_some (d d' : Digest) : digestOr (some d.bytes) d' = d := by
  have hl : ((some d.bytes).getD []).length = 32 := d.length_bytes
  rw [digestOr, dif_pos hl]
  rfl

/-- Exactly `hashSize` bytes: the hash when it has that length, zeros otherwise. -/
def fixedHash (h : Option Bytes) : Digest := digestOr h zeroHash

/-- The bytes that `envelopeHash` hashes. -/
def canonicalEnvelope (e : Envelope) : Bytes :=
  lengthPrefixed envelopeDomain ++ (
  lengthPrefixed e.workspace ++ (
  lengthPrefixed e.streamID.canonical ++ (
  bigEndian 8 e.version.toNat ++ (
  e.eventID.bytes ++ (
  lengthPrefixed e.typeURL ++ (
  bigEndian 4 e.schemaVersion.toNat ++ (
  bigEndian 8 (unixMicros e.occurredAt).toUInt64.toNat ++ (
  bigEndian 8 (unixMicros e.recordedAt).toUInt64.toNat ++ (
  e.correlationID.bytes ++ (
  e.causationID.bytes ++ (
  e.commandID.bytes ++ (
  lengthPrefixed e.actor.type ++ (
  lengthPrefixed e.actor.id ++ (
  lengthPrefixed (e.payload.getD []) ++
  (fixedHash e.prevHash).bytes))))))))))))))

/-- The chain hash of an envelope, from its fields and its previous hash. -/
def envelopeHash (e : Envelope) : Digest := sha256 (canonicalEnvelope e)

/-- The bytes that `unchainedHeadHash` hashes. -/
def unchainedHeadEncoding (sid : StreamID) (headVersion : UInt64) : Bytes :=
  lengthPrefixed unchainedHeadDomain ++ (lengthPrefixed sid.canonical ++
    bigEndian 8 headVersion.toNat)

/-- The previous hash of the first hashed event of a stream whose head is not hashed. -/
def unchainedHeadHash (sid : StreamID) (headVersion : UInt64) : Digest :=
  sha256 (unchainedHeadEncoding sid headVersion)

/-! ## What a hash attests -/

/-- The fields an envelope's hash attests, in the form in which it attests them. -/
@[ext] structure Attested where
  workspace : Bytes
  streamID : Bytes
  version : UInt64
  eventID : UUID
  typeURL : Bytes
  schemaVersion : UInt32
  occurredAt : Int64
  recordedAt : Int64
  correlationID : UUID
  causationID : UUID
  commandID : UUID
  actor : Actor
  payload : Bytes
  prevHash : Digest
deriving DecidableEq

namespace Envelope

/-- The attested fields of an envelope. -/
def attested (e : Envelope) : Attested where
  workspace := e.workspace
  streamID := e.streamID.canonical
  version := e.version
  eventID := e.eventID
  typeURL := e.typeURL
  schemaVersion := e.schemaVersion
  occurredAt := unixMicros e.occurredAt
  recordedAt := unixMicros e.recordedAt
  correlationID := e.correlationID
  causationID := e.causationID
  commandID := e.commandID
  actor := e.actor
  payload := e.payload.getD []
  prevHash := fixedHash e.prevHash

/-- Every field of variable length fits its 32-bit length prefix. -/
structure Sized (e : Envelope) : Prop where
  workspace : e.workspace.length < 2 ^ 32
  streamID : e.streamID.canonical.length < 2 ^ 32
  typeURL : e.typeURL.length < 2 ^ 32
  actorType : e.actor.type.length < 2 ^ 32
  actorID : e.actor.id.length < 2 ^ 32
  payload : (e.payload.getD []).length < 2 ^ 32

end Envelope

/-- **The canonical encoding determines the attested fields.** -/
theorem canonicalEnvelope_inj {e e' : Envelope} (he : e.Sized) (he' : e'.Sized)
    (h : canonicalEnvelope e = canonicalEnvelope e') : e.attested = e'.attested := by
  unfold canonicalEnvelope at h
  -- peel the fields off the front, in the order in which they are written
  have h := List.append_cancel_left h
  obtain ⟨hworkspace, h⟩ := lengthPrefixed_append_inj he.workspace he'.workspace h
  obtain ⟨hstream, h⟩ := lengthPrefixed_append_inj he.streamID he'.streamID h
  obtain ⟨hversion, h⟩ := bigEndian64_append_inj h
  obtain ⟨heventID, h⟩ := FixedBytes.append_inj h
  obtain ⟨htypeURL, h⟩ := lengthPrefixed_append_inj he.typeURL he'.typeURL h
  obtain ⟨hschema, h⟩ := bigEndian32_append_inj h
  obtain ⟨hoccurred, h⟩ := bigEndianInt64_append_inj h
  obtain ⟨hrecorded, h⟩ := bigEndianInt64_append_inj h
  obtain ⟨hcorrelation, h⟩ := FixedBytes.append_inj h
  obtain ⟨hcausation, h⟩ := FixedBytes.append_inj h
  obtain ⟨hcommand, h⟩ := FixedBytes.append_inj h
  obtain ⟨hactorType, h⟩ := lengthPrefixed_append_inj he.actorType he'.actorType h
  obtain ⟨hactorID, h⟩ := lengthPrefixed_append_inj he.actorID he'.actorID h
  obtain ⟨hpayload, hprev⟩ := lengthPrefixed_append_inj he.payload he'.payload h
  ext1
  case workspace => exact hworkspace
  case streamID => exact hstream
  case version => exact hversion
  case eventID => exact heventID
  case typeURL => exact htypeURL
  case schemaVersion => exact hschema
  case occurredAt => exact hoccurred
  case recordedAt => exact hrecorded
  case correlationID => exact hcorrelation
  case causationID => exact hcausation
  case commandID => exact hcommand
  case actor => exact Actor.ext hactorType hactorID
  case payload => exact hpayload
  case prevHash => exact FixedBytes.ext hprev

/-- The hash depends on the attested fields only. -/
theorem envelopeHash_congr {e e' : Envelope} (h : e.attested = e'.attested) :
    envelopeHash e = envelopeHash e' := by
  simp only [Envelope.attested, Attested.mk.injEq] at h
  obtain ⟨h1, h2, h3, h4, h5, h6, h7, h8, h9, h10, h11, h12, h13, h14⟩ := h
  simp only [envelopeHash, canonicalEnvelope, h1, h2, h3, h4, h5, h6, h7, h8, h9, h10, h11, h12,
    h13, h14]

end EsLite
