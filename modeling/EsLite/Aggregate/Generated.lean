import EsLite.Aggregate.Serial

/-!
# Generated codecs and the upcast registry

`writeSumType` emits a codec for the events of an aggregate: one case for each variant of the annotated
oneof, told apart by their full names, and a lookup of the schema versions that are not 1. Old events are
upgraded on read by the function that `upcast.Registry` holds for their type.

`generated_roundTrips_iff`: with such a codec and registry, events come back from the store as they were
written **exactly if** no registered function changes an event of the current schema version.
-/

namespace EsLite

/-- What a generated codec reads of a message's descriptor. -/
structure Descriptor where
  fullName : Bytes
  /-- `(es.v1.schema_version)`, if it is set. -/
  schemaVersion : Option UInt32
deriving DecidableEq

/-- `schemaVersionOf` -/
def schemaVersionOf (d : Descriptor) : UInt32 :=
  match d.schemaVersion with
  | none => 1
  | some v => if v = 0 then 1 else v

/-- **The protobuf runtime**: messages of any type, and their wire format. -/
structure Proto where
  Message : Type
  descriptor : Message → Descriptor
  marshal : Message → Except Foreign Bytes
  /-- `proto.Unmarshal` into a new message of the type. -/
  unmarshal : (d : Descriptor) → Bytes → Except Foreign { m : Message // descriptor m = d }
  /-- What is marshalled is read back. -/
  unmarshal_marshal : ∀ m b, marshal m = .ok b → unmarshal (descriptor m) b = .ok ⟨m, rfl⟩
  /-- The verb `%q`. -/
  quote : Bytes → Bytes

/-- The variants of an annotated oneof, in their order. A `switch` with two cases of one name would not
compile. -/
structure SumType where
  variants : List Descriptor
  nodup : (variants.map Descriptor.fullName).Nodup

namespace SumType

variable (P : Proto) (st : SumType)

/-- The sealed interface: a message of one of the variants. -/
def Event : Type := { m : P.Message // P.descriptor m ∈ st.variants }

/-- `eventSchemaVersion`: a case for each variant whose version is not the default. -/
def schemaVersion (typeURL : Bytes) : UInt32 :=
  match (st.variants.filter (schemaVersionOf · ≠ 1)).find? (·.fullName = typeURL) with
  | some v => schemaVersionOf v
  | none => 1

/-- The `switch` of `Decode`: a case for each variant. -/
def variant (typeURL : Bytes) : Option { v // v ∈ st.variants } :=
  st.variants.attach.find? (·.1.fullName = typeURL)

/-- `EventCodec` -/
def codec : Codec (st.Event P) where
  encode ev := do
    let b ← P.marshal ev.1
    let typeURL := (P.descriptor ev.1).fullName
    pure ⟨typeURL, st.schemaVersion typeURL, some b⟩
  decode enc :=
    match st.variant enc.typeURL with
    | none => .error
        ⟨str "es-lite: unknown event type url: " ++ P.quote enc.typeURL, [.unknownEventType], false⟩
    | some v => do
      let m ← P.unmarshal v.1 (enc.payload.getD [])
      pure ⟨m.1, m.2.symm ▸ v.2⟩

end SumType

/-- `upcast.Registry`: a function for each type that has one. -/
structure Registry (E : Type) where
  fns : Bytes → Option (UInt32 → E → Except Foreign E)

namespace Registry

variable {E : Type}

/-- `NewRegistry` -/
def newRegistry : Registry E := ⟨fun _ => none⟩

/-- `Register` -/
def register (r : Registry E) (typeURL : Bytes) (fn : UInt32 → E → Except Foreign E) : Registry E :=
  ⟨fun t => if t = typeURL then some fn else r.fns t⟩

/-- `Upcast` -/
def upcast (r : Registry E) (typeURL : Bytes) (fromVersion : UInt32) (event : E) : Except Foreign E :=
  match r.fns typeURL with
  | some fn => fn fromVersion event
  | none => .ok event

end Registry

namespace SumType

variable {P : Proto} {st : SumType}

theorem eq_of_fullName {v w : Descriptor} (hv : v ∈ st.variants) (hw : w ∈ st.variants)
    (h : w.fullName = v.fullName) : w = v :=
  List.inj_on_of_nodup_map st.nodup hw hv h

/-- The emitted lookup is the option that was read. -/
theorem schemaVersion_fullName {v : Descriptor} (hv : v ∈ st.variants) :
    st.schemaVersion v.fullName = schemaVersionOf v := by
  unfold schemaVersion
  split
  · rename_i w hw
    have hname := List.find?_some hw
    rw [decide_eq_true_eq] at hname
    rw [eq_of_fullName hv (List.mem_filter.mp (List.mem_of_find?_eq_some hw)).1 hname]
  · -- no case was emitted: the `default` of the switch is the default of the option
    rename_i hnone
    by_contra hne
    refine List.find?_eq_none.mp hnone v (List.mem_filter.mpr ⟨hv, ?_⟩) (decide_eq_true rfl)
    exact decide_eq_true (Ne.symm hne)

theorem variant_fullName {v : Descriptor} (hv : v ∈ st.variants) :
    st.variant v.fullName = some ⟨v, hv⟩ := by
  cases hfind : st.variant v.fullName with
  | none => exact absurd (decide_eq_true rfl) (List.find?_eq_none.mp hfind ⟨v, hv⟩ (List.mem_attach _ _))
  | some w =>
    have hname := List.find?_some hfind
    rw [decide_eq_true_eq] at hname
    rw [Option.some.injEq, Subtype.ext_iff]
    exact eq_of_fullName hv w.2 hname

/-- What is encoded carries the current schema version of its type. -/
theorem encode_eq_ok {ev : st.Event P} {enc : EncodedEvent} (h : (st.codec P).encode ev = .ok enc) :
    ∃ b, P.marshal ev.1 = .ok b ∧
      enc = ⟨(P.descriptor ev.1).fullName, schemaVersionOf (P.descriptor ev.1), some b⟩ := by
  change (P.marshal ev.1 >>= _) = _ at h
  cases hb : P.marshal ev.1 with
  | error err =>
    rw [hb] at h
    cases h
  | ok b =>
    rw [hb] at h
    cases h
    exact ⟨b, rfl, by rw [schemaVersion_fullName ev.2]⟩

/-- **What is encoded is decoded**, before any upcast. -/
theorem decode_encode {ev : st.Event P} {enc : EncodedEvent} (h : (st.codec P).encode ev = .ok enc)
    {payload : Option Bytes} (hpayload : payload.getD [] = enc.payload.getD []) :
    (st.codec P).decode ⟨enc.typeURL, enc.schemaVersion, payload⟩ = .ok ev := by
  obtain ⟨b, hb, rfl⟩ := encode_eq_ok h
  have hread := P.unmarshal_marshal ev.1 b hb
  change payload.getD [] = b at hpayload
  simp only [codec, variant_fullName ev.2, hpayload, hread]
  rfl

/-- **Schema evolution is safe exactly if the current version is left alone.** With a generated codec and an
upcast registry, an event that was stored comes back as it was written, for every event that can be written,
if and only if each registered function returns the events of its type unchanged at their current schema
version. -/
theorem generated_roundTrips_iff {S C : Type} (M : Model S C (st.Event P)) (r : Registry (st.Event P)) :
    Aggregate.RoundTrips { M with codec := st.codec P, upcaster := some r.upcast } ↔
      ∀ (ev : st.Event P) (enc : EncodedEvent) fn, (st.codec P).encode ev = .ok enc →
        r.fns (P.descriptor ev.1).fullName = some fn →
          fn (schemaVersionOf (P.descriptor ev.1)) ev = .ok ev := by
  constructor
  · -- `Decode` has given the event back, so what is left of the round trip is the function itself
    intro h ev enc fn henc hfn
    obtain ⟨ev', hdecode, hupcast⟩ := h ev enc enc.payload henc rfl
    rw [decode_encode henc rfl] at hdecode
    cases hdecode
    obtain ⟨b, -, rfl⟩ := encode_eq_ok henc
    simpa only [Model.upcast, Registry.upcast, hfn] using hupcast
  · intro h ev enc payload henc hpayload
    refine ⟨ev, decode_encode henc hpayload, ?_⟩
    obtain ⟨b, -, rfl⟩ := encode_eq_ok henc
    change r.upcast _ _ ev = .ok ev
    unfold Registry.upcast
    split
    · rename_i fn hfn
      exact h ev _ fn henc hfn
    · rfl

end SumType

/-! ## The events of a counter -/

/-- Messages with one field `bytes value = 1` of fewer than 128 bytes, in the wire format: the tag, the
length and the bytes, or nothing for an empty field. -/
def valueProto : Proto where
  Message := Descriptor × Bytes
  descriptor := Prod.fst
  marshal m :=
    if m.2 = [] then .ok []
    else if m.2.length < 128 then .ok (10 :: UInt8.ofNat m.2.length :: m.2)
    else .error ⟨str "message too large", [], false⟩
  unmarshal d
    | [] => .ok ⟨(d, []), rfl⟩
    | tag :: rest =>
      if tag = 10 ∧ rest.head?.map UInt8.toNat = some rest.tail.length then .ok ⟨(d, rest.tail), rfl⟩
      else .error ⟨str "cannot parse invalid wire-format data", [], false⟩
  unmarshal_marshal := by
    rintro ⟨d, value⟩ b h
    dsimp only at h ⊢
    split at h
    · rename_i hempty
      obtain rfl : value = [] := hempty
      cases h
      rfl
    split at h
    · rename_i hlength
      cases h
      have hbyte : (UInt8.ofNat value.length).toNat = value.length :=
        UInt8.toNat_ofNat_of_lt' (hlength.trans (by decide))
      exact if_pos ⟨rfl, congrArg some hbyte⟩
    · cases h
  quote b := 34 :: (b ++ [34])

/-- The variants of the counter's events; the second one is at schema version 2. -/
def counterEvents : SumType where
  variants := [⟨str "counter.v1.Incremented", none⟩, ⟨str "counter.v1.Renamed", some 2⟩]
  nodup := by decide

/-- An event with a longer value. -/
def lengthen (ev : counterEvents.Event valueProto) : counterEvents.Event valueProto :=
  ⟨(ev.1.1, 33 :: ev.1.2), ev.2⟩

/-- The function for `Renamed`, registered with whether it looks at the version. -/
def renamedRegistry (looks : Bool) : Registry (counterEvents.Event valueProto) :=
  Registry.newRegistry.register (str "counter.v1.Renamed") fun fromVersion ev =>
    .ok (if looks && 2 ≤ fromVersion then ev else lengthen ev)

/-- A model of the counter. -/
def eventCounter : Model Nat (counterEvents.Event valueProto) (counterEvents.Event valueProto) where
  decider :=
    { initial := 0
      decide := fun _ ev => .ok ([ev], [])
      evolve := fun n _ => n + 1
      isTerminal := none }
  codec := counterEvents.codec valueProto
  upcaster := none
  decisionTime _ := none
  stampDecisionTime cmd _ := cmd

/-- The counter with the registered function. -/
def renamedCounter (looks : Bool) :
    Model Nat (counterEvents.Event valueProto) (counterEvents.Event valueProto) :=
  { eventCounter with
    codec := counterEvents.codec valueProto
    upcaster := some (renamedRegistry looks).upcast }

/-- **A function that looks at the version** is safe, and one that does not is not. -/
theorem generated_roundTrips_counter :
    Aggregate.RoundTrips (renamedCounter true) ∧ ¬ Aggregate.RoundTrips (renamedCounter false) := by
  refine ⟨(SumType.generated_roundTrips_iff eventCounter (renamedRegistry true)).mpr
    fun ev enc fn _ hfn => ?_, fun h => ?_⟩
  · -- the name of the type tells its variant, and with it the version that is written
    obtain ⟨hname, rfl⟩ : (valueProto.descriptor ev.1).fullName = str "counter.v1.Renamed" ∧ _ = fn := by
      simpa [renamedRegistry, Registry.register, Registry.newRegistry] using hfn
    have hvariant : valueProto.descriptor ev.1 = ⟨str "counter.v1.Renamed", some 2⟩ :=
      SumType.eq_of_fullName (List.mem_cons_of_mem _ (List.mem_singleton_self _)) ev.2 hname
    rw [hvariant]
    rfl
  · have hsame := (SumType.generated_roundTrips_iff eventCounter (renamedRegistry false)).mp h
      ⟨(⟨str "counter.v1.Renamed", some 2⟩, []), by decide⟩ _ _ rfl rfl
    cases congrArg (fun ev => ev.1.2) (Except.ok.inj hsame)

end EsLite
