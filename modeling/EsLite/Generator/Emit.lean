import EsLite.Generator.Specs
import Mathlib.Data.Set.Function

/-!
# The code generated for a spec

For a projection the generator emits a handler interface, a loader interface for each consumed
aggregate, the `Deps` struct and the dispatch of the runner; for a reaction also an `Issuer` with a
method for each issued command. This module has these declarations as data, `writeProjection` and
`writeReaction`, and says when their identifiers are distinct.

The methods always are: the collection refuses a spec whose entries share one. The fields are named
after the states of the aggregates, which the collection does not compare. `ProjectionApart` and
`ReactionApart` are the exact conditions on the request under which they do not meet.
-/

namespace EsLite.Generator

/-! ## Declarations -/

/-- A Go type in a generated declaration. -/
inductive GoType
  /-- A predeclared type or one of the generated package. -/
  | own (name : String)
  /-- A type of an import path. -/
  | ident (i : GoIdent)
  /-- A pointer type. -/
  | pointer (t : GoType)
  /-- A slice type. -/
  | slice (t : GoType)
  /-- An instance of a generic type. -/
  | inst (generic : GoIdent) (arg : GoType)

/-- A struct field or a parameter. -/
structure GoField where
  /-- Its name. -/
  name : String
  /-- Its type. -/
  type : GoType

/-- A method signature. -/
structure GoMethod where
  /-- Its name. -/
  name : String
  /-- Its parameters. -/
  params : List GoField
  /-- Its results. -/
  results : List GoType

/-- An interface declaration. -/
structure GoInterface where
  /-- Its name. -/
  name : String
  /-- Its methods. -/
  methods : List GoMethod

/-- A struct declaration. -/
structure GoStruct where
  /-- Its name. -/
  name : String
  /-- Its fields. -/
  fields : List GoField

/-- The names of the fields of a struct. -/
def GoStruct.fieldNames (s : GoStruct) : List String := s.fields.map GoField.name

/-- A type of the context package. -/
def contextType (name : String) : GoType := .ident ⟨name, "context"⟩

/-- An identifier of the es package. -/
def esIdent (name : String) : GoIdent := ⟨name, "github.com/laenenai/es-lite/es"⟩

/-- An identifier of the projection package. -/
def projectionIdent (name : String) : GoIdent := ⟨name, "github.com/laenenai/es-lite/projection"⟩

/-- An identifier of the reaction package. -/
def reactionIdent (name : String) : GoIdent := ⟨name, "github.com/laenenai/es-lite/reaction"⟩

/-- The field of an aggregate in `Deps`: the Go name of its state. -/
def depName (a : AggregateInfo) : String := a.state.goName.text

/-- The handler interface: one method for each consumed event. With a state it takes the decoded
event and the state; a reaction's takes the issuer, too. -/
def writeHandlerIface (base : String) (consumes : List Consumed) (withState : Bool)
    (issuer : String) : GoInterface where
  name := base ++ "Handler"
  methods := consumes.map fun c =>
    { name := c.method
      params := [⟨"ctx", contextType "Context"⟩, ⟨"env", .ident (esIdent "Envelope")⟩] ++
        (if withState then
          [⟨"ev", .pointer (.ident c.msg.goIdent)⟩, ⟨"state", .pointer (.ident c.agg.state.goIdent)⟩]
        else []) ++
        (if issuer ≠ "" then [⟨"issue", .pointer (.own issuer)⟩] else [])
      results := [.own "error"] }

/-- The loader interface of an aggregate. -/
def writeLoader (base : String) (a : AggregateInfo) : GoInterface where
  name := base ++ depName a ++ "Loader"
  methods :=
    [{ name := "LoadAsOfVersion"
       params := [⟨"ctx", contextType "Context"⟩, ⟨"sid", .ident (esIdent "StreamID")⟩,
        ⟨"v", .own "uint64"⟩]
       results := [.pointer (.ident a.state.goIdent), .own "error"] }]

/-- The loader interfaces and the `Deps` struct. With a state every consumed aggregate has a loader
and a codec; a reaction has a router for every issuing aggregate, and the actor. -/
def writeDeps (base : String) (aggs : AggregateSet) (withState : Bool)
    (routers : Option AggregateSet) : List GoInterface × GoStruct :=
  (if withState then aggs.sorted.map (writeLoader base) else [],
    { name := base ++ "Deps"
      fields :=
        (if withState then aggs.sorted.flatMap fun a =>
          [⟨depName a, .own (base ++ depName a ++ "Loader")⟩,
            ⟨depName a ++ "Codec", .inst (esIdent "Codec") (.ident a.ifaceIdent)⟩]
        else []) ++
        (match routers with
          | none => []
          | some routers => (routers.sorted.map fun a =>
              ⟨depName a ++ "Router", .inst (reactionIdent "Dispatcher") (.ident a.ifaceIdent)⟩) ++
              [⟨"Actor", .ident (esIdent "Actor")⟩]) ++
        [⟨"Marker", .ident (projectionIdent "Marker")⟩] })

/-- A branch of the dispatch: the type it is for, the codec variable and the `Deps` field through
which the event and the state are read, and the method it calls. -/
structure DispatchCase where
  /-- The type of the branch. -/
  typeURL : String
  /-- The codec variable and the loader field, with a state. -/
  reads : Option (String × String)
  /-- The handler method. -/
  method : String

/-- A codec variable of the dispatch: it is set from its `Deps` field, or else to the generated
codec. -/
structure CodecVariable where
  /-- Its name. -/
  name : String
  /-- The field it is set from. -/
  field : String
  /-- The codec it is set to when the field is nil. -/
  fallback : GoIdent

/-- The dispatch of a runner. -/
structure Dispatch where
  /-- Its codec variables. -/
  codecs : List CodecVariable
  /-- Its branches. -/
  cases : List DispatchCase

/-- The dispatch of a spec: with a state, a codec variable for each consumed aggregate; and the
branches, in the order of the spec. -/
def writeDispatch (u : Unicode) (consumes : List Consumed) (withState : Bool) : Dispatch where
  codecs :=
    if withState then
      let aggs := consumes.foldl (fun aggs c => aggs.add c.agg) AggregateSet.empty
      aggs.sorted.map fun a =>
        ⟨lowerFirst u (depName a) ++ "Codec", depName a ++ "Codec", a.codecIdent⟩
    else []
  cases := consumes.map fun c =>
    { typeURL := c.typeURL
      reads := if withState then some (lowerFirst u (depName c.agg) ++ "Codec", depName c.agg)
        else none
      method := c.method }

/-- The code generated for a projection. -/
structure ProjectionCode where
  /-- The handler interface. -/
  handler : GoInterface
  /-- The loader interfaces. -/
  loaders : List GoInterface
  /-- The `Deps` struct. -/
  deps : GoStruct
  /-- The dispatch of its runner. -/
  dispatch : Dispatch

/-- A method of the issuer: it appends its command to a field. -/
structure IssuerMethod where
  /-- The type it is for. -/
  typeURL : String
  /-- Its name. -/
  name : String
  /-- The type of its command. -/
  command : GoType
  /-- The field it appends to. -/
  field : String

/-- The code generated for a reaction. -/
structure ReactionCode extends ProjectionCode where
  /-- The `Issuer` struct. -/
  issuer : GoStruct
  /-- Its methods. -/
  issuerMethods : List IssuerMethod
  /-- The router and the issuer field of every issuing aggregate, in the order in which the issued
  commands are executed. -/
  executes : List (String × String)

/-- Whether the handlers of a projection get the state. -/
def ProjSpec.fetchesState (p : ProjSpec) : Bool := p.spec.fetch = .stateAsOfEventVersion

/-- Whether the handlers of a reaction get the state. -/
def ReactSpec.fetchesState (rc : ReactSpec) : Bool := rc.spec.fetch = .stateAsOfEventVersion

/-- The code of a projection. -/
def writeProjection (u : Unicode) (p : ProjSpec) : ProjectionCode :=
  let (loaders, deps) := writeDeps p.base p.aggs p.fetchesState none
  { handler := writeHandlerIface p.base p.consumes p.fetchesState ""
    loaders := loaders
    deps := deps
    dispatch := writeDispatch u p.consumes p.fetchesState }

/-- The code of a reaction. -/
def writeReaction (u : Unicode) (rc : ReactSpec) : ReactionCode :=
  let issuerName := rc.base ++ "Issuer"
  let (loaders, deps) := writeDeps rc.base rc.aggs rc.fetchesState (some rc.routers)
  { handler := writeHandlerIface rc.base rc.consumes rc.fetchesState issuerName
    loaders := loaders
    deps := deps
    dispatch := writeDispatch u rc.consumes rc.fetchesState
    issuer :=
      { name := issuerName
        fields := rc.routers.sorted.map fun a =>
          ⟨lowerFirst u (depName a), .slice (.inst (reactionIdent "Issue") (.ident a.ifaceIdent))⟩ }
    issuerMethods := rc.issues.map fun i =>
      { typeURL := i.typeURL
        name := i.method
        command := .pointer (.ident i.msg.goIdent)
        field := lowerFirst u (depName i.agg) }
    executes := rc.routers.sorted.map fun a => (depName a ++ "Router", lowerFirst u (depName a)) }

/-! ## Distinct identifiers -/

/-- **Methods and types correspond one to one**: they are paired, and neither side repeats. -/
structure OneToOne (pairs : List (String × String)) (types methods : List String) : Prop where
  /-- Every type is paired. -/
  types_eq : pairs.map Prod.fst = types
  /-- Every method is paired. -/
  methods_eq : pairs.map Prod.snd = methods
  /-- No type repeats. -/
  nodup_types : types.Nodup
  /-- No method repeats. -/
  nodup_methods : methods.Nodup

/-- The handler methods of a projection, paired with the consumed types by the dispatch. -/
def ProjSpec.HandlersCorrespond (u : Unicode) (p : ProjSpec) : Prop :=
  OneToOne ((writeProjection u p).dispatch.cases.map fun c => (c.typeURL, c.method)) p.spec.consumes
    ((writeProjection u p).handler.methods.map GoMethod.name)

/-- The handler methods of a reaction, paired with the consumed types by the dispatch. -/
def ReactSpec.HandlersCorrespond (u : Unicode) (rc : ReactSpec) : Prop :=
  OneToOne ((writeReaction u rc).dispatch.cases.map fun c => (c.typeURL, c.method)) rc.spec.consumes
    ((writeReaction u rc).handler.methods.map GoMethod.name)

/-- The issuer methods of a reaction, paired with the types they are for. -/
def ReactSpec.IssuersCorrespond (u : Unicode) (rc : ReactSpec) : Prop :=
  OneToOne ((writeReaction u rc).issuerMethods.map fun m => (m.typeURL, m.name)) rc.spec.issues
    ((writeReaction u rc).issuerMethods.map IssuerMethod.name)

/-- The identifiers generated for a projection do not meet. -/
structure ProjSpec.DistinctIdentifiers (u : Unicode) (p : ProjSpec) : Prop where
  /-- The fields of `Deps` are different. -/
  deps : (writeProjection u p).deps.fieldNames.Nodup
  /-- The handler methods correspond to the consumed types. -/
  handlers : p.HandlersCorrespond u

/-- The identifiers generated for a reaction do not meet. -/
structure ReactSpec.DistinctIdentifiers (u : Unicode) (rc : ReactSpec) : Prop where
  /-- The fields of `Deps` are different. -/
  deps : (writeReaction u rc).deps.fieldNames.Nodup
  /-- The fields of `Issuer` are different. -/
  issuer : (writeReaction u rc).issuer.fieldNames.Nodup
  /-- The handler methods correspond to the consumed types. -/
  handlers : rc.HandlersCorrespond u
  /-- The issuer methods correspond to the issued types. -/
  issuers : rc.IssuersCorrespond u

/-! ### What a request may declare -/

/-- The aggregate states behind some types: the packages that declare the types, each with the Go
name of its state. -/
def Request.states (q : Request) (types : List String) : Set (String × String) :=
  {x | ∃ m ∈ q.messages, m.fullName ∈ types ∧ m.parentPackage = x.1 ∧
    ∃ s ∈ q.aggregates x.1, s.goName.text = x.2}

/-- The loader and codec fields of some states do not meet: packages have different state names, no
name is another one with `Codec` behind it, and none is the name of a fixed field. -/
@[mk_iff] structure LoadersApart (states : Set (String × String)) (fixed : List String) : Prop where
  /-- No two packages share a state name. -/
  names : states.InjOn Prod.snd
  /-- A loader is not another state's codec. -/
  codecs : ∀ x ∈ states, ∀ y ∈ states, x.2 ≠ y.2 ++ "Codec"
  /-- A loader is not a fixed field. -/
  fixed : ∀ x ∈ states, x.2 ∉ fixed

/-- The issuer fields of some states do not meet: packages have different state names, and none is a
capitalised keyword of which another one is the escaped form. -/
@[mk_iff] structure IssuersApart (states : Set (String × String)) : Prop where
  /-- No two packages share a state name. -/
  names : states.InjOn Prod.snd
  /-- There is no pair such as `Case` and `Case_`. -/
  escaped : ∀ x ∈ states, ∀ y ∈ states, decapitalize x.2 ∈ goKeywords → y.2 ≠ x.2 ++ "_"

/-- What the request must keep apart for a projection: the states of its consumed types, if it
fetches them. -/
def Request.ProjectionApart (q : Request) (spec : ProjectionSpec) : Prop :=
  spec.fetch = .stateAsOfEventVersion → LoadersApart (q.states spec.consumes) ["Marker"]

/-- What the request must keep apart for a reaction. -/
structure Request.ReactionApart (q : Request) (spec : ReactionSpec) : Prop where
  /-- The states of the consumed types, if it fetches them. -/
  loaders : spec.fetch = .stateAsOfEventVersion →
    LoadersApart (q.states spec.consumes) ["Actor", "Marker"]
  /-- These from the routers. -/
  routers : spec.fetch = .stateAsOfEventVersion →
    ∀ x ∈ q.states spec.consumes, ∀ y ∈ q.states spec.issues, x.2 ≠ y.2 ++ "Router"
  /-- The states of the issued types. -/
  issuers : IssuersApart (q.states spec.issues)

/-! ### Field names -/

/-- A name that does not end in a suffix is no name with that suffix. -/
theorem ne_append_of_not_suffix {s x : String} (h : ¬ x.toList <:+ s.toList) (t : String) :
    s ≠ t ++ x := by
  rintro rfl
  exact h ⟨t.toList, String.toList_append.symm⟩

theorem append_codec_ne_append_router (s t : String) : s ++ "Codec" ≠ t ++ "Router" := by
  intro h
  have hlast := congrArg (fun x : String => x.toList.getLast?) h
  simp at hlast

/-- The loader and codec fields of some states. -/
def loaderNames (names : List String) : List String := names.flatMap fun n => [n, n ++ "Codec"]

variable {names : List String} {rc : ReactSpec}

@[simp] theorem mem_loaderNames {s : String} :
    s ∈ loaderNames names ↔ s ∈ names ∨ ∃ n ∈ names, s = n ++ "Codec" := by
  simp only [loaderNames, List.mem_flatMap, List.mem_cons, List.not_mem_nil, or_false]
  constructor
  · rintro ⟨n, hn, rfl | rfl⟩
    · exact .inl hn
    · exact .inr ⟨n, hn, rfl⟩
  · rintro (hs | ⟨n, hn, rfl⟩)
    · exact ⟨s, hs, .inl rfl⟩
    · exact ⟨n, hn, .inr rfl⟩

/-- They are different when the states are, and no state is named like a codec. -/
theorem nodup_loaderNames :
    (loaderNames names).Nodup ↔ names.Nodup ∧ ∀ a ∈ names, ∀ b ∈ names, a ≠ b ++ "Codec" := by
  have hself : ∀ a : String, a ≠ a ++ "Codec" := by
    intro a h
    simpa using congrArg String.length h
  induction names with
  | nil => simp [loaderNames]
  | cons n names ih =>
    have hcons : loaderNames (n :: names) = n :: (n ++ "Codec") :: loaderNames names := rfl
    have hcodec : n ++ "Codec" ∉ loaderNames names ↔ n ++ "Codec" ∉ names ∧ n ∉ names := by
      simp
    rw [hcons, List.nodup_cons, List.nodup_cons, hcodec, List.nodup_cons]
    simp only [ih, List.mem_cons, mem_loaderNames, not_or, not_exists, not_and, hself n,
      not_false_eq_true, true_and, forall_eq_or_imp, ne_eq]
    constructor
    · rintro ⟨⟨hn, hnc⟩, ⟨hcn, -⟩, hnodup, hall⟩
      exact ⟨⟨hn, hnodup⟩, hnc, fun a ha => ⟨fun h => hcn (h ▸ ha), hall a ha⟩⟩
    · rintro ⟨⟨hn, hnodup⟩, hnc, hall⟩
      exact ⟨⟨hn, hnc⟩, ⟨fun h => (hall _ h).1 rfl, hn⟩, hnodup, fun a ha => (hall a ha).2⟩

/-- The loader and codec fields before other fields, none of which is named like a codec. -/
theorem nodup_loaderNames_append {rest : List String} (hrest : ∀ s ∈ rest, ∀ n, s ≠ n ++ "Codec") :
    (loaderNames names ++ rest).Nodup ↔
      (names.Nodup ∧ ∀ a ∈ names, ∀ b ∈ names, a ≠ b ++ "Codec") ∧ rest.Nodup ∧
        ∀ n ∈ names, n ∉ rest := by
  rw [List.nodup_append', nodup_loaderNames]
  refine and_congr_right fun _ => and_congr_right fun _ => ?_
  constructor
  · intro h n hn
    exact h (mem_loaderNames.mpr (.inl hn))
  · intro h s hs hs'
    rcases mem_loaderNames.mp hs with hs | ⟨n, -, hn⟩
    · exact h s hs hs'
    · exact hrest s hs' n hn

/-- The fields of a reaction after its loaders. -/
def routerNames (names : List String) : List String :=
  names.map (· ++ "Router") ++ ["Actor", "Marker"]

theorem mem_routerNames {s : String} :
    s ∈ routerNames names ↔ (∃ n ∈ names, s = n ++ "Router") ∨ s ∈ ["Actor", "Marker"] := by
  simp only [routerNames, List.mem_append, List.mem_map, eq_comm]

/-- No state is called so that its router is a fixed field. -/
theorem nodup_routerNames : (routerNames names).Nodup ↔ names.Nodup := by
  have hinj : Function.Injective fun n : String => n ++ "Router" := by
    intro a b h
    simpa using h
  have hfixed : ∀ s ∈ ["Actor", "Marker"], ¬ "Router".toList <:+ s.toList := by decide
  rw [routerNames, List.nodup_append', List.nodup_map_iff hinj]
  constructor
  · exact And.left
  · intro h
    refine ⟨h, by decide, ?_⟩
    intro s hs hs'
    obtain ⟨n, -, hn⟩ := List.mem_map.mp hs
    exact ne_append_of_not_suffix (hfixed s hs') n hn.symm

theorem routerNames_ne_codec : ∀ s ∈ routerNames names, ∀ n, s ≠ n ++ "Codec" := by
  have hfixed : ∀ s ∈ ["Actor", "Marker"], ¬ "Codec".toList <:+ s.toList := by decide
  intro s hs n
  rcases mem_routerNames.mp hs with ⟨m, -, rfl⟩ | hs
  · exact (append_codec_ne_append_router n m).symm
  · exact ne_append_of_not_suffix (hfixed s hs) n

/-- **The unexported forms of exported names** are different when the names are, and none is a
capitalised keyword of which another one is the escaped form. -/
theorem nodup_lowerFirst {u : Unicode} (hexp : ∀ n ∈ names, Exported n) :
    (names.map (lowerFirst u)).Nodup ↔
      names.Nodup ∧
        ∀ a ∈ names, ∀ b ∈ names, decapitalize a ∈ goKeywords → b ≠ a ++ "_" := by
  constructor
  · intro h
    have hinj := List.inj_on_of_nodup_map h
    refine ⟨List.Nodup.of_map _ h, ?_⟩
    rintro a ha b hb hkey rfl
    have hsame := ((hexp a ha).lowerFirst_eq_iff u (hexp _ hb)).mpr (.inr (.inl ⟨hkey, rfl⟩))
    simpa using congrArg String.length (hinj ha hb hsame)
  · rintro ⟨hnodup, hescaped⟩
    rw [List.nodup_map_iff_inj_on hnodup]
    intro a ha b hb hsame
    rcases ((hexp a ha).lowerFirst_eq_iff u (hexp b hb)).mp hsame with h | ⟨hkey, h⟩ | ⟨hkey, h⟩
    · exact h
    · exact absurd h (hescaped a ha b hb hkey)
    · exact absurd h (hescaped b hb a ha hkey)

/-! ### The fields of an accepted spec -/

/-- The states of a set of aggregates, in the order of the fields. -/
def AggregateSet.stateNames (s : AggregateSet) : List String := s.sorted.map depName

theorem AggregateSet.exported_stateNames (s : AggregateSet) : ∀ n ∈ s.stateNames, Exported n := by
  intro n hn
  obtain ⟨a, -, rfl⟩ := List.mem_map.mp hn
  exact a.state.goName.exported

section Fields

variable {u : Unicode} {q : Request} {r : Resolver} {site iface lead : String}
  {types : List String} {entries : List Entry} {aggs : AggregateSet}
  (h : Resolved u r site iface lead types entries aggs)

include h

/-- The methods of an accepted spec correspond to its types, whatever carries them. -/
theorem Resolved.oneToOne :
    OneToOne (entries.map fun e => (e.typeURL, e.method)) types (entries.map Entry.method) where
  types_eq := by
    rw [List.map_map]
    exact h.typeURLs
  methods_eq := by
    rw [List.map_map]
    rfl
  nodup_types := h.nodup_types
  nodup_methods := h.nodup_methods

variable (hr : newResolver q = .ok r)

include hr

/-- **The states behind the types of an accepted spec** are those of its aggregates. -/
theorem Resolved.states_eq : q.states types = {x | x ∈ aggs.sorted.map fun a => (a.pkg, depName a)} := by
  have hindex := newResolver_indexes hr
  ext ⟨pkg, name⟩
  simp only [Request.states, Set.mem_ofPred_eq, List.mem_map, AggregateSet.mem_sorted, h.mem_aggs]
  constructor
  · rintro ⟨m, hm, htype, rfl, s, hs, rfl⟩
    rw [← h.typeURLs] at htype
    obtain ⟨e, he, htype⟩ := List.mem_map.mp htype
    obtain ⟨hlookup, hpkg, -, -, hstate, -, -⟩ := Resolver.variant_eq_ok (h.variants e he)
    obtain ⟨hmem, hname⟩ := hindex.msgs _ _ hlookup
    obtain rfl := Request.message_unique hmem hm (hname.trans htype)
    -- the package has one aggregate state
    rw [hindex.aggregates, hpkg] at hstate
    rw [Request.aggregates, hstate, List.mem_singleton] at hs
    exact ⟨e.agg, ⟨e, he, rfl⟩, by rw [hpkg, depName, hs]⟩
  · rintro ⟨a, ⟨e, he, rfl⟩, hx⟩
    cases hx
    obtain ⟨hlookup, hpkg, -, -, hstate, -, -⟩ := Resolver.variant_eq_ok (h.variants e he)
    obtain ⟨hmem, hname⟩ := hindex.msgs _ _ hlookup
    refine ⟨e.msg, hmem, ?_, hpkg.symm, e.agg.state, ?_, rfl⟩
    · rw [hname, ← h.typeURLs]
      exact List.mem_map_of_mem he
    · rw [hindex.aggregates] at hstate
      rw [Request.aggregates, hstate]
      exact List.mem_cons_self

/-- A property of the states is one of the names of the fields. -/
theorem Resolved.forall_states (P : String → Prop) :
    (∀ x ∈ q.states types, P x.2) ↔ ∀ n ∈ aggs.stateNames, P n := by
  rw [h.states_eq hr, AggregateSet.stateNames]
  simp

/-- A property of two states, of one spec or of two of its lists. -/
theorem Resolved.forall_states₂ {iface' lead' : String} {types' : List String}
    {entries' : List Entry} {aggs' : AggregateSet}
    (h' : Resolved u r site iface' lead' types' entries' aggs') (P : String → String → Prop) :
    (∀ x ∈ q.states types, ∀ y ∈ q.states types', P x.2 y.2) ↔
      ∀ a ∈ aggs.stateNames, ∀ b ∈ aggs'.stateNames, P a b := by
  rw [h.forall_states hr fun a => ∀ y ∈ q.states types', P a y.2]
  exact forall₂_congr fun a _ => h'.forall_states hr (P a)

/-- The states of the packages are different when the field names are. -/
theorem Resolved.nodup_stateNames : aggs.stateNames.Nodup ↔ (q.states types).InjOn Prod.snd := by
  rw [h.states_eq hr]
  exact nodup_map_iff_injOn aggs.nodup_pkg_sorted

/-- The loader fields of an accepted spec are apart when the states behind its types are. -/
theorem Resolved.loadersApart (fixed : List String) :
    LoadersApart (q.states types) fixed ↔
      (aggs.stateNames.Nodup ∧ ∀ a ∈ aggs.stateNames, ∀ b ∈ aggs.stateNames, a ≠ b ++ "Codec") ∧
        ∀ n ∈ aggs.stateNames, n ∉ fixed := by
  rw [loadersApart_iff, h.nodup_stateNames hr, h.forall_states hr (· ∉ fixed), and_assoc,
    h.forall_states₂ hr h fun a b => a ≠ b ++ "Codec"]

/-- The issuer fields of an accepted spec are apart when the states behind its types are. -/
theorem Resolved.issuersApart :
    IssuersApart (q.states types) ↔ (aggs.stateNames.map (lowerFirst u)).Nodup := by
  rw [issuersApart_iff, ← h.nodup_stateNames hr, nodup_lowerFirst aggs.exported_stateNames,
    h.forall_states₂ hr h fun a b => decapitalize a ∈ goKeywords → b ≠ a ++ "_"]

end Fields

/-! ### The generated code -/

/-- The loader fields of a spec, if it fetches states. -/
theorem map_name_loaders (base : String) (aggs : AggregateSet) :
    (aggs.sorted.flatMap fun a =>
      [(⟨depName a, .own (base ++ depName a ++ "Loader")⟩ : GoField),
        ⟨depName a ++ "Codec", .inst (esIdent "Codec") (.ident a.ifaceIdent)⟩]).map GoField.name =
      loaderNames aggs.stateNames := by
  rw [loaderNames, AggregateSet.stateNames, List.map_flatMap, List.flatMap_map]
  rfl

theorem fieldNames_projection (u : Unicode) (p : ProjSpec) :
    (writeProjection u p).deps.fieldNames =
      (if p.fetchesState then loaderNames p.aggs.stateNames else []) ++ ["Marker"] := by
  cases hf : p.fetchesState <;> simp [writeProjection, writeDeps, GoStruct.fieldNames, hf,
    map_name_loaders]

theorem fieldNames_reaction (u : Unicode) (rc : ReactSpec) :
    (writeReaction u rc).deps.fieldNames =
      (if rc.fetchesState then loaderNames rc.aggs.stateNames else []) ++
        routerNames rc.routers.stateNames := by
  cases hf : rc.fetchesState <;> simp [writeReaction, writeDeps, GoStruct.fieldNames, hf,
    map_name_loaders, routerNames, AggregateSet.stateNames]

theorem fieldNames_issuer (u : Unicode) (rc : ReactSpec) :
    (writeReaction u rc).issuer.fieldNames = rc.routers.stateNames.map (lowerFirst u) := by
  simp [writeReaction, GoStruct.fieldNames, AggregateSet.stateNames]

theorem oneToOne_handler {u : Unicode} {r : Resolver} {site : String} {types : List String}
    {entries : List Consumed} {aggs : AggregateSet}
    (h : Resolved u r site eventSumType "On" types entries aggs) (base issuer : String)
    (withState : Bool) :
    OneToOne ((writeDispatch u entries withState).cases.map fun c => (c.typeURL, c.method)) types
      ((writeHandlerIface base entries withState issuer).methods.map GoMethod.name) := by
  simp only [writeDispatch, writeHandlerIface, List.map_map]
  exact h.oneToOne

section Accepted

variable {u : Unicode} {q : Request} {r : Resolver}

theorem ProjSpec.Accepted.handlersCorrespond {p : ProjSpec} (h : p.Accepted u r) :
    p.HandlersCorrespond u :=
  oneToOne_handler h.consumes p.base "" p.fetchesState

theorem ReactSpec.Accepted.handlersCorrespond (h : rc.Accepted u r) : rc.HandlersCorrespond u :=
  oneToOne_handler h.consumes rc.base (rc.base ++ "Issuer") rc.fetchesState

theorem ReactSpec.Accepted.issuersCorrespond (h : rc.Accepted u r) : rc.IssuersCorrespond u := by
  simp only [ReactSpec.IssuersCorrespond, writeReaction, List.map_map]
  exact h.issues.oneToOne

/-- **A projection's identifiers** are distinct exactly when the states it loads are apart. -/
theorem ProjSpec.Accepted.distinctIdentifiers_iff {p : ProjSpec} (h : p.Accepted u r)
    (hr : newResolver q = .ok r) : p.DistinctIdentifiers u ↔ q.ProjectionApart p.spec := by
  have hmarker : ∀ s ∈ ["Marker"], ¬ "Codec".toList <:+ s.toList := by decide
  have hdeps : (writeProjection u p).deps.fieldNames.Nodup ↔ q.ProjectionApart p.spec := by
    rw [fieldNames_projection, Request.ProjectionApart, h.consumes.loadersApart hr]
    by_cases hf : p.spec.fetch = .stateAsOfEventVersion
    · simp only [ProjSpec.fetchesState, hf, decide_true, if_true, forall_const]
      rw [nodup_loaderNames_append fun s hs => ne_append_of_not_suffix (hmarker s hs)]
      simp
    · simp [ProjSpec.fetchesState, hf]
  rw [← hdeps]
  exact ⟨fun hd => hd.deps, fun hd => ⟨hd, h.handlersCorrespond⟩⟩

/-- The fields of `Deps` of a reaction that fetches states. -/
theorem Resolved.nodup_deps {site : String} {types types' : List String} {entries entries' : List Entry}
    {aggs routers : AggregateSet} (h : Resolved u r site eventSumType "On" types entries aggs)
    (hi : Resolved u r site commandSumType "" types' entries' routers) (hr : newResolver q = .ok r) :
    (loaderNames aggs.stateNames ++ routerNames routers.stateNames).Nodup ↔
      LoadersApart (q.states types) ["Actor", "Marker"] ∧
        (∀ x ∈ q.states types, ∀ y ∈ q.states types', x.2 ≠ y.2 ++ "Router") ∧
        routers.stateNames.Nodup := by
  rw [nodup_loaderNames_append routerNames_ne_codec, nodup_routerNames, h.loadersApart hr,
    h.forall_states₂ hr hi fun a b => a ≠ b ++ "Router"]
  have hnot : (∀ n ∈ aggs.stateNames, n ∉ routerNames routers.stateNames) ↔
      (∀ n ∈ aggs.stateNames, ∀ m ∈ routers.stateNames, n ≠ m ++ "Router") ∧
        ∀ n ∈ aggs.stateNames, n ∉ ["Actor", "Marker"] := by
    rw [← forall₂_and]
    refine forall₂_congr fun n _ => ?_
    rw [mem_routerNames, not_or, not_exists]
    simp only [not_and, ne_eq]
  rw [hnot]
  tauto

/-- **A reaction's identifiers** are distinct exactly when the states it loads and the states it
issues to are apart. -/
theorem ReactSpec.Accepted.distinctIdentifiers_iff (h : rc.Accepted u r) (hr : newResolver q = .ok r) :
    rc.DistinctIdentifiers u ↔ q.ReactionApart rc.spec := by
  have hissuer : (writeReaction u rc).issuer.fieldNames.Nodup ↔
      IssuersApart (q.states rc.spec.issues) := by
    rw [fieldNames_issuer, h.issues.issuersApart hr]
  have hdeps := h.consumes.nodup_deps h.issues hr
  constructor
  · intro hd
    have hfields := hd.deps
    rw [fieldNames_reaction] at hfields
    -- the conditions on the loaders are those of a reaction that fetches states
    have hloads : rc.spec.fetch = .stateAsOfEventVersion →
        (loaderNames rc.aggs.stateNames ++ routerNames rc.routers.stateNames).Nodup := by
      intro hf
      rwa [ReactSpec.fetchesState, if_pos (by simp [hf])] at hfields
    exact ⟨fun hf => (hdeps.mp (hloads hf)).1, fun hf => (hdeps.mp (hloads hf)).2.1,
      hissuer.mp hd.issuer⟩
  · intro ha
    have hrouters := (h.issues.nodup_stateNames hr).mpr ha.issuers.names
    refine ⟨?_, hissuer.mpr ha.issuers, h.handlersCorrespond, h.issuersCorrespond⟩
    rw [fieldNames_reaction]
    by_cases hf : rc.spec.fetch = .stateAsOfEventVersion
    · rw [ReactSpec.fetchesState, if_pos (by simp [hf])]
      exact hdeps.mpr ⟨ha.loaders hf, ha.routers hf, hrouters⟩
    · rw [ReactSpec.fetchesState, if_neg (by simp [hf]), List.nil_append]
      exact nodup_routerNames.mpr hrouters

/-- **When the identifiers of accepted specs are distinct.** Whatever a file of a request declares
and whatever names are taken, the methods of every spec the plugin accepts correspond one to one to
its types; all its identifiers are distinct exactly when the request keeps the Go names of the
aggregate states apart. -/
theorem accepted_distinctIdentifiers_iff (hr : newResolver q = .ok r) (f : File)
    (names : SpecNames) :
    (∀ projs names', collectProjections u r f names = .ok (projs, names') → ∀ p ∈ projs,
      p.HandlersCorrespond u ∧ (p.DistinctIdentifiers u ↔ q.ProjectionApart p.spec)) ∧
    ∀ reacts names', collectReactions u r f names = .ok (reacts, names') → ∀ rc ∈ reacts,
      rc.HandlersCorrespond u ∧ rc.IssuersCorrespond u ∧
        (rc.DistinctIdentifiers u ↔ q.ReactionApart rc.spec) := by
  constructor
  · intro projs names' h p hp
    have haccepted := (collectProjections_eq_ok h).good p hp
    exact ⟨haccepted.handlersCorrespond, haccepted.distinctIdentifiers_iff hr⟩
  · intro reacts names' h rc hrc
    have haccepted := (collectReactions_eq_ok h).good rc hrc
    exact ⟨haccepted.handlersCorrespond, haccepted.issuersCorrespond,
      haccepted.distinctIdentifiers_iff hr⟩

end Accepted

/-! ### Two packages -/

/-- A minimal aggregate package: a state, an event and a command, with their containers. -/
def domainFile (pkg : String) (state : GoName) (streamType : String) : File where
  package := pkg
  goImportPath := "example.com/gen/" ++ pkg
  generate := false
  messages :=
    let message (name : GoName) (options : MessageOptions) (oneofs : List Oneof) : Message :=
      { fullName := pkg ++ "." ++ name.text
        parentPackage := pkg
        goName := name
        goImportPath := "example.com/gen/" ++ pkg
        options := options
        oneofs := oneofs }
    [message state { aggregate := some streamType } [],
      message ⟨"Happened", by decide⟩ {} [], message ⟨"Do", by decide⟩ {} [],
      message ⟨"Events", by decide⟩ { sumType := some "Event" } [⟨[some (pkg ++ ".Happened")]⟩],
      message ⟨"Commands", by decide⟩ { sumType := some "Command" } [⟨[some (pkg ++ ".Do")]⟩]]

/-- A file with a read model of both packages' events, and a reaction to them that commands both. -/
def viewFile : File where
  package := "view.v1"
  goImportPath := "example.com/gen/view.v1"
  generate := true
  messages :=
    [{ fullName := "view.v1.View"
       parentPackage := "view.v1"
       goName := ⟨"View", by decide⟩
       goImportPath := "example.com/gen/view.v1"
       options :=
        { projection := some
            { name := "t.view"
              kind := .readModel
              consumes := ["t.v1.Happened", "u.v1.Happened"]
              fetch := .stateAsOfEventVersion
              rebuild := .fromLog } } },
      { fullName := "view.v1.React"
        parentPackage := "view.v1"
        goName := ⟨"React", by decide⟩
        goImportPath := "example.com/gen/view.v1"
        options :=
        { reaction := some
            { name := "t.react"
              consumes := ["t.v1.Happened", "u.v1.Happened"]
              issues := ["t.v1.Do", "u.v1.Do"]
              fetch := .stateAsOfEventVersion } } }]

/-- Two packages whose states have one name. -/
def sharedStates : Request where
  files := [domainFile "t.v1" ⟨"State", by decide⟩ "thing",
    domainFile "u.v1" ⟨"State", by decide⟩ "other", viewFile]
  fullNames := by decide +kernel
  parents := by decide +kernel

/-- Two packages whose states have names of their own. -/
def ownStates : Request where
  files := [domainFile "t.v1" ⟨"State", by decide⟩ "thing",
    domainFile "u.v1" ⟨"Other", by decide⟩ "other", viewFile]
  fullNames := by decide +kernel
  parents := by decide +kernel

/-- The names of the two specs differ. -/
theorem run_names_nodup_ownStates :
    ∃ projs reacts, run .ascii ownStates = .ok (projs, reacts) ∧
      (projs.map (·.spec.name), reacts.map (·.spec.name)) = (["t.view"], ["t.react"]) ∧
      (projs.map (·.spec.name) ++ reacts.map (·.spec.name)).Nodup := by
  obtain ⟨⟨projs, reacts⟩, hrun, hnames⟩ := exists_eq_ok (x := run .ascii ownStates)
    (f := fun specs => (specs.1.map (·.spec.name), specs.2.map (·.spec.name)))
    (b := (["t.view"], ["t.react"])) (by decide +kernel)
  exact ⟨projs, reacts, hrun, hnames, run_names_nodup hrun⟩

/-- Two packages with states of their own: both specs are accepted, their identifiers are distinct,
and the request keeps the states apart. -/
theorem accepted_distinctIdentifiers_iff_ownStates :
    ∃ r projs names reacts names', newResolver ownStates = .ok r ∧
      collectProjections .ascii r viewFile ∅ = .ok (projs, names) ∧
      collectReactions .ascii r viewFile names = .ok (reacts, names') ∧
      projs.map (fun p => (writeProjection .ascii p).deps.fieldNames) =
        [["State", "StateCodec", "Other", "OtherCodec", "Marker"]] ∧
      reacts.map (fun rc => ((writeReaction .ascii rc).deps.fieldNames,
        (writeReaction .ascii rc).issuer.fieldNames)) =
        [(["State", "StateCodec", "Other", "OtherCodec", "StateRouter", "OtherRouter", "Actor",
          "Marker"], ["state", "other"])] ∧
      (∀ p ∈ projs, p.DistinctIdentifiers .ascii ∧ ownStates.ProjectionApart p.spec) ∧
      ∀ rc ∈ reacts, rc.DistinctIdentifiers .ascii ∧ ownStates.ReactionApart rc.spec := by
  obtain ⟨⟨⟨projs, reacts⟩, names'⟩, hgen, hfields⟩ := exists_eq_ok
    (x := newResolver ownStates >>= fun r => generateFile .ascii r viewFile ∅)
    (f := fun st => (st.1.1.map fun p => (writeProjection .ascii p).deps.fieldNames,
      st.1.2.map fun rc => ((writeReaction .ascii rc).deps.fieldNames,
        (writeReaction .ascii rc).issuer.fieldNames)))
    (b := ([["State", "StateCodec", "Other", "OtherCodec", "Marker"]],
      [(["State", "StateCodec", "Other", "OtherCodec", "StateRouter", "OtherRouter", "Actor",
        "Marker"], ["state", "other"])]))
    (by decide +kernel)
  obtain ⟨r, hr, hgen⟩ := bind_eq_ok.mp hgen
  obtain ⟨⟨projs₀, names⟩, hprojs, hgen⟩ := bind_eq_ok.mp hgen
  obtain ⟨⟨reacts₀, names₀⟩, hreacts, hgen⟩ := bind_eq_ok.mp hgen
  cases hgen
  obtain ⟨hdeps, hissuer⟩ := Prod.mk.inj hfields
  refine ⟨r, projs, names, reacts, names', hr, hprojs, hreacts, hdeps, hissuer, ?_, ?_⟩
  · intro p hp
    obtain ⟨hhandlers, hiff⟩ :=
      (accepted_distinctIdentifiers_iff hr viewFile ∅).1 projs names hprojs p hp
    have hmem := List.mem_map_of_mem (f := fun p => (writeProjection .ascii p).deps.fieldNames) hp
    rw [hdeps, List.mem_singleton] at hmem
    have hdistinct : p.DistinctIdentifiers .ascii := ⟨by rw [hmem]; decide, hhandlers⟩
    exact ⟨hdistinct, hiff.mp hdistinct⟩
  · intro rc hrc
    obtain ⟨hhandlers, hissuers, hiff⟩ :=
      (accepted_distinctIdentifiers_iff hr viewFile names).2 reacts names' hreacts rc hrc
    have hmem := List.mem_map_of_mem (f := fun rc => ((writeReaction .ascii rc).deps.fieldNames,
      (writeReaction .ascii rc).issuer.fieldNames)) hrc
    rw [hissuer, List.mem_singleton] at hmem
    obtain ⟨hdepsFields, hissuerFields⟩ := Prod.mk.inj hmem
    have hdistinct : rc.DistinctIdentifiers .ascii :=
      ⟨by rw [hdepsFields]; decide, by rw [hissuerFields]; decide, hhandlers, hissuers⟩
    exact ⟨hdistinct, hiff.mp hdistinct⟩

/-- **Packages may share a state name, and then the generated code repeats its fields**: the plugin
accepts the read model and the reaction of both packages' events, and emits fields twice. -/
theorem accepted_fields_repeat :
    ∃ r projs reacts names, newResolver sharedStates = .ok r ∧
      generateFile .ascii r viewFile ∅ = .ok ((projs, reacts), names) ∧
      projs.map (fun p => (writeProjection .ascii p).deps.fieldNames) =
        [["State", "StateCodec", "State", "StateCodec", "Marker"]] ∧
      reacts.map (fun rc => (writeReaction .ascii rc).issuer.fieldNames) = [["state", "state"]] ∧
      ¬ (∀ p ∈ projs, p.DistinctIdentifiers .ascii) ∧
      ¬ ∀ rc ∈ reacts, rc.DistinctIdentifiers .ascii := by
  obtain ⟨⟨⟨projs, reacts⟩, names⟩, hgen, hfields⟩ := exists_eq_ok
    (x := newResolver sharedStates >>= fun r => generateFile .ascii r viewFile ∅)
    (f := fun st => (st.1.1.map fun p => (writeProjection .ascii p).deps.fieldNames,
      st.1.2.map fun rc => (writeReaction .ascii rc).issuer.fieldNames))
    (b := ([["State", "StateCodec", "State", "StateCodec", "Marker"]], [["state", "state"]]))
    (by decide +kernel)
  obtain ⟨r, hr, hgen⟩ := bind_eq_ok.mp hgen
  obtain ⟨hdeps, hissuer⟩ := Prod.mk.inj hfields
  refine ⟨r, projs, reacts, names, hr, hgen, hdeps, hissuer, ?_, ?_⟩
  · intro hall
    have hnodup : ∀ ns ∈ projs.map fun p => (writeProjection .ascii p).deps.fieldNames,
        ns.Nodup := by
      simpa using fun p hp => (hall p hp).deps
    rw [hdeps] at hnodup
    exact absurd (hnodup _ List.mem_cons_self) (by decide)
  · intro hall
    have hnodup : ∀ ns ∈ reacts.map fun rc => (writeReaction .ascii rc).issuer.fieldNames,
        ns.Nodup := by
      simpa using fun rc hrc => (hall rc hrc).issuer
    rw [hissuer] at hnodup
    exact absurd (hnodup _ List.mem_cons_self) (by decide)

end EsLite.Generator
