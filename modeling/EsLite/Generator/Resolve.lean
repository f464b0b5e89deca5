import EsLite.Foundation.Collecting
import EsLite.Generator.Protogen
import Mathlib.Data.List.AList
import Mathlib.Data.List.Sort

/-!
# The resolver

`newResolver` indexes every file of a request, imports included, so that an entry of a spec can be
checked and typed: a full type name leads to its message, to the container of its package and to the
one aggregate state of that package. `Indexes` says what the index holds of the request, and
`variant_eq_ok` what a successful lookup has found.

`AggregateSet` is the set of aggregates a spec touches, keyed by package.
-/

namespace EsLite.Generator

/-- Why generation fails, with the values its message shows. A site names the message and the
option that are checked. -/
inductive GenError
  /-- Message "a second (es.v1.sum_type) = … container in package …". -/
  | secondContainer (message iface package : String)
  /-- Message "… does not resolve to a message in this generation run". -/
  | unresolved (site fullName : String)
  /-- Message "… is not a variant of an (es.v1.sum_type) = … container in package …". -/
  | notVariant (site fullName iface package : String)
  /-- Message "package … must have exactly one (es.v1.aggregate) message, found …". -/
  | aggregateCount (site package : String) (found : Nat)
  /-- Message "…: (es.v1.aggregate).stream_type is empty". -/
  | streamTypeEmpty (site state : String)
  /-- Message "name is required". -/
  | nameRequired (site : String)
  /-- Message "name … is already used by …". -/
  | nameUsed (site name prev : String)
  /-- Message "fetch must be set". -/
  | fetchUnset (site : String)
  /-- Message "consumes must list at least one event type". -/
  | consumesEmpty (site : String)
  /-- Message "… and … would both generate …; consumed event names must be unique within an
  aggregate". -/
  | sameHandler (site prev typeURL method : String)
  /-- Message "… and … would both generate issuer method …; issued command names must be unique
  within an aggregate". -/
  | sameIssuer (site prev typeURL method : String)
  /-- Message "kind … requires rebuild = REBUILD_MODE_FROM_LOG". -/
  | rebuildRequired (site : String) (kind : ProjectionKind)
  /-- Message "kind REACTION must be declared with (es.v1.reaction)". -/
  | kindReaction (site : String)
  /-- Message "kind must be set". -/
  | kindUnset (site : String)
  /-- Message "… carries both (es.v1.projection) and (es.v1.reaction)". -/
  | bothOptions (message : String)

/-! ## The index -/

/-- The sum-type name of events. -/
def eventSumType : String := "Event"

/-- The sum-type name of commands. -/
def commandSumType : String := "Command"

/-- A sum-type container: where it lives and what it holds. -/
structure SumInfo where
  /-- The path of the Go package of its file. -/
  goImportPath : String
  /-- The name of the generated interface. -/
  iface : String
  /-- The full names of its variants. -/
  variants : List String

/-- The index of a request. -/
structure Resolver where
  /-- The messages by full name, nested ones included. -/
  msgs : AList fun _ : String => Message
  /-- The containers by package and interface name. -/
  sums : AList fun _ : String => SumInfo
  /-- The aggregate states by package. -/
  aggregates : AList fun _ : String => List Message

namespace Resolver

/-- The index of no file. -/
def empty : Resolver := ⟨∅, ∅, ∅⟩

/-- The aggregate states of a package. -/
def aggregatesOf (r : Resolver) (package : String) : List Message :=
  (r.aggregates.lookup package).getD []

/-- Index a message of a file. -/
def addMessage (package : String) (r : Resolver) (m : Message) : Resolver :=
  { r with
    msgs := r.msgs.insert m.fullName m
    aggregates :=
      if m.hasAggregate then r.aggregates.insert package (r.aggregatesOf package ++ [m])
      else r.aggregates }

/-- Index a top-level message that is a container with one oneof. -/
def addContainer (f : File) (r : Resolver) (m : Message) : Except GenError Resolver :=
  let name := m.sumTypeName
  if name = "" then .ok r
  else match m.oneofs with
    | [oneof] =>
      let key := f.package ++ "/" ++ name
      if key ∈ r.sums then .error (.secondContainer m.fullName name f.package)
      else .ok { r with sums := r.sums.insert key ⟨f.goImportPath, name, oneof.variants⟩ }
    | _ => .ok r

/-- Index a file: its messages first, then its containers. -/
def addFile (r : Resolver) (f : File) : Except GenError Resolver :=
  f.messages.foldlM (addContainer f) ((allMessages f.messages).foldl (addMessage f.package) r)

end Resolver

/-- The index of a request. -/
def newResolver (q : Request) : Except GenError Resolver := q.files.foldlM Resolver.addFile .empty

/-! ### What the index holds -/

/-- **An index of some messages**: it finds only them, and has the aggregate states among them by
package, in order. -/
structure Resolver.Indexes (r : Resolver) (ms : List Message) : Prop where
  /-- A name leads to a message of that name. -/
  msgs : ∀ c m, r.msgs.lookup c = some m → m ∈ ms ∧ m.fullName = c
  /-- A package has its aggregate states. -/
  aggregates : ∀ p, r.aggregatesOf p = ms.filter fun m => m.hasAggregate ∧ m.parentPackage = p

variable {r : Resolver} {m : Message}

namespace Resolver

theorem indexes_empty : Indexes .empty [] := by
  constructor
  · intro c m h
    cases h
  · intro p
    rfl

/-- A state of a package joins the states of that package. -/
theorem aggregatesOf_addMessage (r : Resolver) (package : String) (m : Message) (p : String) :
    (r.addMessage package m).aggregatesOf p =
      r.aggregatesOf p ++ if m.hasAggregate ∧ package = p then [m] else [] := by
  simp only [aggregatesOf, addMessage]
  by_cases hm : m.hasAggregate = true
  · by_cases hp : p = package
    · subst hp
      simp [hm]
    · simp [hm, AList.lookup_insert_ne hp, Ne.symm hp]
  · simp [hm]

/-- One more message is indexed. -/
theorem Indexes.addMessage {ms : List Message} (h : r.Indexes ms) {package : String}
    (hm : m.parentPackage = package) : (r.addMessage package m).Indexes (ms ++ [m]) := by
  constructor
  · intro c n hn
    by_cases hc : c = m.fullName
    · subst hc
      rw [Resolver.addMessage, AList.lookup_insert] at hn
      cases hn
      exact ⟨List.mem_append_right _ List.mem_cons_self, rfl⟩
    · rw [Resolver.addMessage, AList.lookup_insert_ne hc] at hn
      exact (h.msgs c n hn).imp_left (List.mem_append_left _)
  · intro p
    subst hm
    rw [aggregatesOf_addMessage, h.aggregates p, List.filter_append]
    simp [List.filter_cons]

/-- The messages of a file are indexed. -/
theorem Indexes.addMessages {package : String} {ms new : List Message} (h : r.Indexes ms)
    (hnew : ∀ m ∈ new, m.parentPackage = package) :
    (new.foldl (Resolver.addMessage package) r).Indexes (ms ++ new) := by
  induction new generalizing ms r with
  | nil => rwa [List.append_nil]
  | cons m new ih =>
    rw [List.foldl_cons, List.append_cons]
    exact ih (h.addMessage (hnew m List.mem_cons_self))
      fun n hn => hnew n (List.mem_cons_of_mem m hn)

/-- A container changes the containers only. -/
theorem addContainer_frame {f : File} {s : Resolver} (h : r.addContainer f m = .ok s) :
    s.msgs = r.msgs ∧ s.aggregates = r.aggregates := by
  simp only [addContainer] at h
  split at h
  · cases h
    exact ⟨rfl, rfl⟩
  · split at h
    · split at h
      · cases h
      · cases h
        exact ⟨rfl, rfl⟩
    · cases h
      exact ⟨rfl, rfl⟩

/-- The messages of one more file are indexed. -/
theorem Indexes.addFile {s : Resolver} {ms : List Message} (h : r.Indexes ms) {f : File}
    (hf : ∀ m ∈ allMessages f.messages, m.parentPackage = f.package) (hs : r.addFile f = .ok s) :
    s.Indexes (ms ++ allMessages f.messages) := by
  have hindexed := h.addMessages hf
  -- the containers are entered after the messages, and leave what is indexed of these
  have hframe := foldlM_induction (P := fun _ t =>
      t.msgs = ((allMessages f.messages).foldl (Resolver.addMessage f.package) r).msgs ∧
        t.aggregates = ((allMessages f.messages).foldl (Resolver.addMessage f.package) r).aggregates)
    hs ⟨rfl, rfl⟩ fun _ m _ t t' ht hstep =>
      ⟨(addContainer_frame hstep).1.trans ht.1, (addContainer_frame hstep).2.trans ht.2⟩
  constructor
  · intro c m hm
    rw [hframe.1] at hm
    exact hindexed.msgs c m hm
  · intro p
    rw [← hindexed.aggregates p, aggregatesOf, aggregatesOf, hframe.2]

end Resolver

/-- **The resolver indexes the messages of its request.** -/
theorem newResolver_indexes {q : Request} (h : newResolver q = .ok r) : r.Indexes q.messages := by
  refine foldlM_induction (P := fun files s => Resolver.Indexes s
    (files.flatMap fun f => allMessages f.messages)) h Resolver.indexes_empty ?_
  intro done f hf s t hs ht
  rw [List.flatMap_append, List.flatMap_singleton]
  exact hs.addFile (q.parents f hf) ht

/-! ## Variants of a container -/

/-- The aggregate of a consumed or issued type's package. -/
structure AggregateInfo where
  /-- The package. -/
  pkg : String
  /-- Its state message. -/
  state : Message
  /-- The type of its streams. -/
  streamType : String
  /-- The container the type was looked up in. -/
  sum : SumInfo

/-- The generated codec of the container. -/
def AggregateInfo.codecIdent (a : AggregateInfo) : GoIdent :=
  ⟨a.sum.iface ++ "Codec", a.sum.goImportPath⟩

/-- The generated interface of the container. -/
def AggregateInfo.ifaceIdent (a : AggregateInfo) : GoIdent := ⟨a.sum.iface, a.sum.goImportPath⟩

/-- Resolve a full name to a variant of its package's container and to that package's aggregate. -/
def Resolver.variant (r : Resolver) (site fullName iface : String) :
    Except GenError (Message × AggregateInfo) :=
  match r.msgs.lookup fullName with
  | none => .error (.unresolved site fullName)
  | some m =>
    let pkg := m.parentPackage
    match r.sums.lookup (pkg ++ "/" ++ iface) with
    | none => .error (.notVariant site fullName iface pkg)
    | some sum =>
      if fullName ∉ sum.variants then .error (.notVariant site fullName iface pkg)
      else match r.aggregatesOf pkg with
        | [state] =>
          let streamType := state.options.aggregate.getD ""
          if streamType = "" then .error (.streamTypeEmpty site state.fullName)
          else .ok (m, ⟨pkg, state, streamType, sum⟩)
        | aggs => .error (.aggregateCount site pkg aggs.length)

variable {a : AggregateInfo}

/-- **What a resolved entry has found**: the message of that name, a container of its package with
the message among its variants, and the one aggregate state of its package. -/
theorem Resolver.variant_eq_ok {site c iface : String} (h : r.variant site c iface = .ok (m, a)) :
    r.msgs.lookup c = some m ∧ a.pkg = m.parentPackage ∧
      r.sums.lookup (a.pkg ++ "/" ++ iface) = some a.sum ∧ c ∈ a.sum.variants ∧
      r.aggregatesOf a.pkg = [a.state] ∧ a.streamType = a.state.options.aggregate.getD "" ∧
      a.streamType ≠ "" := by
  simp only [Resolver.variant] at h
  split at h
  · cases h
  · split at h
    · cases h
    · split_ifs at h with hvariant
      split at h
      · split_ifs at h with hstream
        cases h
        exact ⟨‹_›, rfl, ‹_›, hvariant, ‹_›, rfl, hstream⟩
      · cases h

/-- A package has one aggregate for each container. -/
theorem Resolver.variant_unique {site site' c d iface : String} {n : Message} {b : AggregateInfo}
    (ha : r.variant site c iface = .ok (m, a)) (hb : r.variant site' d iface = .ok (n, b))
    (h : a.pkg = b.pkg) : a = b := by
  obtain ⟨-, -, hsum, -, hstate, htype, -⟩ := variant_eq_ok ha
  obtain ⟨-, -, hsum', -, hstate', htype', -⟩ := variant_eq_ok hb
  rw [h, hsum'] at hsum
  rw [h, hstate'] at hstate
  obtain ⟨pkg, state, streamType, sum⟩ := a
  obtain ⟨pkg', state', streamType', sum'⟩ := b
  simp only [Option.some.injEq, List.cons.injEq, and_true] at h hsum hstate htype htype'
  subst h hsum hstate htype htype'
  rfl

/-! ## Sets of aggregates -/

/-- The aggregates a spec touches, keyed by package. -/
structure AggregateSet where
  /-- The aggregate of a package. -/
  byPkg : AList fun _ : String => AggregateInfo
  /-- Aggregates stand under their own packages. -/
  keyed : ∀ p a, byPkg.lookup p = some a → a.pkg = p

variable {s : AggregateSet}

namespace AggregateSet

/-- No aggregate. -/
def empty : AggregateSet := ⟨∅, by intro p a h; cases h⟩

/-- How many aggregates a set holds. -/
def len (s : AggregateSet) : Nat := s.byPkg.keys.length

/-- Add an aggregate, in the place of one of the same package. -/
def add (s : AggregateSet) (a : AggregateInfo) : AggregateSet where
  byPkg := s.byPkg.insert a.pkg a
  keyed p b h := by
    by_cases hp : p = a.pkg
    · subst hp
      rw [AList.lookup_insert] at h
      cases h
      rfl
    · rw [AList.lookup_insert_ne hp] at h
      exact s.keyed p b h

/-- The aggregates of a set in package order. -/
def sorted (s : AggregateSet) : List AggregateInfo :=
  (s.byPkg.entries.map Sigma.snd).insertionSort fun a b => a.pkg ≤ b.pkg

/-- An aggregate is in the set: it stands under its package. -/
instance : Membership AggregateInfo AggregateSet := ⟨fun s a => s.byPkg.lookup a.pkg = some a⟩

theorem mem_def : a ∈ s ↔ s.byPkg.lookup a.pkg = some a := Iff.rfl

theorem not_mem_empty (a : AggregateInfo) : a ∉ empty := by
  intro h
  cases h

/-- Adding an aggregate keeps the others of the set, but for one of its package. -/
theorem mem_add {b : AggregateInfo} : b ∈ s.add a ↔ b = a ∨ b ∈ s ∧ b.pkg ≠ a.pkg := by
  rw [mem_def, mem_def, add]
  by_cases hp : b.pkg = a.pkg
  · rw [hp, AList.lookup_insert]
    simp [eq_comm]
  · rw [AList.lookup_insert_ne hp]
    have hne : b ≠ a := fun h => hp (by rw [h])
    simp [hp, hne]

/-- The sorted list has the aggregates of the set. -/
theorem mem_sorted : a ∈ s.sorted ↔ a ∈ s := by
  rw [sorted, List.mem_insertionSort, List.mem_map, mem_def]
  constructor
  · rintro ⟨⟨p, b⟩, hmem, rfl⟩
    have hlookup := AList.mem_lookup_iff.mpr hmem
    rwa [s.keyed p b hlookup]
  · intro h
    exact ⟨⟨a.pkg, a⟩, AList.mem_lookup_iff.mp h, rfl⟩

/-- It has one aggregate of a package. -/
theorem nodup_pkg_sorted (s : AggregateSet) : (s.sorted.map AggregateInfo.pkg).Nodup := by
  have hkeys : (s.byPkg.entries.map Sigma.snd).map AggregateInfo.pkg = s.byPkg.keys := by
    rw [List.map_map]
    refine List.map_congr_left ?_
    rintro ⟨p, a⟩ hmem
    exact s.keyed p a (AList.mem_lookup_iff.mpr hmem)
  have hperm := (List.perm_insertionSort (fun a b : AggregateInfo => a.pkg ≤ b.pkg)
    (s.byPkg.entries.map Sigma.snd)).map AggregateInfo.pkg
  rw [hkeys] at hperm
  exact hperm.nodup_iff.mpr s.byPkg.keys_nodup

end AggregateSet

end EsLite.Generator
