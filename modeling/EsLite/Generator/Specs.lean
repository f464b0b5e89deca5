import EsLite.Generator.Resolve
import Mathlib.Data.List.Flatten

/-!
# Collecting the specs of a file

`collectProjections` and `collectReactions` validate the specs of a file: a name that is used once, a
fetch mode, and entries that resolve. Every entry is given a method name, and a spec whose entries
would share one is refused.

`Resolved` says what the entries of an accepted spec are, `Collected` what the loop over a file's
messages has collected. `run_names_nodup` is for a whole run: no two of its specs have one name.
-/

namespace EsLite.Generator

/-! ## Entries -/

/-- A `consumes` or `issues` entry, resolved. -/
structure Entry where
  /-- The method generated for it. -/
  method : String
  /-- Its full name, as the spec has it. -/
  typeURL : String
  /-- The message of that name. -/
  msg : Message
  /-- The aggregate of its package. -/
  agg : AggregateInfo

/-- A `consumes` entry. -/
abbrev Consumed := Entry

/-- An `issues` entry. -/
abbrev Issued := Entry

/-- Resolve one more entry and add its aggregate. -/
def resolveEntry (r : Resolver) (site iface : String) (st : List Entry × AggregateSet)
    (typeURL : String) : Except GenError (List Entry × AggregateSet) := do
  let (m, agg) ← r.variant site typeURL iface
  .ok (st.1 ++ [⟨"", typeURL, m, agg⟩], st.2.add agg)

/-- Resolve the entries of a spec against the containers of one name. -/
def resolveEntries (r : Resolver) (site iface : String) (types : List String) :
    Except GenError (List Entry × AggregateSet) :=
  types.foldlM (resolveEntry r site iface) ([], .empty)

/-- The method of an entry: its Go name after a lead, with the stream type between them when the
entries of the spec span aggregates. -/
def methodName (u : Unicode) (lead : String) (qualify : Bool) (e : Entry) : String :=
  if qualify then lead ++ exportSnake u e.agg.streamType ++ e.msg.goName.text
  else lead ++ e.msg.goName.text

/-- Give one more entry its method, unless an entry before it has that method. -/
def nameEntry (name : Entry → String) (clash : String → String → String → GenError)
    (st : List Entry × AList fun _ : String => String) (e : Entry) :
    Except GenError (List Entry × AList fun _ : String => String) :=
  match st.2.lookup (name e) with
  | some prev => .error (clash prev e.typeURL (name e))
  | none => .ok (st.1 ++ [{ e with method := name e }], st.2.insert (name e) e.typeURL)

/-- Give the entries of a spec their methods. -/
def nameEntries (name : Entry → String) (clash : String → String → String → GenError)
    (entries : List Entry) : Except GenError (List Entry) := do
  let (named, _) ← entries.foldlM (nameEntry name clash) ([], ∅)
  .ok named

/-- **The entries of an accepted spec**: one for each type it lists, in order, with the message and
the aggregate of that type; the aggregates of the entries are those of the set; and no two entries
have one method. -/
structure Resolved (u : Unicode) (r : Resolver) (site iface lead : String) (types : List String)
    (entries : List Entry) (aggs : AggregateSet) : Prop where
  /-- The entries are for the types of the spec. -/
  typeURLs : entries.map Entry.typeURL = types
  /-- They are resolved. -/
  variants : ∀ e ∈ entries, r.variant site e.typeURL iface = .ok (e.msg, e.agg)
  /-- The set has their aggregates. -/
  mem_aggs : ∀ a, a ∈ aggs ↔ ∃ e ∈ entries, e.agg = a
  /-- Their methods follow the rule. -/
  methods : ∀ e ∈ entries, e.method = methodName u lead (1 < aggs.len) e
  /-- Their methods are different. -/
  nodup_methods : (entries.map Entry.method).Nodup

section Entries

variable {u : Unicode} {r : Resolver} {site iface lead : String} {types : List String}
  {entries : List Entry} {aggs : AggregateSet}

/-- The loop over the types of a spec. -/
theorem resolveEntries_eq_ok (h : resolveEntries r site iface types = .ok (entries, aggs)) :
    entries.map Entry.typeURL = types ∧
      (∀ e ∈ entries, r.variant site e.typeURL iface = .ok (e.msg, e.agg)) ∧
      ∀ a, a ∈ aggs ↔ ∃ e ∈ entries, e.agg = a := by
  refine foldlM_induction (P := fun done (st : List Entry × AggregateSet) =>
    st.1.map Entry.typeURL = done ∧
      (∀ e ∈ st.1, r.variant site e.typeURL iface = .ok (e.msg, e.agg)) ∧
      ∀ a, a ∈ st.2 ↔ ∃ e ∈ st.1, e.agg = a) h ?_ ?_
  · simp [AggregateSet.not_mem_empty]
  · rintro done c - ⟨out, set⟩ st ⟨htypes, hvariants, haggs⟩ hstep
    obtain ⟨⟨m, agg⟩, hvariant, hst⟩ := bind_eq_ok.mp hstep
    cases hst
    have hall : ∀ e ∈ out ++ [⟨"", c, m, agg⟩],
        r.variant site e.typeURL iface = .ok (e.msg, e.agg) := by
      intro e he
      rcases List.mem_append.mp he with he | he
      · exact hvariants e he
      · rw [List.mem_singleton.mp he]
        exact hvariant
    refine ⟨by simp [← htypes], hall, ?_⟩
    intro a
    simp only at haggs
    rw [AggregateSet.mem_add, haggs a]
    constructor
    · rintro (rfl | ⟨⟨e, he, hea⟩, -⟩)
      · exact ⟨⟨"", c, m, a⟩, by simp, rfl⟩
      · exact ⟨e, List.mem_append_left _ he, hea⟩
    · rintro ⟨e, he, rfl⟩
      -- an aggregate of the package of the new one is the new one
      by_cases hpkg : e.agg.pkg = agg.pkg
      · exact .inl (Resolver.variant_unique (hall e he) hvariant hpkg)
      · rcases List.mem_append.mp he with he | he
        · exact .inr ⟨⟨e, he, rfl⟩, hpkg⟩
        · rw [List.mem_singleton.mp he] at hpkg
          exact absurd rfl hpkg

/-- The loop that gives methods. -/
theorem nameEntries_eq_ok {name : Entry → String} {clash : String → String → String → GenError}
    {named : List Entry} (h : nameEntries name clash entries = .ok named) :
    named = entries.map (fun e => { e with method := name e }) ∧ (entries.map name).Nodup := by
  obtain ⟨⟨out, seen⟩, hloop, hout⟩ := bind_eq_ok.mp h
  cases hout
  have hinv := foldlM_induction
    (P := fun done (st : List Entry × AList fun _ : String => String) =>
      st.1 = done.map (fun e => { e with method := name e }) ∧ (done.map name).Nodup ∧
        ∀ n, n ∈ st.2 ↔ n ∈ done.map name) hloop ⟨rfl, List.nodup_nil, by simp⟩ ?_
  · exact ⟨hinv.1, hinv.2.1⟩
  · rintro done e - ⟨out', seen'⟩ st ⟨hout, hnodup, hseen⟩ hstep
    simp only [nameEntry] at hstep hout hseen
    split at hstep
    · cases hstep
    · cases hstep
      have hnew : name e ∉ done.map name := by
        rw [← hseen, ← AList.lookup_eq_none]
        assumption
      refine ⟨by simp [hout], ?_, ?_⟩
      · rw [List.map_append]
        exact List.nodup_append'.mpr ⟨hnodup, List.nodup_singleton _, by simpa using hnew⟩
      · intro n
        rw [AList.mem_insert, hseen]
        simp [or_comm]

/-- Resolving the entries and giving them methods, one loop after the other. -/
theorem resolved_of_eq_ok {clash : String → String → String → GenError} {out : List Entry}
    (hresolve : resolveEntries r site iface types = .ok (out, aggs))
    (hname : nameEntries (methodName u lead (1 < aggs.len)) clash out = .ok entries) :
    Resolved u r site iface lead types entries aggs := by
  obtain ⟨htypes, hvariants, haggs⟩ := resolveEntries_eq_ok hresolve
  obtain ⟨rfl, hnodup⟩ := nameEntries_eq_ok hname
  constructor
  · rw [← htypes, List.map_map]
    rfl
  · intro e he
    obtain ⟨e₀, he₀, rfl⟩ := List.mem_map.mp he
    exact hvariants e₀ he₀
  · intro a
    rw [haggs a]
    simp only [List.mem_map, exists_exists_and_eq_and]
  · intro e he
    obtain ⟨e₀, -, rfl⟩ := List.mem_map.mp he
    rfl
  · rw [List.map_map]
    exact hnodup

namespace Resolved

/-- **A type is listed once**: its method is a function of it. -/
theorem nodup_types (h : Resolved u r site iface lead types entries aggs) : types.Nodup := by
  rw [← h.typeURLs, List.Nodup, List.pairwise_map]
  refine (List.pairwise_map.mp h.nodup_methods).imp_of_mem ?_
  intro e e' he he' hne htype
  refine hne ?_
  have hvariant := h.variants e he
  rw [htype, h.variants e' he'] at hvariant
  obtain ⟨hmsg, hagg⟩ := Prod.mk.inj (Except.ok.inj hvariant)
  rw [h.methods e he, h.methods e' he', methodName, methodName, hmsg, hagg]

end Resolved

end Entries

/-! ## Specs -/

/-- The specs of a run by name: the site that uses it. -/
abbrev SpecNames := AList fun _ : String => String

/-- Take a name for a site, unless another site has it. -/
def claimName (specNames : SpecNames) (site name : String) : Except GenError SpecNames :=
  match specNames.lookup name with
  | none => .ok (specNames.insert name site)
  | some prev =>
    if prev ≠ site then .error (.nameUsed site name prev) else .ok (specNames.insert name site)

/-- The shared checks of a projection and a reaction: a unique name, a fetch mode, and consumed types
that are events. -/
def resolveConsumes (u : Unicode) (r : Resolver) (site name : String) (consumes : List String)
    (fetch : FetchMode) (specNames : SpecNames) :
    Except GenError ((List Consumed × AggregateSet) × SpecNames) :=
  if name = "" then .error (.nameRequired site)
  else do
    let specNames ← claimName specNames site name
    if fetch = .unspecified then .error (.fetchUnset site)
    else if consumes = [] then .error (.consumesEmpty site)
    else do
      let (out, aggs) ← resolveEntries r site eventSumType consumes
      let out ← nameEntries (methodName u "On" (1 < aggs.len)) (.sameHandler site) out
      .ok ((out, aggs), specNames)

/-- A projection, validated. -/
structure ProjSpec where
  /-- The message that carries the option. -/
  msg : Message
  /-- The Go name that the generated identifiers begin with. -/
  base : String
  /-- The option. -/
  spec : ProjectionSpec
  /-- Its consumed events. -/
  consumes : List Consumed
  /-- Their aggregates. -/
  aggs : AggregateSet

/-- A projection is a read model or an index, and both are rebuilt from the log. -/
def checkKind (site : String) (spec : ProjectionSpec) : Except GenError Unit :=
  match spec.kind with
  | .readModel | .index =>
    if spec.rebuild ≠ .fromLog then .error (.rebuildRequired site spec.kind) else .ok ()
  | .reaction => .error (.kindReaction site)
  | _ => .error (.kindUnset site)

/-- Where a projection's option stands. -/
def projectionSite (m : Message) : String := m.fullName ++ ": (es.v1.projection)"

/-- Collect the projection of one more message, if it carries one. -/
def addProjection (u : Unicode) (r : Resolver) (st : List ProjSpec × SpecNames) (m : Message) :
    Except GenError (List ProjSpec × SpecNames) :=
  match m.options.projection with
  | none => .ok st
  | some spec => do
    checkKind (projectionSite m) spec
    let ((consumes, aggs), specNames) ←
      resolveConsumes u r (projectionSite m) spec.name spec.consumes spec.fetch st.2
    .ok (st.1 ++ [⟨m, m.goName.text, spec, consumes, aggs⟩], specNames)

/-- The projections of a file. -/
def collectProjections (u : Unicode) (r : Resolver) (f : File) (specNames : SpecNames) :
    Except GenError (List ProjSpec × SpecNames) :=
  (allMessages f.messages).foldlM (addProjection u r) ([], specNames)

/-- A reaction, validated. -/
structure ReactSpec where
  /-- The message that carries the option. -/
  msg : Message
  /-- The Go name that the generated identifiers begin with. -/
  base : String
  /-- The option. -/
  spec : ReactionSpec
  /-- Its consumed events. -/
  consumes : List Consumed
  /-- Its issued commands. -/
  issues : List Issued
  /-- The aggregates of the events. -/
  aggs : AggregateSet
  /-- The aggregates of the commands. -/
  routers : AggregateSet

/-- Where a reaction's option stands. -/
def reactionSite (m : Message) : String := m.fullName ++ ": (es.v1.reaction)"

/-- Collect the reaction of one more message, if it carries one. -/
def addReaction (u : Unicode) (r : Resolver) (st : List ReactSpec × SpecNames) (m : Message) :
    Except GenError (List ReactSpec × SpecNames) :=
  match m.options.reaction with
  | none => .ok st
  | some spec =>
    if m.options.projection.isSome then .error (.bothOptions m.fullName)
    else do
      let ((consumes, aggs), specNames) ←
        resolveConsumes u r (reactionSite m) spec.name spec.consumes spec.fetch st.2
      let (issues, routers) ← resolveEntries r (reactionSite m) commandSumType spec.issues
      let issues ← nameEntries (methodName u "" (1 < routers.len)) (.sameIssuer (reactionSite m))
        issues
      .ok (st.1 ++ [⟨m, m.goName.text, spec, consumes, issues, aggs, routers⟩], specNames)

/-- The reactions of a file. -/
def collectReactions (u : Unicode) (r : Resolver) (f : File) (specNames : SpecNames) :
    Except GenError (List ReactSpec × SpecNames) :=
  (allMessages f.messages).foldlM (addReaction u r) ([], specNames)

/-- The specs of a file: its projections first, then its reactions. -/
def generateFile (u : Unicode) (r : Resolver) (f : File) (specNames : SpecNames) :
    Except GenError ((List ProjSpec × List ReactSpec) × SpecNames) := do
  let (projs, specNames) ← collectProjections u r f specNames
  let (reacts, specNames) ← collectReactions u r f specNames
  .ok ((projs, reacts), specNames)

/-- The specs of one more file of a run. -/
def runFile (u : Unicode) (r : Resolver) (st : (List ProjSpec × List ReactSpec) × SpecNames)
    (f : File) : Except GenError ((List ProjSpec × List ReactSpec) × SpecNames) := do
  let ((projs, reacts), specNames) ← generateFile u r f st.2
  .ok ((st.1.1 ++ projs, st.1.2 ++ reacts), specNames)

/-- The specs of a run: those of the files to generate. -/
def run (u : Unicode) (q : Request) : Except GenError (List ProjSpec × List ReactSpec) := do
  let r ← newResolver q
  let (specs, _) ← (q.files.filter File.generate).foldlM (runFile u r) (([], []), ∅)
  .ok specs

/-! ### What is collected -/

/-- The names taken are kept. -/
def Keeps (names names' : SpecNames) : Prop :=
  ∀ name site, names.lookup name = some site → names'.lookup name = some site

theorem Keeps.refl (names : SpecNames) : Keeps names names := fun _ _ h => h

theorem Keeps.trans {names names' names'' : SpecNames} (h : Keeps names names')
    (h' : Keeps names' names'') : Keeps names names'' :=
  fun name site hsite => h' name site (h name site hsite)

/-- A name is taken for its site, and no other site loses its name. -/
theorem claimName_eq_ok {names names' : SpecNames} {site name : String}
    (h : claimName names site name = .ok names') :
    names'.lookup name = some site ∧ Keeps names names' := by
  have hinsert : ∀ {s : Option String}, names.lookup name = s → (∀ prev ∈ s, prev = site) →
      Keeps names (names.insert name site) := by
    intro s hs hprev n t ht
    by_cases hn : n = name
    · subst hn
      rw [AList.lookup_insert, hprev t (hs ▸ ht)]
    · rwa [AList.lookup_insert_ne hn]
  simp only [claimName] at h
  split at h
  · rename_i hnone
    cases h
    exact ⟨AList.lookup_insert _, hinsert hnone (by simp)⟩
  · rename_i prev hprev
    split_ifs at h with hne
    cases h
    exact ⟨AList.lookup_insert _, hinsert hprev (by simpa using hne)⟩

/-- **What the loop over a file's messages has collected**: specs of some of them, in order, each
with a property that its step has established, and each with its name taken. -/
structure Collected {σ : Type} (msg : σ → Message) (name site : σ → String) (Good : σ → Prop)
    (names : SpecNames) (ms : List Message) (st : List σ × SpecNames) : Prop where
  /-- They stand in the order of their messages, one for a message. -/
  msgs : (st.1.map msg).Sublist ms
  /-- They are as they should be. -/
  good : ∀ s ∈ st.1, Good s
  /-- Their names are taken. -/
  named : ∀ s ∈ st.1, st.2.lookup (name s) = some (site s)
  /-- The names taken before still are. -/
  kept : Keeps names st.2

namespace Collected

variable {σ : Type} {msg : σ → Message} {name site : σ → String} {Good : σ → Prop}
  {names names' : SpecNames} {ms : List Message} {st : List σ × SpecNames}

theorem start (names : SpecNames) : Collected msg name site Good names [] ([], names) :=
  ⟨List.Sublist.refl _, by simp, by simp, Keeps.refl names⟩

/-- A message without a spec. -/
theorem skip (h : Collected msg name site Good names ms st) (m : Message) :
    Collected msg name site Good names (ms ++ [m]) st :=
  ⟨h.msgs.trans (List.sublist_append_left _ _), h.good, h.named, h.kept⟩

/-- The spec of one more message. -/
theorem add (h : Collected msg name site Good names ms st) {s : σ} (hgood : Good s)
    (hclaim : claimName st.2 (site s) (name s) = .ok names') :
    Collected msg name site Good names (ms ++ [msg s]) (st.1 ++ [s], names') := by
  obtain ⟨hnew, hkept⟩ := claimName_eq_ok hclaim
  constructor
  · rw [List.map_append]
    exact h.msgs.append (List.Sublist.refl _)
  · intro t ht
    rcases List.mem_append.mp ht with ht | ht
    · exact h.good t ht
    · rwa [List.mem_singleton.mp ht]
  · intro t ht
    rcases List.mem_append.mp ht with ht | ht
    · exact hkept _ _ (h.named t ht)
    · rwa [List.mem_singleton.mp ht]
  · exact h.kept.trans hkept

/-- Names taken later leave the collected specs theirs. -/
theorem keep {specs : List σ} (h : Collected msg name site Good names ms (specs, names'))
    {later : SpecNames} (hkept : Keeps names' later) :
    Collected msg name site Good names ms (specs, later) :=
  ⟨h.msgs, h.good, fun s hs => hkept _ _ (h.named s hs), h.kept.trans hkept⟩

/-- The specs of one file after those of others. -/
theorem append {specs new : List σ} {more : List Message} {later : SpecNames}
    (h : Collected msg name site Good names ms (specs, names'))
    (hnew : Collected msg name site Good names' more (new, later)) :
    Collected msg name site Good names (ms ++ more) (specs ++ new, later) := by
  have hkeep := h.keep hnew.kept
  constructor
  · rw [List.map_append]
    exact hkeep.msgs.append hnew.msgs
  · intro s hs
    exact (List.mem_append.mp hs).elim (hkeep.good s) (hnew.good s)
  · intro s hs
    exact (List.mem_append.mp hs).elim (hkeep.named s) (hnew.named s)
  · exact hkeep.kept

/-- **Collected specs have different names**, if their sites are those of different messages. -/
theorem nodup_names (h : Collected msg name site Good names ms st)
    (hms : (ms.map Message.fullName).Nodup)
    (hsite : ∀ s t, site s = site t → (msg s).fullName = (msg t).fullName) : (st.1.map name).Nodup := by
  have hfull : ((st.1.map msg).map Message.fullName).Nodup := (h.msgs.map _).nodup hms
  rw [List.map_map, List.Nodup, List.pairwise_map] at hfull
  rw [List.Nodup, List.pairwise_map]
  refine hfull.imp_of_mem ?_
  intro s t hs ht hne hname
  have hsame := h.named s hs
  rw [hname, h.named t ht] at hsame
  exact hne (hsite s t (Option.some.inj hsame).symm)

end Collected

section Specs

variable {u : Unicode} {r : Resolver} {f : File} {names names' : SpecNames}

/-- The events of an accepted spec. -/
theorem resolveConsumes_eq_ok {site name : String} {consumes : List String} {fetch : FetchMode}
    {entries : List Consumed} {aggs : AggregateSet}
    (h : resolveConsumes u r site name consumes fetch names = .ok ((entries, aggs), names')) :
    claimName names site name = .ok names' ∧
      Resolved u r site eventSumType "On" consumes entries aggs := by
  simp only [resolveConsumes] at h
  split at h
  · cases h
  · obtain ⟨claimed, hclaim, h⟩ := bind_eq_ok.mp h
    split_ifs at h
    obtain ⟨⟨out, set⟩, hresolve, h⟩ := bind_eq_ok.mp h
    obtain ⟨named, hname, h⟩ := bind_eq_ok.mp h
    cases h
    exact ⟨hclaim, resolved_of_eq_ok hresolve hname⟩

/-- **An accepted projection** has the entries of its message's option. -/
structure ProjSpec.Accepted (u : Unicode) (r : Resolver) (p : ProjSpec) : Prop where
  /-- The option is its message's. -/
  option : p.msg.options.projection = some p.spec
  /-- Its events are resolved. -/
  consumes : Resolved u r (projectionSite p.msg) eventSumType "On" p.spec.consumes p.consumes p.aggs

/-- **An accepted reaction** has the entries of its message's option. -/
structure ReactSpec.Accepted (u : Unicode) (r : Resolver) (rc : ReactSpec) : Prop where
  /-- The option is its message's. -/
  option : rc.msg.options.reaction = some rc.spec
  /-- Its events are resolved. -/
  consumes : Resolved u r (reactionSite rc.msg) eventSumType "On" rc.spec.consumes rc.consumes
    rc.aggs
  /-- Its commands are resolved. -/
  issues : Resolved u r (reactionSite rc.msg) commandSumType "" rc.spec.issues rc.issues rc.routers

/-- **The projections of a file.** -/
theorem collectProjections_eq_ok {st : List ProjSpec × SpecNames}
    (h : collectProjections u r f names = .ok st) :
    Collected ProjSpec.msg (·.spec.name) (projectionSite ·.msg) (ProjSpec.Accepted u r) names
      (allMessages f.messages) st := by
  refine foldlM_induction (P := fun done st => Collected ProjSpec.msg (·.spec.name)
    (projectionSite ·.msg) (ProjSpec.Accepted u r) names done st) h (Collected.start names) ?_
  intro done m _ st st' hst hstep
  simp only [addProjection] at hstep
  split at hstep
  · cases hstep
    exact hst.skip m
  · rename_i spec hspec
    obtain ⟨-, -, hstep⟩ := bind_eq_ok.mp hstep
    obtain ⟨⟨⟨consumes, aggs⟩, claimed⟩, hconsumes, hstep⟩ := bind_eq_ok.mp hstep
    cases hstep
    obtain ⟨hclaim, hresolved⟩ := resolveConsumes_eq_ok hconsumes
    exact hst.add (s := ⟨m, m.goName.text, spec, consumes, aggs⟩) ⟨hspec, hresolved⟩ hclaim

/-- **The reactions of a file.** -/
theorem collectReactions_eq_ok {st : List ReactSpec × SpecNames}
    (h : collectReactions u r f names = .ok st) :
    Collected ReactSpec.msg (·.spec.name) (reactionSite ·.msg) (ReactSpec.Accepted u r) names
      (allMessages f.messages) st := by
  refine foldlM_induction (P := fun done st => Collected ReactSpec.msg (·.spec.name)
    (reactionSite ·.msg) (ReactSpec.Accepted u r) names done st) h (Collected.start names) ?_
  intro done m _ st st' hst hstep
  simp only [addReaction] at hstep
  split at hstep
  · cases hstep
    exact hst.skip m
  · rename_i spec hspec
    split_ifs at hstep
    obtain ⟨⟨⟨consumes, aggs⟩, claimed⟩, hconsumes, hstep⟩ := bind_eq_ok.mp hstep
    obtain ⟨⟨issues, routers⟩, hresolve, hstep⟩ := bind_eq_ok.mp hstep
    obtain ⟨named, hname, hstep⟩ := bind_eq_ok.mp hstep
    cases hstep
    obtain ⟨hclaim, hresolved⟩ := resolveConsumes_eq_ok hconsumes
    exact hst.add (s := ⟨m, m.goName.text, spec, consumes, named, aggs, routers⟩)
      ⟨hspec, hresolved, resolved_of_eq_ok hresolve hname⟩ hclaim

/-! ### Whole runs -/

theorem projectionSite_inj {m n : Message} (h : projectionSite m = projectionSite n) :
    m.fullName = n.fullName := by
  simpa [projectionSite] using h

theorem reactionSite_inj {m n : Message} (h : reactionSite m = reactionSite n) :
    m.fullName = n.fullName := by
  simpa [reactionSite] using h

theorem projectionSite_ne_reactionSite (m n : Message) : projectionSite m ≠ reactionSite n := by
  intro h
  have htail := congrArg (fun s : String => s.toList.reverse.take 8) h
  simp [projectionSite, reactionSite] at htail

/-- The specs collected in a run. -/
structure RunCollected (u : Unicode) (r : Resolver) (ms : List Message)
    (st : (List ProjSpec × List ReactSpec) × SpecNames) : Prop where
  /-- Its projections. -/
  projs : Collected ProjSpec.msg (·.spec.name) (projectionSite ·.msg) (ProjSpec.Accepted u r) ∅ ms
    (st.1.1, st.2)
  /-- Its reactions. -/
  reacts : Collected ReactSpec.msg (·.spec.name) (reactionSite ·.msg) (ReactSpec.Accepted u r) ∅ ms
    (st.1.2, st.2)

/-- One more file of a run. -/
theorem RunCollected.runFile {ms : List Message}
    {st st' : (List ProjSpec × List ReactSpec) × SpecNames} (h : RunCollected u r ms st)
    (hstep : runFile u r st f = .ok st') : RunCollected u r (ms ++ allMessages f.messages) st' := by
  obtain ⟨⟨⟨projs, reacts⟩, later⟩, hgen, hst⟩ := bind_eq_ok.mp hstep
  cases hst
  obtain ⟨⟨projs', between⟩, hprojs, hgen⟩ := bind_eq_ok.mp hgen
  obtain ⟨⟨reacts', later'⟩, hreacts, hgen⟩ := bind_eq_ok.mp hgen
  cases hgen
  have hp := collectProjections_eq_ok hprojs
  have hr := collectReactions_eq_ok hreacts
  exact ⟨(h.projs.append hp).keep hr.kept, (h.reacts.keep hp.kept).append hr⟩

/-- What a run has collected. -/
theorem run_eq_ok {q : Request} {specs : List ProjSpec × List ReactSpec} (h : run u q = .ok specs) :
    ∃ r names, newResolver q = .ok r ∧ RunCollected u r
      ((q.files.filter File.generate).flatMap fun f => allMessages f.messages) (specs, names) := by
  obtain ⟨r, hr, h⟩ := bind_eq_ok.mp h
  obtain ⟨⟨specs', names⟩, hloop, hout⟩ := bind_eq_ok.mp h
  cases hout
  refine ⟨r, names, hr, foldlM_induction (P := fun files st => RunCollected u r
    (files.flatMap fun f => allMessages f.messages) st) hloop
    ⟨Collected.start ∅, Collected.start ∅⟩ ?_⟩
  intro done f _ st st' hst hstep
  rw [List.flatMap_append, List.flatMap_singleton]
  exact hst.runFile hstep

/-- **Spec names are unique in a run.** -/
theorem run_names_nodup {q : Request} {projs : List ProjSpec} {reacts : List ReactSpec}
    (h : run u q = .ok (projs, reacts)) :
    (projs.map (·.spec.name) ++ reacts.map (·.spec.name)).Nodup := by
  obtain ⟨r, names, -, hrun⟩ := run_eq_ok h
  have hms : (((q.files.filter File.generate).flatMap fun f => allMessages f.messages).map
      Message.fullName).Nodup :=
    ((List.filter_sublist.flatMap _).map _).nodup q.fullNames
  refine List.nodup_append'.mpr
    ⟨hrun.projs.nodup_names hms fun _ _ => projectionSite_inj,
      hrun.reacts.nodup_names hms fun _ _ => reactionSite_inj, ?_⟩
  -- a projection and a reaction of one name would stand at one site
  intro n hn hn'
  obtain ⟨p, hp, rfl⟩ := List.mem_map.mp hn
  obtain ⟨rc, hrc, hname⟩ := List.mem_map.mp hn'
  have hsame := hrun.projs.named p hp
  rw [← hname, hrun.reacts.named rc hrc] at hsame
  exact projectionSite_ne_reactionSite _ _ (Option.some.inj hsame).symm

end Specs

end EsLite.Generator
