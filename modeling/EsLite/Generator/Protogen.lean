import Mathlib.Data.List.Basic
import Mathlib.Data.List.Nodup

/-!
# What the generator reads and how it spells names

`protoc-gen-es-lite` is given a generation request: the files, their messages and the options the
messages carry. This module has that data and the two functions that turn names into Go names.

* `Message`, `File`, `Request` — the part of the request the spec generators read.
* `allMessages` — the message tree of a file, flattened in declaration order.
* `lowerFirst`, `exportSnake` — an unexported identifier, and a fragment of an exported one.

Go strings are texts here: names and option values of a request are valid UTF-8.
-/

namespace EsLite.Generator

/-! ## Names -/

/-- The case mappings of Go's `unicode` package. On ASCII they are the ASCII mappings; nothing is
assumed of them elsewhere. -/
structure Unicode where
  /-- `unicode.ToUpper`. -/
  toUpper : Char → Char
  /-- `unicode.ToLower`. -/
  toLower : Char → Char
  /-- ASCII letters are raised as usual. -/
  toUpper_ascii : ∀ c, c.val < 128 → toUpper c = c.toUpper
  /-- ASCII letters are lowered as usual. -/
  toLower_ascii : ∀ c, c.val < 128 → toLower c = c.toLower

/-- Case mappings that know the ASCII letters only. -/
def Unicode.ascii : Unicode := ⟨Char.toUpper, Char.toLower, fun _ _ => rfl, fun _ _ => rfl⟩

/-- A name begins with an upper-case ASCII letter. -/
def Exported (s : String) : Prop := s.toList.head?.any Char.isUpper = true

instance (s : String) : Decidable (Exported s) :=
  inferInstanceAs (Decidable (s.toList.head?.any Char.isUpper = true))

/-- The Go name protogen gives a message: it is exported, whatever the proto name begins with. -/
structure GoName where
  /-- The name. -/
  text : String
  /-- It is exported. -/
  exported : Exported text := by decide

/-- The identifiers Go reserves. -/
def goKeywords : List String :=
  ["break", "case", "chan", "const", "continue", "default", "defer", "else", "fallthrough", "for",
    "func", "go", "goto", "if", "import", "interface", "map", "package", "range", "return",
    "select", "struct", "switch", "type", "var"]

/-- The first rune lowered. A result that is a Go keyword gets a trailing underscore. -/
def lowerFirst (u : Unicode) (s : String) : String :=
  match s.toList with
  | [] => s
  | r :: rs =>
    let out := String.ofList (u.toLower r :: rs)
    if out ∈ goKeywords then out ++ "_" else out

/-- The loop of `exportSnake`: `up` says that the next rune begins a word. -/
def exportRunes (u : Unicode) : Bool → List Char → List Char
  | _, [] => []
  | up, r :: rs =>
    if r = '_' ∨ r = '-' then exportRunes u true rs
    else if up then u.toUpper r :: exportRunes u false rs
    else r :: exportRunes u false rs

/-- A stream type (`unit_review`) as a fragment of an exported Go name (`UnitReview`). -/
def exportSnake (u : Unicode) (s : String) : String := String.ofList (exportRunes u true s.toList)

/-! ### The unexported names of exported ones -/

/-- A name with its first letter lowered, an ASCII letter. -/
def decapitalize (s : String) : String :=
  match s.toList with
  | [] => s
  | c :: cs => String.ofList (c.toLower :: cs)

variable {s t : String} {c : Char}

theorem decapitalize_of_cons {cs : List Char} (h : s.toList = c :: cs) :
    decapitalize s = String.ofList (c.toLower :: cs) := by
  simp only [decapitalize, h]

theorem isUpper_iff : c.isUpper = true ↔ 'A'.val ≤ c.val ∧ c.val ≤ 'Z'.val :=
  decide_eq_true_iff

theorem val_toLower (h : c.isUpper = true) : c.toLower.val = c.val + ('a'.val - 'A'.val) :=
  congrArg Char.val (dif_pos (isUpper_iff.mp h))

/-- Lowering tells upper-case ASCII letters apart. -/
theorem toLower_inj {d : Char} (hc : c.isUpper = true) (hd : d.isUpper = true)
    (h : c.toLower = d.toLower) : c = d := by
  have hval := congrArg Char.val h
  rw [val_toLower hc, val_toLower hd, UInt32.add_left_inj] at hval
  exact Char.ext hval

theorem Unicode.toLower_upper (u : Unicode) (h : c.isUpper = true) : u.toLower c = c.toLower :=
  u.toLower_ascii c (UInt32.lt_of_le_of_lt (isUpper_iff.mp h).2 (by decide))

theorem exported_iff : Exported s ↔ ∃ c cs, s.toList = c :: cs ∧ c.isUpper = true := by
  unfold Exported
  cases s.toList with
  | nil => simp
  | cons c cs => simp

/-- What follows an exported name leaves it exported. -/
theorem Exported.append (h : Exported s) (t : String) : Exported (s ++ t) := by
  obtain ⟨c, cs, hs, hc⟩ := exported_iff.mp h
  exact exported_iff.mpr ⟨c, cs ++ t.toList, by rw [String.toList_append, hs]; rfl, hc⟩

/-- Only the first letter is lowered. -/
theorem Exported.decapitalize_append (h : Exported s) (t : String) :
    decapitalize (s ++ t) = decapitalize s ++ t := by
  obtain ⟨c, cs, hs, -⟩ := exported_iff.mp h
  have happ : (s ++ t).toList = c :: (cs ++ t.toList) := by
    rw [String.toList_append, hs, List.cons_append]
  rw [decapitalize_of_cons happ, decapitalize_of_cons hs, ← String.toList_inj]
  simp

/-- **Exported names are told apart by their lowered forms.** -/
theorem Exported.decapitalize_inj (hs : Exported s) (ht : Exported t)
    (h : decapitalize s = decapitalize t) : s = t := by
  obtain ⟨c, cs, hcs, hc⟩ := exported_iff.mp hs
  obtain ⟨d, ds, hds, hd⟩ := exported_iff.mp ht
  rw [decapitalize_of_cons hcs, decapitalize_of_cons hds, String.ofList_inj] at h
  obtain ⟨hcd, hrest⟩ := List.cons.inj h
  rw [← String.toList_inj, hcs, hds, toLower_inj hc hd hcd, hrest]

/-- The unexported form of an exported name, case mappings apart. -/
theorem Exported.lowerFirst_eq (u : Unicode) (h : Exported s) :
    lowerFirst u s = if decapitalize s ∈ goKeywords then decapitalize s ++ "_" else decapitalize s := by
  obtain ⟨c, cs, hs, hc⟩ := exported_iff.mp h
  simp only [lowerFirst, decapitalize, hs, u.toLower_upper hc]

/-- No keyword ends in an underscore. -/
theorem append_underscore_not_keyword (s : String) : s ++ "_" ∉ goKeywords := by
  intro h
  have hlast : ∀ k ∈ goKeywords, k.toList.getLast? ≠ some '_' := by decide
  exact hlast _ h (by simp)

/-- The escape meets the lowered name of another exported one exactly when that other name is this
one with an underscore: `Case` and `Case_` are both `case_`. -/
theorem Exported.escaped_eq_iff (hs : Exported s) (ht : Exported t) :
    decapitalize s ++ "_" = decapitalize t ↔ t = s ++ "_" := by
  rw [← hs.decapitalize_append]
  constructor
  · intro h
    exact (hs.append "_").decapitalize_inj ht h |>.symm
  · rintro rfl
    rfl

/-- **When two exported names have the same unexported form**: they are one name, or one of them is
a keyword when lowered and the other is it with an underscore. -/
theorem Exported.lowerFirst_eq_iff (u : Unicode) (hs : Exported s) (ht : Exported t) :
    lowerFirst u s = lowerFirst u t ↔
      s = t ∨ (decapitalize s ∈ goKeywords ∧ t = s ++ "_") ∨
        (decapitalize t ∈ goKeywords ∧ s = t ++ "_") := by
  rw [hs.lowerFirst_eq, ht.lowerFirst_eq]
  have hsame : decapitalize s = decapitalize t ↔ s = t :=
    ⟨hs.decapitalize_inj ht, fun h => by rw [h]⟩
  have hnot : ∀ {x y : String}, Exported x → decapitalize y ∈ goKeywords → y ≠ x ++ "_" := by
    rintro x y hx hy rfl
    rw [hx.decapitalize_append] at hy
    exact append_underscore_not_keyword _ hy
  by_cases hks : decapitalize s ∈ goKeywords <;> by_cases hkt : decapitalize t ∈ goKeywords
  · simp [hks, hkt, hsame, hnot hs hkt, hnot ht hks]
  · have hne : s ≠ t := by
      rintro rfl
      exact hkt hks
    simp [hks, hkt, hs.escaped_eq_iff ht, hne]
  · have hne : s ≠ t := by
      rintro rfl
      exact hks hkt
    rw [if_neg hks, if_pos hkt, eq_comm, ht.escaped_eq_iff hs]
    simp [hks, hkt, hne]
  · simp [hks, hkt, hsame]

/-! ## The request -/

/-- A Go identifier: a name in an import path. -/
structure GoIdent where
  /-- The name. -/
  goName : String
  /-- The path of its package. -/
  goImportPath : String
deriving DecidableEq

/-- How a projector gets content. Proto enumerations are open: any other number may arrive. -/
inductive FetchMode
  | unspecified
  | metadataOnly
  | stateAsOfEventVersion
  | other (number : Int)
deriving DecidableEq

/-- Where a projection can be rebuilt from. -/
inductive RebuildMode
  | unspecified
  | fromLog
  | other (number : Int)
deriving DecidableEq

/-- What a projection is for. -/
inductive ProjectionKind
  | unspecified
  | readModel
  | reaction
  | index
  | other (number : Int)
deriving DecidableEq

/-- The `(es.v1.projection)` option. -/
structure ProjectionSpec where
  /-- The stable name. -/
  name : String
  /-- What it is for. -/
  kind : ProjectionKind
  /-- The full names of the events it consumes. -/
  consumes : List String
  /-- How it gets content. -/
  fetch : FetchMode
  /-- Where it is rebuilt from. -/
  rebuild : RebuildMode

/-- The `(es.v1.reaction)` option. -/
structure ReactionSpec where
  /-- The stable name. -/
  name : String
  /-- The full names of the events it consumes. -/
  consumes : List String
  /-- The full names of the commands it issues. -/
  issues : List String
  /-- How it gets content. -/
  fetch : FetchMode

/-- The options of a message; one that is not set is absent. -/
structure MessageOptions where
  /-- `(es.v1.sum_type)`: the name of the generated interface. -/
  sumType : Option String := none
  /-- `(es.v1.aggregate)`: its stream type. -/
  aggregate : Option String := none
  /-- `(es.v1.projection)`. -/
  projection : Option ProjectionSpec := none
  /-- `(es.v1.reaction)`. -/
  reaction : Option ReactionSpec := none

/-- A oneof: for each field the full name of its message, if it is of a message type. -/
structure Oneof where
  /-- The fields, in declaration order. -/
  fields : List (Option String)

/-- The full names of the messages it chooses between. -/
def Oneof.variants (o : Oneof) : List String := o.fields.filterMap id

/-- A message with the messages nested in it. -/
structure Message where
  /-- The full proto name. -/
  fullName : String
  /-- The package of the file that declares it. -/
  parentPackage : String
  /-- The name of its Go type. -/
  goName : GoName
  /-- The path of the Go package of that type. -/
  goImportPath : String
  /-- The options it carries. -/
  options : MessageOptions := {}
  /-- Its oneofs. -/
  oneofs : List Oneof := []
  /-- The messages nested in it. -/
  messages : List Message := []

/-- The identifier of a message's Go type. -/
def Message.goIdent (m : Message) : GoIdent := ⟨m.goName.text, m.goImportPath⟩

/-- Whether a message is an aggregate's state. -/
def Message.hasAggregate (m : Message) : Bool := m.options.aggregate.isSome

/-- The interface a container asks for, empty when it is none. -/
def Message.sumTypeName (m : Message) : String := m.options.sumType.getD ""

mutual

/-- A message followed by the messages nested in it. -/
def Message.flatten : Message → List Message
  | m@⟨_, _, _, _, _, _, messages⟩ => m :: allMessages messages

/-- The messages of a tree, nested ones included, in declaration order. -/
def allMessages : List Message → List Message
  | [] => []
  | m :: ms => m.flatten ++ allMessages ms

end

/-- A proto file of the request. -/
structure File where
  /-- Its proto package. -/
  package : String
  /-- The path of its Go package. -/
  goImportPath : String
  /-- Whether code is to be generated for it, or it is an import. -/
  generate : Bool
  /-- Its top-level messages. -/
  messages : List Message

/-- **A generation request.** A descriptor set has one message of a name, and a message's file is
the one that declares it. -/
structure Request where
  /-- The files, imports included. -/
  files : List File
  /-- Full names are unique. -/
  fullNames : ((files.flatMap fun f => allMessages f.messages).map Message.fullName).Nodup := by
    decide
  /-- A message belongs to the package of its file. -/
  parents : ∀ f ∈ files, ∀ m ∈ allMessages f.messages, m.parentPackage = f.package := by decide

/-- All messages of a request. -/
def Request.messages (q : Request) : List Message := q.files.flatMap fun f => allMessages f.messages

/-- The aggregate states a package declares. -/
def Request.aggregates (q : Request) (package : String) : List Message :=
  q.messages.filter fun m => m.hasAggregate ∧ m.parentPackage = package

/-- A full name has one message. -/
theorem Request.message_unique {q : Request} {m n : Message} (hm : m ∈ q.messages)
    (hn : n ∈ q.messages) (h : m.fullName = n.fullName) : m = n :=
  List.inj_on_of_nodup_map q.fullNames hm hn h

end EsLite.Generator
