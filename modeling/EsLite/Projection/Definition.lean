import EsLite.Foundation.ByteOrder
import EsLite.Foundation.Hex
import EsLite.Foundation.Sha256

/-!
# Projection definitions

A projection's static metadata and the fingerprint the feed stores with a checkpoint. The fingerprint
hashes the name and the sorted types, joined by NUL. Without NUL in any of them the joined text has one
reading (`encoding_eq_iff`), so the fingerprint separates definitions that differ in more than the order of
what they consume (`hash_eq_iff`).
-/

namespace EsLite

/-- A projection's name and the event type URLs it consumes. -/
structure Definition where
  name : Bytes
  consumes : List Bytes
deriving DecidableEq

namespace Definition

/-- Namespaces the fingerprint inside the hash input. -/
def definitionHashPrefix : Bytes := str "es-lite/definition"

/-- The bytes that are hashed: the consumed types sorted and joined by NUL. -/
def encoding (d : Definition) : Bytes :=
  definitionHashPrefix ++ [0] ++ d.name ++ [0] ++
    [0].intercalate (d.consumes.mergeSort (fun a b => !lexLt b a))

/-- The definition's fingerprint; reordering `consumes` does not change it. -/
def hash (d : Definition) : Bytes := hexEncode (sha256 d.encoding).bytes

/-- The fingerprint is 64 characters long, in particular never the empty text that stands for an
unrecorded one. -/
theorem length_hash (d : Definition) : d.hash.length = 64 := by
  rw [hash, length_hexEncode, FixedBytes.length_bytes]

theorem hash_ne_nil (d : Definition) : d.hash ≠ [] := by
  intro h
  have := d.length_hash
  rw [h] at this
  cases this

/-! ## What the fingerprint separates -/

/-- Neither the name nor a consumed type contains a NUL byte. -/
def NulFree (d : Definition) : Prop := 0 ∉ d.name ∧ ∀ t ∈ d.consumes, 0 ∉ t

instance (d : Definition) : Decidable d.NulFree :=
  inferInstanceAs (Decidable (0 ∉ d.name ∧ ∀ t ∈ d.consumes, 0 ∉ t))

/-- The consumed types in the order in which they are hashed. -/
def sorted (d : Definition) : List Bytes := d.consumes.mergeSort (fun a b => !lexLt b a)

theorem mem_sorted {d : Definition} {t : Bytes} : t ∈ d.sorted ↔ t ∈ d.consumes := List.mem_mergeSort

theorem sorted_ne_nil {d : Definition} (h : d.consumes ≠ []) : d.sorted ≠ [] := by
  intro hnil
  obtain ⟨t, ht⟩ := List.exists_mem_of_ne_nil _ h
  rw [← mem_sorted, hnil] at ht
  cases ht

/-- The hashed bytes are one join of the namespace, the name and the types. -/
theorem encoding_eq_intercalate {d : Definition} (h : d.consumes ≠ []) :
    d.encoding = [0].intercalate (definitionHashPrefix :: d.name :: d.sorted) := by
  rw [List.intercalate_cons_cons, List.intercalate_cons_of_ne_nil (sorted_ne_nil h), encoding, sorted]
  simp only [List.append_assoc]

/-- **The hashed bytes have one reading**: split at NUL they are the parts again. -/
theorem splitOn_encoding {d : Definition} (h : d.consumes ≠ []) (hnul : d.NulFree) :
    d.encoding.splitOn 0 = definitionHashPrefix :: d.name :: d.sorted := by
  rw [encoding_eq_intercalate h]
  refine List.splitOn_intercalate 0 (fun part hpart => ?_) (List.cons_ne_nil _ _)
  rcases List.mem_cons.mp hpart with rfl | hpart
  · decide
  rcases List.mem_cons.mp hpart with rfl | hpart
  · exact hnul.1
  · exact hnul.2 part (mem_sorted.mp hpart)

/-- The hashed bytes of two definitions are the same for the same name and a rearrangement of the types. -/
theorem encoding_eq_iff {d d' : Definition} (h : d.consumes ≠ []) (h' : d'.consumes ≠ []) (hnul : d.NulFree)
    (hnul' : d'.NulFree) : d.encoding = d'.encoding ↔ d.name = d'.name ∧ d.consumes.Perm d'.consumes := by
  rw [← sort_eq_iff_perm]
  constructor
  · intro heq
    have hparts := congrArg (List.splitOn 0) heq
    rw [splitOn_encoding h hnul, splitOn_encoding h' hnul', List.cons.injEq, List.cons.injEq] at hparts
    exact hparts.2
  · rintro ⟨hname, hsorted⟩
    rw [encoding, encoding, hname, hsorted]

/-- **Fingerprints separate definitions** that consume something and contain no NUL byte, as long as SHA-256
does not collide on what is hashed for them: they are equal exactly if the names are, and the types are a
rearrangement of each other. -/
theorem hash_eq_iff {X : Set Bytes} (hX : Set.InjOn sha256 X) {d d' : Definition} (h : d.consumes ≠ [])
    (h' : d'.consumes ≠ []) (hnul : d.NulFree) (hnul' : d'.NulFree) (hmem : d.encoding ∈ X)
    (hmem' : d'.encoding ∈ X) :
    d.hash = d'.hash ↔ d.name = d'.name ∧ d.consumes.Perm d'.consumes := by
  rw [← encoding_eq_iff h h' hnul hnul']
  constructor
  · intro heq
    exact hX hmem hmem' (FixedBytes.ext (hexEncode_injective heq))
  · intro heq
    rw [hash, hash, heq]

/-- Projections of two types: the order in which they are listed does not matter, and what they are does. -/
theorem hash_eq_iff_placed_shipped :
    Definition.hash ⟨str "orders", [str "placed", str "shipped"]⟩ =
        Definition.hash ⟨str "orders", [str "shipped", str "placed"]⟩ ∧
      Definition.hash ⟨str "orders", [str "placed", str "shipped"]⟩ ≠
        Definition.hash ⟨str "orders", [str "placed", str "returned"]⟩ := by
  let placed (t : Bytes) : Definition := ⟨str "orders", [str "placed", t]⟩
  have hsorted (t : Bytes) (ht : (!lexLt t (str "placed")) = true) : (placed t).encoding =
      definitionHashPrefix ++ [0] ++ str "orders" ++ [0] ++ [0].intercalate [str "placed", t] := by
    have hpair : [str "placed", t].Pairwise (fun a b => (!lexLt b a) = true) := List.pairwise_pair.mpr ht
    rw [encoding, List.mergeSort_of_pairwise hpair]
  have hX : Set.InjOn sha256 {(placed (str "shipped")).encoding, (placed (str "returned")).encoding} := by
    have hne : sha256 (placed (str "shipped")).encoding ≠ sha256 (placed (str "returned")).encoding := by
      rw [hsorted _ (by decide), hsorted _ (by decide)]
      decide +kernel
    rintro a (rfl | rfl) b (rfl | rfl) hab
    · rfl
    · exact absurd hab hne
    · exact absurd hab.symm hne
    · rfl
  have hsame : Definition.encoding ⟨str "orders", [str "shipped", str "placed"]⟩ =
      (placed (str "shipped")).encoding :=
    (encoding_eq_iff (by decide) (by decide) (by decide) (by decide)).mpr ⟨rfl, by decide⟩
  constructor
  · exact (hash_eq_iff hX (by decide) (by decide) (by decide) (by decide) (.inl rfl) (.inl hsame)).mpr
      ⟨rfl, by decide⟩
  · rw [ne_eq, hash_eq_iff hX (by decide) (by decide) (by decide) (by decide) (.inl rfl) (.inr rfl)]
    decide

end Definition

end EsLite
