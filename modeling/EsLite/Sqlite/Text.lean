import EsLite.Foundation.Hex
import EsLite.Sqlite.Timestamp

/-!
# The text of a column

The text forms of the libraries that the store is built on, as far as rows are written and read with
them: `GoText` names what is left open, `GoText.Documented` says what the libraries document, and
`storeText` is an instance.
-/

namespace EsLite

/-! ## Ids -/

/-- `UUID.String`: 36 characters, in groups of 8, 4, 4, 4 and 12. -/
def uuidString (u : UUID) : Bytes :=
  let group (i n : Nat) := hexEncode ((u.bytes.drop i).take n)
  group 0 4 ++ 45 :: group 4 2 ++ 45 :: group 6 2 ++ 45 :: group 8 2 ++ 45 :: group 10 6

/-- The digits of the groups. -/
def uuidDigits (s : Bytes) : Bytes :=
  s.take 8 ++ (s.drop 9).take 4 ++ (s.drop 14).take 4 ++ (s.drop 19).take 4 ++ s.drop 24

/-- `uuid.Parse` on the form that `UUID.String` writes. -/
def uuidParse (s : Bytes) : UUID × Bool :=
  if s.length = 36 ∧ [8, 13, 18, 23].map (s[·]?) = List.replicate 4 (some 45) then
    match hexDecode (uuidDigits s) with
    | some bytes => if h : bytes.length = 16 then (⟨bytes, h⟩, true) else (.zero 16, false)
    | none => (.zero 16, false)
  else (.zero 16, false)

/-- The text of an id has its hyphens where they belong, and its digits around them. -/
theorem uuidString_shape (u : UUID) :
    ((uuidString u).length = 36 ∧ [8, 13, 18, 23].map ((uuidString u)[·]?) = List.replicate 4 (some 45)) ∧
      uuidDigits (uuidString u) = hexEncode u.bytes := by
  obtain ⟨bytes, hlength⟩ := u
  -- sixteen bytes in view, so that the places can be computed
  match bytes, hlength with
  | [_, _, _, _, _, _, _, _, _, _, _, _, _, _, _, _], _ => exact ⟨⟨rfl, rfl⟩, rfl⟩

/-- **An id is read back** from its text. -/
theorem uuidParse_uuidString (u : UUID) : uuidParse (uuidString u) = (u, true) := by
  obtain ⟨hplaces, hdigits⟩ := uuidString_shape u
  rw [uuidParse, if_pos hplaces, hdigits, hexDecode_hexEncode]
  exact dif_pos u.length_bytes

/-! ## The libraries -/

/-- The text forms of the libraries the store is built on: the `uuid` package, `time.Format` and
`time.Parse` with the layout of the timestamp columns, and how the driver returns a blob. -/
structure GoText where
  uuidString : UUID → Bytes
  /-- The value `uuid.Parse` returns, and whether it returned no error. -/
  uuidParse : Bytes → UUID × Bool
  formatTS : Time → Bytes
  parseTS : Bytes → Option Time
  /-- A scanned blob; an empty one may come back as `nil`. -/
  blob : Bytes → Option Bytes
  blob_getD : ∀ b, (blob b).getD [] = b

theorem GoText.blob_of_ne_nil (T : GoText) {b : Bytes} (hb : b ≠ []) : T.blob b = some b := by
  have h := T.blob_getD b
  cases hc : T.blob b with
  | none =>
    rw [hc] at h
    exact absurd h.symm hb
  | some c =>
    rw [hc] at h
    exact congrArg some h

/-- The documented behaviour of the text forms: `time.Format` and `time.Parse` on the layout of the
store, and a `uuid` package that parses what it prints. -/
structure GoText.Documented (T : GoText) : Prop where
  formatTS : ∀ t, T.formatTS t = Sqlite.formatTS t
  parseTS : ∀ s, T.parseTS s = Sqlite.parseTS s
  uuid : ∀ u, T.uuidParse (T.uuidString u) = (u, true)

/-- The timestamps of the store, ids in 36 characters, and a driver that returns empty blobs. -/
def storeText : GoText where
  uuidString := uuidString
  uuidParse := uuidParse
  formatTS := Sqlite.formatTS
  parseTS := Sqlite.parseTS
  blob := some
  blob_getD _ := rfl

theorem documented_storeText : storeText.Documented where
  formatTS _ := rfl
  parseTS _ := rfl
  uuid := uuidParse_uuidString

end EsLite
