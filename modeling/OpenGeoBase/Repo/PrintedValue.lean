import OpenGeoBase.Lib.SignificantDigits
import OpenGeoBase.Repo.GeometryCover

/-!
# Documents that are printed and parsed again

The storage hands an object to its own code in two ways. `insert` parses the text of the packet.
`erase` and `checkVersion` take the document that MongoDB has, have `bsoncxx::to_json` print it, and
parse that text. A number that is not whole is printed with 15 significant digits there, so it may
come back as another one, and a point that is close below the border of a tile as one of the next
tile (`Coord.printed`). A coordinate of no more than 15 digits comes back as it was
(`printedNumber_of_digits`).

A whole number is taken to be stored as one, with all its digits.
-/

namespace OpenGeoBase

open Text

/-- A number as it comes back from its text. -/
def printedNumber (q : ℚ) : ℚ := if q.den = 1 then q else Decimal.round 15 q

/-- A point as it comes back. -/
def Coord.printed (p : Coord) : Coord := (printedNumber p.1, printedNumber p.2)

/-- A number of at most fifteen digits is printed exactly. -/
theorem printedNumber_of_digits {m k : ℤ} (h : |m| < 10 ^ 15) :
    printedNumber (m * 10 ^ k) = m * 10 ^ k := by
  unfold printedNumber
  rw [Decimal.round_of_digits h, ite_self]

namespace Value

mutual

/-- What `rapidjson` reads in the text that `bsoncxx::to_json` prints. -/
def printed : Value → Value
  | .null => .null
  | .bool b => .bool b
  | .number q => .number (printedNumber q)
  | .string s => .string s
  | .array vs => .array (printedElements vs)
  | .object ms => .object (printedMembers ms)

/-- The elements of an array. -/
def printedElements : List Value → List Value
  | [] => []
  | v :: vs => printed v :: printedElements vs

/-- The members of an object. -/
def printedMembers : List (Str × Value) → List (Str × Value)
  | [] => []
  | m :: ms => (m.1, printed m.2) :: printedMembers ms

end

/-! ### What is found in it -/

/-- Arrays are printed element by element. -/
theorem printedElements_eq_map (vs : List Value) : printedElements vs = vs.map printed := by
  induction vs with
  | nil => rfl
  | cons v vs ih => rw [printedElements, ih, List.map_cons]

theorem printedMembers_eq_map (ms : List (Str × Value)) :
    printedMembers ms = ms.map fun m => (m.1, printed m.2) := by
  induction ms with
  | nil => rfl
  | cons m ms ih => rw [printedMembers, ih, List.map_cons]

variable (v : Value)

/-- Reading a member of a printed object is printing the member. -/
@[simp] theorem member?_printed (name : Str) :
    v.printed.member? name = (v.member? name).map printed := by
  cases v with
  | object ms =>
    simp only [printed, member?, printedMembers_eq_map, List.find?_map, Option.map_map]
    rfl
  | _ => rfl

@[simp] theorem elements?_printed : v.printed.elements? = v.elements?.map (List.map printed) := by
  cases v with
  | array vs => simp only [printed, elements?, printedElements_eq_map, Option.map_some]
  | _ => rfl

/-- An element of a printed array is the printed element. -/
@[simp] theorem at?_printed (i : ℕ) : v.printed.at? i = (v.at? i).map printed := by
  unfold at?
  rw [elements?_printed]
  cases v.elements? with
  | none => rfl
  | some vs => exact List.getElem?_map

@[simp] theorem getString?_printed : v.printed.getString? = v.getString? := by
  cases v <;> rfl

@[simp] theorem getDouble?_printed : v.printed.getDouble? = v.getDouble?.map printedNumber := by
  cases v <;> rfl

/-- A position comes back with its two numbers. -/
@[simp] theorem position?_printed : v.printed.position? = v.position?.map Coord.printed := by
  unfold position?
  rw [at?_printed, at?_printed]
  cases v.at? 0 with
  | none => rfl
  | some x =>
    cases v.at? 1 with
    | none =>
      cases x.getDouble? <;> simp
    | some y =>
      cases hx : x.getDouble? with
      | none => simp [hx]
      | some a => cases hy : y.getDouble? <;> simp [hx, hy, Coord.printed]

variable {v}

/-- A point comes back as a point. -/
theorem HasGeometry.printed {p : Coord} (h : v.HasGeometry (.point p)) :
    v.printed.HasGeometry (.point p.printed) := by
  obtain ⟨geometry, coordinates, geometry_type, hgeometry, htype, hcoordinates, hpoint, hp⟩ := h
  refine ⟨geometry.printed, coordinates.printed, geometry_type, ?_, ?_, ?_, hpoint, ?_⟩
  · rw [member?_printed, hgeometry, Option.map_some]
  · rw [member?_printed, htype, Option.map_some]
    rfl
  · rw [member?_printed, hcoordinates, Option.map_some]
  · rw [position?_printed, hp, Option.map_some]

end Value

end OpenGeoBase
