import OpenGeoBase.Lib.Text

/-!
# JSON values

The parsed form of a JSON text, as the repository's JSON library presents it, and
the accessors the repository uses on it. An accessor whose precondition fails
(a value of another type, an index out of range) is an assertion failure in the
library, or in a build without assertions undefined behaviour or an exception; here it
is `none`.

The repository is built without assertions unless it is asked for them. Then `HasMember`
finds no member in a value that is not an object, and a member that is not there is the
null value, of which no accessor makes anything.
-/

namespace OpenGeoBase

open Text

/-- A JSON value, with exact numbers. -/
inductive Value where
  | null
  | bool (b : Bool)
  | number (q : ℚ)
  | string (s : Str)
  | array (vs : List Value)
  | object (ms : List (Str × Value))

namespace Value

/-- The value of the first member called `name`. -/
def member? (name : Str) : Value → Option Value
  | object ms => (ms.find? fun m => m.1 == name).map Prod.snd
  | _ => none

/-- `HasMember`: is there a member called `name`? -/
def hasMember (name : Str) (v : Value) : Bool := (v.member? name).isSome

/-- The elements of an array. -/
def elements? : Value → Option (List Value)
  | array vs => some vs
  | _ => none

/-- The element at an index of an array. -/
def at? (v : Value) (i : ℕ) : Option Value := v.elements?.bind (·[i]?)

def getDouble? : Value → Option ℚ
  | number q => some q
  | _ => none

def getString? : Value → Option Str
  | string s => some s
  | _ => none

end Value

/-- Equality of texts up to the case of ASCII letters. -/
def iequals (s t : Str) : Bool := s.map Char.toLower == t.map Char.toLower

end OpenGeoBase
