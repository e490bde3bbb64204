import AutoProperty.Json5.Number

/-! # Values of a JSON5 text

A value is kept as it is written. What cannot be used, a string with half a surrogate pair or a
number out of range, is an error only where the value is looked at.
-/

namespace AutoProperty.Json5

inductive Value where
  | null
  | boolean (value : Bool)
  /-- A string; without a text if it holds half a surrogate pair. -/
  | string (text? : Option String)
  | number (number : Number)
  | array (items : List Value)
  /-- The keys and the values of an object, in the order of the text. -/
  | object (keys : List (Option String)) (values : List Value)

namespace Value

mutual

def isReadable : Value → Bool
  | null | boolean _ => true
  | string text? => text?.isSome
  | number n => n.isReadable
  | array items => areReadable items
  | object keys values => keys.all (·.isSome) && areReadable values

def areReadable : List Value → Bool
  | [] => true
  | v :: vs => v.isReadable && areReadable vs

end

def boolean? : Value → Option Bool
  | boolean b => some b
  | _ => none

def string? : Value → Option String
  | string text? => text?
  | _ => none

def array? : Value → Option (List Value)
  | array items => some items
  | _ => none

/-- The value of a field among the members of an object: none, or one. More than one is an error. -/
def memberOf? (name : String) (members : List (Option String × Value)) :
    Option (Option Value) :=
  match members.filter (·.1 == some name) with
  | [] => some none
  | [(_, value)] => some (some value)
  | _ => none

/-- The values of the named fields of a record. An object gives them by name; its other members are
ignored, but must be readable. An array gives them in order, and what follows is not looked at. -/
def record? (names : List String) : Value → Option (List (Option Value))
  | object keys values => do
    let members := keys.zip values
    guard (keys.all (·.isSome))
    guard (members.all fun (key, value) =>
      key.any names.contains || value.isReadable)
    names.mapM (memberOf? · members)
  | array items => some (names.zipIdx.map fun (_, i) => items[i]?)
  | _ => none

end Value

end AutoProperty.Json5
