import ScopedStyles.Text.Basic

/-!
# JSON values

A string of a JSON text can escape one half of a surrogate pair without the other. It is a string
all the same, but no text, and it has no place where a text is wanted.
-/

namespace ScopedStyles

/-- A JSON value. -/
inductive Json where
  | null
  | bool (b : Bool)
  /-- A number, as it is written. -/
  | number (literal : Text)
  /-- A string, unless it is no text. -/
  | string (t : Option Text)
  | array (items : List Json)
  /-- An object, with its members in order. A name can occur more than once. -/
  | object (members : List (Option Text × Json))
  deriving Repr, Inhabited

namespace Json

/-- The members of an object called `name`. -/
def named (name : Text) (members : List (Option Text × Json)) : List Json :=
  (members.filter fun m => m.1 == some name).map Prod.snd

/-- The member of an object called `name`, if there is one. The name must not be repeated. -/
def member? (name : Text) (members : List (Option Text × Json)) : Option (Option Json) :=
  match named name members with
  | [] => some none
  | [j] => some (some j)
  | _ => none

/-- Whether every name in an object is a text. -/
def hasTextNames (members : List (Option Text × Json)) : Bool :=
  members.all fun m => m.1.isSome

/-- A truth value. -/
def toBool? : Json → Option Bool
  | bool b => some b
  | _ => none

/-- A text. -/
def toText? : Json → Option Text
  | string t => t
  | _ => none

/-- What `read` makes of a value; null stands for no value. -/
def optional {α : Type} (read : Json → Option α) : Option Json → Option (Option α)
  | none => some none
  | some null => some none
  | some j => (read j).map some

end Json

end ScopedStyles
