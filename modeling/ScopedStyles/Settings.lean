import ScopedStyles.Component
import ScopedStyles.Json.Parser

/-!
# Settings

What a JSON text can say about scoping. Settings are an object whose members are all optional, or an
array with a value for each of them in order.
-/

namespace ScopedStyles

/-- The encapsulation with the given name. -/
def Encapsulation.named? (name : Text) : Option Encapsulation :=
  if name = "Emulated".toList then some .emulated
  else if name = "None".toList then some .none
  else if name = "ShadowDom".toList then some .shadowDom
  else Option.none

/-- An encapsulation is written as its name, or as an object whose only member has that name and no
value. -/
def Encapsulation.ofJson? : Json → Option Encapsulation
  | .string (some name) => named? name
  | .object [(some name, .null)] => named? name
  | _ => Option.none

/-- The mode for strict scoping or the other one. -/
def Mode.ofStrict (strict : Bool) : Mode := if strict then .strict else .loose

/-- A mode is written as the member `strictStyling` of an object, or as the only item of an array;
scoping is strict by default. -/
def Mode.ofJson? : Json → Option Mode
  | .object members =>
    if Json.hasTextNames members then
      match Json.member? "strictStyling".toList members with
      | some none => some .strict
      | some (some (.bool b)) => some (ofStrict b)
      | _ => none
    else none
  | .array [] => some .strict
  | .array [.bool b] => some (ofStrict b)
  | _ => none

/-- The settings of a run of the program, as far as a file gives them. -/
structure Settings where
  /-- Whether scoping is strict. -/
  strictStyling : Option Bool := none
  /-- How the styles are kept to their component. -/
  encapsulation : Option Encapsulation := none
  /-- What the names of the output files end with. -/
  suffix : Option Text := none
  /-- The identifier of the component. -/
  componentId : Option Text := none
  deriving DecidableEq, Repr

namespace Settings

/-- Settings from their four values, in order. -/
def ofValues? (strictStyling encapsulation suffix componentId : Option Json) :
    Option Settings := do
  return {
    strictStyling := ← Json.optional Json.toBool? strictStyling
    encapsulation := ← Json.optional Encapsulation.ofJson? encapsulation
    suffix := ← Json.optional Json.toText? suffix
    componentId := ← Json.optional Json.toText? componentId }

/-- Settings as they are written: the members of an object, or the four items of an array. -/
def ofJson? : Json → Option Settings
  | .object members =>
    if Json.hasTextNames members then do
      ofValues? (← Json.member? "strictStyling".toList members)
        (← Json.member? "encapsulation".toList members)
        (← Json.member? "suffix".toList members)
        (← Json.member? "componentId".toList members)
    else none
  | .array [strictStyling, encapsulation, suffix, componentId] =>
    ofValues? (some strictStyling) (some encapsulation) (some suffix) (some componentId)
  | _ => none

end Settings

end ScopedStyles
