/-!
# JSON values

The values that grammars and help documents are stored as.  A number is kept
as a natural number when it is one, and otherwise by the text it is written
as, since nothing here is counted below zero or in parts.

The readers answer `none` on a value of the wrong shape.  A field that may be
left out may also be null; fields that no reader asks for are skipped.

A record is written as an object.  It is also read from an array that has the
values of its fields in their order.
-/

namespace Synopsis

/-- A JSON value. -/
inductive Json
  | null
  | bool (value : Bool)
  | nat (value : Nat)
  | number (text : String)
  | string (text : String)
  | array (items : List Json)
  | object (fields : List (String × Json))

namespace Json

/-! ## Readers -/

/-- Reads a truth value. -/
def bool? : Json → Option Bool
  | bool value => some value
  | _ => none

/-- Reads a natural number. -/
def nat? : Json → Option Nat
  | nat value => some value
  | _ => none

/-- Reads a text. -/
def string? : Json → Option String
  | string text => some text
  | _ => none

/-- Reads an array whose items all have one shape. -/
def list? {α : Type} (item? : Json → Option α) : Json → Option (List α)
  | array items => items.mapM item?
  | _ => none

/-- The value of a field of an object. -/
def field? (j : Json) (name : String) : Option Json :=
  match j with
  | object fields => fields.lookup name
  | _ => none

/-- Reads a field that has to be there. -/
def required? {α : Type} (value? : Json → Option α) (j : Json) (name : String) :
    Option α :=
  (j.field? name).bind value?

/-- Reads a field that may be left out. -/
def optional? {α : Type} (value? : Json → Option α) (j : Json) (name : String) :
    Option (Option α) :=
  match j.field? name with
  | none => some none
  | some null => some none
  | some value => (value? value).map some

/-- The object that a record is read from.  An array of values stands for the
object that has them in the fields `names`, in this order; it may stop early. -/
def record? (names : List String) : Json → Option Json
  | object fields => some (object fields)
  | array items =>
    if items.length ≤ names.length then some (object (names.zip items)) else none
  | _ => none

/-- The tag of a record: the text in the field `name` of an object, or at the
start of an array. -/
def tag? (j : Json) (name : String) : Option String :=
  match j with
  | array (first :: _) => first.string?
  | _ => j.required? string? name

/-! ## Writers -/

/-- An array of values of one shape. -/
def ofList {α : Type} (ofItem : α → Json) (items : List α) : Json :=
  array (items.map ofItem)

/-- A field that is left out when there is no value. -/
def optionalField {α : Type} (ofValue : α → Json) (name : String) :
    Option α → List (String × Json)
  | none => []
  | some value => [(name, ofValue value)]

end Json

end Synopsis
