import Synopsis.Json.Basic
import Synopsis.Usage.Parse

/-!
# Grammars as JSON

A token is an object whose field `kind` names the kind of the token.  The two
halves of a group share one kind and are told apart by flags; a link that is
not set is left out.  A grammar is the array of its tokens.
-/

namespace Synopsis

/-! ## Tokens -/

namespace Token

/-- The object of one half of a group. -/
def groupToJson (opened : Bool) (kind : GroupKind) (pair : Option Nat) : Json :=
  .object
    ([("kind", .string "group"), ("opened", .bool opened),
      ("required", .bool (kind == .required))] ++
      Json.optionalField .nat "pair" pair)

/-- The object of a token. -/
def toJson : Token → Json
  | separator => .object [("kind", .string "separator")]
  | word name => .object [("kind", .string "static_word"), ("name", .string name)]
  | option name value =>
    .object
      ([("kind", .string "option"), ("name", .string name)] ++
        Json.optionalField .string "value" value)
  | positional placeholder =>
    .object
      [("kind", .string "positional_argument"), ("placeholder", .string placeholder)]
  | opening kind pair => groupToJson true kind pair
  | closing kind pair => groupToJson false kind pair
  | bar start next =>
    .object
      ([("kind", .string "branch")] ++ Json.optionalField .nat "start" start ++
        Json.optionalField .nat "next" next)
  | ellipsis => .object [("kind", .string "repeat")]

/-- The fields of a token of this kind, behind the kind itself. -/
def fieldNames : String → List String
  | "static_word" => ["name"]
  | "option" => ["name", "value"]
  | "positional_argument" => ["placeholder"]
  | "group" => ["opened", "required", "pair"]
  | "branch" => ["start", "next"]
  | _ => []

/-- Reads one half of a group. -/
def groupOfJson? (j : Json) : Option Token := do
  let opened ← j.required? Json.bool? "opened"
  let required ← j.required? Json.bool? "required"
  let pair ← j.optional? Json.nat? "pair"
  let kind := if required then GroupKind.required else GroupKind.optional
  return if opened then opening kind pair else closing kind pair

/-- Reads a token. -/
def ofJson? (j : Json) : Option Token := do
  let kind ← j.tag? "kind"
  let j ← j.record? ("kind" :: fieldNames kind)
  match kind with
  | "separator" => return separator
  | "static_word" => return word (← j.required? Json.string? "name")
  | "option" =>
    let name ← j.required? Json.string? "name"
    let value ← j.optional? Json.string? "value"
    return option name value
  | "positional_argument" =>
    return positional (← j.required? Json.string? "placeholder")
  | "group" => groupOfJson? j
  | "branch" =>
    let start ← j.optional? Json.nat? "start"
    let next ← j.optional? Json.nat? "next"
    return bar start next
  | "repeat" => return ellipsis
  | _ => none

end Token

/-! ## Grammars and usages -/

namespace Grammar

/-- The array of the tokens of a grammar. -/
def toJson (g : Grammar) : Json :=
  Json.ofList Token.toJson g.tokens

/-- Reads a grammar. -/
def ofJson? (j : Json) : Option Grammar :=
  (j.list? Token.ofJson?).map Grammar.mk

end Grammar

namespace Usage

/-- The object of a usage section. -/
def toJson (usage : Usage) : Json :=
  .object
    [("binary", .string usage.binary),
      ("variants", Json.ofList Grammar.toJson usage.variants)]

/-- Reads a usage section. -/
def ofJson? (j : Json) : Option Usage := do
  let j ← j.record? ["binary", "variants"]
  let binary ← j.required? Json.string? "binary"
  let variants ← j.required? (·.list? Grammar.ofJson?) "variants"
  return ⟨binary, variants⟩

end Usage

end Synopsis
