import Synopsis.Help.Compiled
import Synopsis.Json.Grammar

/-!
# Help documents as JSON

Option records and compiled help documents, as objects with one field for each
part.  An option without a value leaves the field of the value out.
-/

namespace Synopsis

namespace OptionRecord

/-- The object of an option record. -/
def toJson (record : OptionRecord) : Json :=
  .object
    ([("names", Json.ofList .string record.names)] ++
      Json.optionalField .string "value" record.value ++
      [("level", .nat record.level),
        ("description", Json.ofList .string record.fragments),
        ("line_number", .nat record.lineNumber)])

/-- Reads an option record. -/
def ofJson? (j : Json) : Option OptionRecord := do
  let j ← j.record? ["names", "value", "level", "description", "line_number"]
  let names ← j.required? (·.list? Json.string?) "names"
  let value ← j.optional? Json.string? "value"
  let level ← j.required? Json.nat? "level"
  let fragments ← j.required? (·.list? Json.string?) "description"
  let lineNumber ← j.required? Json.nat? "line_number"
  return ⟨names, value, level, fragments, lineNumber⟩

end OptionRecord

namespace CompiledUsage

/-- The object of an invocation form with its variants. -/
def toJson (usage : CompiledUsage) : Json :=
  .object
    [("source", usage.source.toJson),
      ("variants", Json.ofList Grammar.toJson usage.variants)]

/-- Reads an invocation form with its variants. -/
def ofJson? (j : Json) : Option CompiledUsage := do
  let j ← j.record? ["source", "variants"]
  let source ← j.required? Grammar.ofJson? "source"
  let variants ← j.required? (·.list? Grammar.ofJson?) "variants"
  return ⟨source, variants⟩

end CompiledUsage

namespace CompiledHelp

/-- The object of a compiled help document. -/
def toJson (help : CompiledHelp) : Json :=
  .object
    [("binary", .string help.binary),
      ("usages", Json.ofList CompiledUsage.toJson help.usages),
      ("options", Json.ofList OptionRecord.toJson help.options)]

/-- Reads a compiled help document. -/
def ofJson? (j : Json) : Option CompiledHelp := do
  let j ← j.record? ["binary", "usages", "options"]
  let binary ← j.required? Json.string? "binary"
  let usages ← j.required? (·.list? CompiledUsage.ofJson?) "usages"
  let options ← j.required? (·.list? OptionRecord.ofJson?) "options"
  return ⟨binary, usages, options⟩

end CompiledHelp

end Synopsis
