import Synopsis.Grammar.Variants
import Synopsis.Help.Sections
import Synopsis.OptionRecord.Parse
import Synopsis.Usage.Parse

/-!
# Compiling a help document

A compiled help document holds everything that the document says: the name of
the program, each invocation form with its variants, and the options.

The parts are taken in this order, and the first one that fails decides: the
sections, the usage section, the variants of each form, the options section.
-/

namespace Synopsis

/-- An invocation form as it is written, with its variants. -/
structure CompiledUsage where
  source : Grammar
  variants : List Grammar
  deriving DecidableEq, Repr

/-- A compiled help document. -/
structure CompiledHelp where
  binary : String
  usages : List CompiledUsage
  options : List OptionRecord
  deriving DecidableEq, Repr

/-- Why a help document cannot be compiled. -/
inductive CompileError
  /-- A section cannot be read. -/
  | parse (failure : ParseFailure)
  /-- An invocation form, counted from zero, cannot be expanded. -/
  | grammar (variant : Nat) (cause : Fault)
  /-- There is no usage header. -/
  | missingUsageSection
  deriving DecidableEq, Repr

/-- The message that reports an error. -/
def CompileError.message : CompileError → String
  | parse failure => failure.message
  | grammar variant cause =>
    "usage variant " ++ toString variant ++ ": " ++ cause.message
  | missingUsageSection => "\"usage:\" (case-insensitive) not found in help text"

namespace CompiledHelp

/-- The variants of all invocation forms, in their order. -/
def variants (help : CompiledHelp) : List Grammar :=
  help.usages.flatMap CompiledUsage.variants

/-- The first option that has the name. -/
def findOption? (help : CompiledHelp) (name : String) : Option OptionRecord :=
  help.options.find? (·.isNamed name)

end CompiledHelp

namespace Help

/-- Expands the invocation forms.  `position` is the number of the first. -/
def expandForms (limit : Option Nat) (position : Nat) :
    List Grammar → Except CompileError (List CompiledUsage)
  | [] => .ok []
  | source :: rest =>
    match source.expand limit with
    | .error cause => .error (.grammar position cause)
    | .ok variants =>
      (expandForms limit (position + 1) rest).map (⟨source, variants⟩ :: ·)

/-- Reads the options section, if there is one. -/
def parseOptions : Option String → Except CompileError (List OptionRecord)
  | none => .ok []
  | some text => (OptionRecord.parse text).mapError .parse

/-- Compiles a help document.  The limit bounds the variants of each form. -/
def compile (limit : Option Nat) (document : String) :
    Except CompileError CompiledHelp :=
  match Sections.ofDocument? document with
  | none => .error .missingUsageSection
  | some sections => do
    let usage ← (Usage.parse sections.usage).mapError .parse
    let usages ← expandForms limit 0 usage.variants
    let options ← parseOptions sections.options
    return ⟨usage.binary, usages, options⟩

end Help

end Synopsis
