import Mathlib.Logic.Function.Basic
import Synopsis.Json.Help

/-!
# The stored form loses nothing

What is written as JSON is read back as it was, for each of the six kinds of
value that are stored: tokens, grammars, usage sections, option records,
invocation forms and whole help documents.  Different values are therefore
stored differently.

A value can be read from more than one spelling, since unknown fields are
skipped, an optional field may be null, and a record may be an array.  Writing
the value again settles on one spelling, which is read as the same value and
stays as it is from then on.
-/

namespace Synopsis

namespace Json

variable {α : Type}

/-! ## What lossless means -/

/-- Values are written by `write` and read by `read?` without loss. -/
structure Lossless (write : α → Json) (read? : Json → Option α) : Prop where
  /-- What is written is read back. -/
  read_write : ∀ x, read? (write x) = some x
  /-- Different values are written differently. -/
  write_injective : Function.Injective write
  /-- A value read from any spelling is written in one that is read as the same
  value, and that is then written as it stands. -/
  rewrite : ∀ j x, read? j = some x →
    read? (write x) = some x ∧ (read? (write x)).map write = some (write x)

/-- Reading back what is written is all that has to be shown. -/
theorem lossless_of_read_write {write : α → Json} {read? : Json → Option α}
    (hread : ∀ x, read? (write x) = some x) : Lossless write read? where
  read_write := hread
  write_injective := by
    intro x y hwrite
    have hsome : some x = some y := by rw [← hread x, ← hread y, hwrite]
    exact Option.some.inj hsome
  rewrite := by
    intro j x _
    constructor
    · exact hread x
    · rw [hread x]
      rfl

/-! ## Single values and arrays -/

@[simp] theorem string?_string (text : String) : (string text).string? = some text := rfl

@[simp] theorem nat?_nat (value : Nat) : (nat value).nat? = some value := rfl

theorem string_ne_null (text : String) : string text ≠ null := nofun

/-- A list is read back if its items are. -/
theorem list?_ofList {ofItem : α → Json} {item? : Json → Option α}
    (hitem : ∀ x, item? (ofItem x) = some x) (items : List α) :
    (ofList ofItem items).list? item? = some items := by
  show (items.map ofItem).mapM item? = some items
  induction items with
  | nil => rfl
  | cons x rest ih => simp [List.mapM_cons, hitem, ih]

/-! ## Fields -/

/-- A record written as an object is read from this object. -/
@[simp] theorem record?_object (names : List String) (fields : List (String × Json)) :
    (object fields).record? names = some (object fields) := rfl

@[simp] theorem field?_none (name : String) : (object []).field? name = none := rfl

@[simp] theorem field?_here (name : String) (value : Json) (fields : List (String × Json)) :
    (object ((name, value) :: fields)).field? name = some value := by
  simp [field?]

@[simp] theorem field?_past {name other : String} (hother : (name == other) = false)
    (value : Json) (fields : List (String × Json)) :
    (object ((other, value) :: fields)).field? name = (object fields).field? name := by
  simp [field?, List.lookup_cons, hother]

/-- A field that may be left out does not stand in the way of another. -/
@[simp] theorem field?_past_optional {name other : String} (hother : (name == other) = false)
    (ofValue : α → Json) (value : Option α) (fields : List (String × Json)) :
    (object (optionalField ofValue other value ++ fields)).field? name =
      (object fields).field? name := by
  cases value with
  | none => rfl
  | some value => exact field?_past hother (ofValue value) fields

theorem optional?_past {name other : String} (hother : (name == other) = false)
    (value? : Json → Option α) (value : Json) (fields : List (String × Json)) :
    (object ((other, value) :: fields)).optional? value? name =
      (object fields).optional? value? name := by
  unfold optional?
  rw [field?_past hother]

/-- A field that may be left out is read back if its value is, and is not
written as null. -/
theorem optional?_optionalField {ofValue : α → Json} {value? : Json → Option α}
    (hvalue : ∀ x, value? (ofValue x) = some x) (hnull : ∀ x, ofValue x ≠ null)
    {name : String} {fields : List (String × Json)}
    (hfields : (object fields).field? name = none) (value : Option α) :
    (object (optionalField ofValue name value ++ fields)).optional? value? name =
      some value := by
  cases value with
  | none =>
    show (object fields).optional? value? name = some none
    simp [optional?, hfields]
  | some x =>
    show (object ((name, ofValue x) :: fields)).optional? value? name = some (some x)
    simp [optional?, hvalue, hnull]

end Json

/-! ## The six kinds of value -/

theorem Token.ofJson?_toJson (t : Token) : Token.ofJson? t.toJson = some t := by
  -- one case for each way of leaving links and values out
  cases t with
  | separator => rfl
  | word => rfl
  | option _ value => cases value <;> rfl
  | positional => rfl
  | opening kind pair => cases kind <;> cases pair <;> rfl
  | closing kind pair => cases kind <;> cases pair <;> rfl
  | bar start next => cases start <;> cases next <;> rfl
  | ellipsis => rfl

theorem Grammar.ofJson?_toJson (g : Grammar) : Grammar.ofJson? g.toJson = some g := by
  unfold Grammar.ofJson? Grammar.toJson
  rw [Json.list?_ofList Token.ofJson?_toJson]
  rfl

theorem Usage.ofJson?_toJson (usage : Usage) : Usage.ofJson? usage.toJson = some usage := by
  have hvariants := Json.list?_ofList Grammar.ofJson?_toJson usage.variants
  simp [Usage.ofJson?, Usage.toJson, Json.required?, hvariants]

theorem OptionRecord.ofJson?_toJson (record : OptionRecord) :
    OptionRecord.ofJson? record.toJson = some record := by
  have hnames := Json.list?_ofList Json.string?_string record.names
  have hfragments := Json.list?_ofList Json.string?_string record.fragments
  simp [OptionRecord.ofJson?, OptionRecord.toJson, Json.required?, hnames, hfragments,
    Json.optional?_past, Json.optional?_optionalField Json.string?_string Json.string_ne_null]

theorem CompiledUsage.ofJson?_toJson (usage : CompiledUsage) :
    CompiledUsage.ofJson? usage.toJson = some usage := by
  have hsource := Grammar.ofJson?_toJson usage.source
  have hvariants := Json.list?_ofList Grammar.ofJson?_toJson usage.variants
  simp [CompiledUsage.ofJson?, CompiledUsage.toJson, Json.required?, hsource, hvariants]

theorem CompiledHelp.ofJson?_toJson (help : CompiledHelp) :
    CompiledHelp.ofJson? help.toJson = some help := by
  have husages := Json.list?_ofList CompiledUsage.ofJson?_toJson help.usages
  have hoptions := Json.list?_ofList OptionRecord.ofJson?_toJson help.options
  simp [CompiledHelp.ofJson?, CompiledHelp.toJson, Json.required?, husages, hoptions]

/-- All that is stored is stored without loss. -/
theorem stored_without_loss :
    Json.Lossless Token.toJson Token.ofJson? ∧
      Json.Lossless Grammar.toJson Grammar.ofJson? ∧
      Json.Lossless Usage.toJson Usage.ofJson? ∧
      Json.Lossless OptionRecord.toJson OptionRecord.ofJson? ∧
      Json.Lossless CompiledUsage.toJson CompiledUsage.ofJson? ∧
      Json.Lossless CompiledHelp.toJson CompiledHelp.ofJson? := by
  refine ⟨?token, ?grammar, ?usage, ?record, ?form, ?help⟩
  case token => exact Json.lossless_of_read_write Token.ofJson?_toJson
  case grammar => exact Json.lossless_of_read_write Grammar.ofJson?_toJson
  case usage => exact Json.lossless_of_read_write Usage.ofJson?_toJson
  case record => exact Json.lossless_of_read_write OptionRecord.ofJson?_toJson
  case form => exact Json.lossless_of_read_write CompiledUsage.ofJson?_toJson
  case help => exact Json.lossless_of_read_write CompiledHelp.ofJson?_toJson

/-- A bar with a null link and a field that nothing asks for is a bar without
this link, and is written without both fields from then on. -/
theorem bar_stored_again :
    let written := Json.object
      [("note", .bool true), ("kind", .string "branch"), ("start", .null), ("next", .nat 4)]
    Token.ofJson? written = some (.bar none (some 4)) ∧
      Token.toJson (.bar none (some 4)) =
        .object [("kind", .string "branch"), ("next", .nat 4)] ∧
      Token.ofJson? (Token.toJson (.bar none (some 4))) = some (.bar none (some 4)) := by
  intro written
  have hread : Token.ofJson? written = some (.bar none (some 4)) := rfl
  exact ⟨hread, rfl, (stored_without_loss.1.rewrite written _ hread).1⟩

end Synopsis
