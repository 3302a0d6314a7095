import Synopsis.Lexeme.Name
import Synopsis.Text.WordChar

/-!
# Placeholders and option uses

A placeholder stands for a value that the user fills in: `<name>` in angle
brackets, or `NAME` in capitals.  An option use is an option name with the
placeholder of its value written behind it, if it has one.
-/

namespace Synopsis.Lexeme

open Synopsis.Text

/-! ## Placeholders -/

/-- A placeholder in angle brackets, which hold one character at least. -/
def bracketed? : List Char → Option Cut
  | '<' :: s =>
    let body := Cut.run (· != '>') s
    match body.taken, body.rest with
    | _ :: _, '>' :: rest => some ⟨'<' :: body.taken ++ ['>'], rest⟩
    | _, _ => none
  | _ => none

/-- The characters of a capitalised placeholder behind the first. -/
def isCapitalPart (c : Char) : Bool :=
  c.isUpper || c.isDigit || c == '_' || c == '-'

/-- The longest rest of a capitalised placeholder that ends at a word
boundary.  `last` is the character before it. -/
def capitalTail? (last : Char) : List Char → Option Cut
  | [] => if isWordChar last then some ⟨[], []⟩ else none
  | c :: s =>
    match if isCapitalPart c then capitalTail? c s else none with
    | some cut => some (cut.after [c])
    | none => if isWordChar last != isWordChar c then some ⟨[], c :: s⟩ else none

/-- A capitalised placeholder.  The word boundary at its end keeps a word that
only starts with a capital a plain word. -/
def capitalised? : List Char → Option Cut
  | [] => none
  | c :: s => if c.isUpper then (capitalTail? c s).map (·.after [c]) else none

/-- A placeholder of either form. -/
def placeholder? (s : List Char) : Option Cut :=
  (bracketed? s).or (capitalised? s)

theorem takes_of_bracketed? {s : List Char} {cut : Cut}
    (h : bracketed? s = some cut) : cut.Takes s := by
  unfold bracketed? at h
  split at h
  · rename_i s
    have hrun := Cut.run_isOf (· != '>') s
    simp only at h
    split at h
    · rename_i c body rest hbody hrest
      obtain rfl := Option.some.inj h
      refine ⟨?_, by simp⟩
      rw [Cut.IsOf, hbody, hrest] at hrun
      rw [Cut.IsOf, hbody, ← hrun]
      simp
    · simp at h
  · simp at h

theorem capitalTail?_isOf {last : Char} {s : List Char} {cut : Cut}
    (h : capitalTail? last s = some cut) : cut.IsOf s := by
  induction s generalizing last cut with
  | nil =>
    rw [capitalTail?] at h
    split at h
    · obtain rfl := Option.some.inj h
      rfl
    · simp at h
  | cons c s ih =>
    rw [capitalTail?] at h
    split at h
    · rename_i tail htail
      obtain rfl := Option.some.inj h
      split at htail
      · exact (ih htail).after [c]
      · simp at htail
    · split at h
      · obtain rfl := Option.some.inj h
        rfl
      · simp at h

theorem takes_of_capitalised? {s : List Char} {cut : Cut}
    (h : capitalised? s = some cut) : cut.Takes s := by
  cases s with
  | nil => simp [capitalised?] at h
  | cons c s =>
    rw [capitalised?] at h
    split at h
    · obtain ⟨tail, htail, rfl⟩ := Option.map_eq_some_iff.1 h
      exact (capitalTail?_isOf htail).takes_after c
    · simp at h

theorem takes_of_placeholder? {s : List Char} {cut : Cut}
    (h : placeholder? s = some cut) : cut.Takes s := by
  rcases Option.or_eq_some_iff.1 h with h | ⟨_, h⟩
  · exact takes_of_bracketed? h
  · exact takes_of_capitalised? h

/-! ## Option uses -/

/-- An option as it is written where it is used: its name, the joint before
its value, and the value. -/
structure OptionUse where
  name : List Char
  joint : List Char
  value : Option (List Char)
  rest : List Char
  deriving DecidableEq, Repr

/-- All the characters of an option use. -/
def OptionUse.taken (use : OptionUse) : List Char :=
  use.name ++ use.joint ++ use.value.getD []

/-- The joint before a value: one equals sign, one space, or nothing. -/
def valueJoint : List Char → Cut
  | '=' :: s => ⟨['='], s⟩
  | ' ' :: s => ⟨[' '], s⟩
  | s => ⟨[], s⟩

/-- An option use.  Where no placeholder stands behind the joint the option
has no value, and the joint is not taken. -/
def optionUse? (s : List Char) : Option OptionUse :=
  (optionName? s).map fun name =>
    let joint := valueJoint name.rest
    match placeholder? joint.rest with
    | some value => ⟨name.taken, joint.taken, some value.taken, value.rest⟩
    | none => ⟨name.taken, [], none, name.rest⟩

theorem valueJoint_isOf (s : List Char) : (valueJoint s).IsOf s := by
  unfold valueJoint
  split <;> rfl

/-- The characters of an option use and what it leaves make up the text. -/
theorem takes_of_optionUse? {s : List Char} {use : OptionUse}
    (h : optionUse? s = some use) : Cut.Takes ⟨use.taken, use.rest⟩ s := by
  obtain ⟨name, hname, rfl⟩ := Option.map_eq_some_iff.1 h
  obtain ⟨hs, hne⟩ := takes_of_optionName? hname
  simp only
  split
  · rename_i value hvalue
    have hjoint := valueJoint_isOf name.rest
    have hrest := (takes_of_placeholder? hvalue).1
    refine ⟨?_, by simp [OptionUse.taken, hne]⟩
    rw [Cut.IsOf] at hs hjoint hrest
    simp [Cut.IsOf, OptionUse.taken, hrest, hjoint, hs]
  · exact ⟨by simpa [Cut.IsOf, OptionUse.taken] using hs,
      by simpa [OptionUse.taken] using hne⟩

end Synopsis.Lexeme
