import Synopsis.Text.Extending
import Synopsis.Text.Printable

/-!
# Quoted text

A message shows a piece of text between double quotes.  The quote, the
backslash and the common controls are written as short escapes; a character
that would not show, or that would join the one before it, is written by its
code point in braces.
-/

namespace Synopsis.Text

/-- The code point of a character in lower-case hexadecimal digits. -/
def hexDigits (c : Char) : List Char :=
  Nat.toDigits 16 c.toNat

/-- One character as it is written between the quotes. -/
def escape (c : Char) : List Char :=
  match c with
  | '\x00' => ['\\', '0']
  | '\t' => ['\\', 't']
  | '\r' => ['\\', 'r']
  | '\n' => ['\\', 'n']
  | '\"' => ['\\', '\"']
  | '\\' => ['\\', '\\']
  | _ =>
    if isExtending c || !isPrintable c then
      ['\\', 'u', '\x7b'] ++ hexDigits c ++ ['\x7d']
    else
      [c]

/-- A text in double quotes. -/
def quote (s : List Char) : List Char :=
  '\"' :: (s.flatMap escape ++ ['\"'])

end Synopsis.Text
