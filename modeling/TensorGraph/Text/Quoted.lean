import TensorGraph.Text.Hex
import TensorGraph.Text.Listing
import TensorGraph.Text.Printable

/-!
# Quoted text

A text that comes from a user is shown between double quotes.  Inside, a double quote and a
backslash follow a backslash, five controls have a letter or a digit after a backslash, and every
other character that is not printable is shown by its code point, in base 16 between braces.
-/

namespace TensorGraph.Text

/-- A character as it is shown between double quotes. -/
def escaped (c : Char) : String :=
  match c with
  | '"' => "\\\""
  | '\\' => "\\\\"
  | '\n' => "\\n"
  | '\r' => "\\r"
  | '\t' => "\\t"
  | '\x00' => "\\0"
  | c => if isPrintable c then c.toString else "\\u\x7b" ++ hexDigits c.toNat ++ "\x7d"

/-- A text between double quotes. -/
def quoted (text : String) : String := "\"" ++ String.join (text.toList.map escaped) ++ "\""

/-- A list of quoted texts between square brackets. -/
def quotedList (texts : List String) : String := bracketed (texts.map quoted)

end TensorGraph.Text
