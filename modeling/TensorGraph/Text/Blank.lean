/-!
# Blank characters

A character is blank when it has the Unicode property White_Space.  `trim` removes blanks from
both ends of a text.
-/

namespace TensorGraph.Text

/-- The characters with the property White_Space. -/
def blanks : List Char :=
  ['\u0009', '\u000a', '\u000b', '\u000c', '\u000d', '\u0020', '\u0085', '\u00a0', '\u1680',
   '\u2000', '\u2001', '\u2002', '\u2003', '\u2004', '\u2005', '\u2006', '\u2007', '\u2008',
   '\u2009', '\u200a', '\u2028', '\u2029', '\u202f', '\u205f', '\u3000']

/-- Whether a character is blank. -/
def isBlank (c : Char) : Bool := blanks.contains c

/-- The text without the blanks at its ends. -/
def trim (text : String) : String :=
  String.ofList (((text.toList.dropWhile isBlank).reverse.dropWhile isBlank).reverse)

/-- The text with the ASCII capitals made small; other letters stay. -/
def lowerAscii (text : String) : String := String.ofList (text.toList.map Char.toLower)

end TensorGraph.Text
