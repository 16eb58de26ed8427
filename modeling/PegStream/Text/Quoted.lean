import PegStream.Text.CombiningMark
import PegStream.Text.Printable

/-!
# Quoted characters and strings

The written form of a character or a string: between quotes, with the quote itself, the backslash
and the common controls escaped, and with every mark and every unprintable character given by its
code point.
-/

namespace PegStream.Text

/-- A code point in lowercase hexadecimal, between braces. -/
def escapeCodePoint (c : Char) : String :=
  "\\u\x7b" ++ String.ofList (Nat.toDigits 16 c.toNat) ++ "\x7d"

/-- The written form of `c` between two `quote` characters. -/
def escape (quote c : Char) : String :=
  if c = '\x00' then "\\0"
  else if c = '\t' then "\\t"
  else if c = '\r' then "\\r"
  else if c = '\n' then "\\n"
  else if c = '\\' then "\\\\"
  else if c = quote then "\\" ++ quote.toString
  else if isCombiningMark c then escapeCodePoint c
  else if isPrintable c then c.toString
  else escapeCodePoint c

/-- A character between single quotes. -/
def quoteChar (c : Char) : String :=
  "'" ++ escape '\x27' c ++ "'"

/-- A string between double quotes. -/
def quoteString (s : String) : String :=
  "\"" ++ String.join (s.toList.map (escape '\x22')) ++ "\""

end PegStream.Text
