import PegStream.Text.Ranges

/-!
# White space

The property `White_Space` of the Unicode character database. It has 25 members, among them the
ASCII controls from tab to carriage return, the no-break space and the ideographic space.
-/

namespace PegStream.Text

/-- Where the property `White_Space` changes. -/
def whiteSpaceTable : RangeTable where
  bounds := #[
    0x9, 0xe, 0x20, 0x21, 0x85, 0x86, 0xa0, 0xa1, 0x1680, 0x1681, 0x2000, 0x200b, 0x2028,
    0x202a, 0x202f, 0x2030, 0x205f, 0x2060, 0x3000, 0x3001]

/-- A blank or a line break of any script. -/
def isWhiteSpace (c : Char) : Bool := whiteSpaceTable.contains c

end PegStream.Text
