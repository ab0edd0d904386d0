import Formula.Text.CharSet

/-!
# Blank characters

The characters of the Unicode property White_Space. They separate tokens and mean nothing else.
-/

namespace Formula.Text

set_option maxRecDepth 8000 in
def blank : CharSet where
  ranges := [
    (0x9, 0xd), (0x20, 0x20), (0x85, 0x85), (0xa0, 0xa0), (0x1680, 0x1680), (0x2000, 0x200a),
    (0x2028, 0x2029), (0x202f, 0x202f), (0x205f, 0x205f), (0x3000, 0x3000)]

def isBlank (c : Char) : Bool := blank.contains c

end Formula.Text
