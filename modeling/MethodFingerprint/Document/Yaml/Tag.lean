import MethodFingerprint.Text.Hex

/-!
# YAML tags

A tag says of what type a node is. It is spelled in letters, digits and some marks; any other octet
is given by a **code**, a percent sign and two hexadecimal digits. Codes spell the octets of whole
characters: the first octet of a character says how many follow it, and these are marked as such.
Beyond that it does not matter whether the octets are text, so a tag is kept as octets. A tag ends
before the first octet that is zero.
-/

namespace MethodFingerprint.Yaml

/-- The characters of names. -/
def isNameChar (c : Char) : Bool := c.isAlphanum || c == '_' || c == '-'

/-- The characters of tags, besides those of names. -/
def isTagChar (c : Char) : Bool := isNameChar c || ";/?:@&=+$.%!~*'()".toList.contains c

/-- The characters of tags that are given in full, between angle brackets. -/
def isFullTagChar (c : Char) : Bool := isTagChar c || c == ',' || c == '[' || c == ']'

/-- A tag, or a part of one, as octets. -/
abbrev Tag := List UInt8

namespace Tag

/-- The octets of a text that holds no codes. -/
def ofString (s : String) : Tag := s.toUTF8.toList

/-- The tag of a node about whose type nothing is said. -/
def nonspecific : Tag := ofString "!"

/-- The full name of a standard tag. -/
def standard (name : String) : Tag := ofString ("tag:yaml.org,2002:" ++ name)

/-- How many octets follow the first one of a character. -/
def following? (octet : UInt8) : Option Nat :=
  if octet < 0x80 then some 0
  else if 0xC0 ≤ octet && octet < 0xE0 then some 1
  else if 0xE0 ≤ octet && octet < 0xF0 then some 2
  else if 0xF0 ≤ octet && octet < 0xF8 then some 3
  else none

/-- Whether an octet is one that follows the first one of a character. -/
def isFollowing (octet : UInt8) : Bool := 0x80 ≤ octet && octet < 0xC0

/-- The octets of a spelling. Of a character that was begun by a code, `pending` octets have yet to
be given by codes. -/
def decode? (pending : Nat) : List Char → Option Tag
  | [] => if pending = 0 then some [] else none
  | '%' :: a :: b :: rest => do
    let high ← Text.hexValue? a
    let low ← Text.hexValue? b
    let octet := UInt8.ofNat (high * 16 + low)
    let pending ← if pending = 0 then following? octet
      else if isFollowing octet then some (pending - 1) else none
    return octet :: (← decode? pending rest)
  | c :: rest =>
    if c = '%' ∨ pending ≠ 0 then none else (decode? 0 rest).map (c.toUInt8 :: ·)

/-- The octets of a spelling. -/
def ofSpelling? (s : List Char) : Option Tag := decode? 0 s

/-- The part of a tag that is kept. -/
def kept (t : Tag) : Tag := t.takeWhile (· != 0)

end Tag

end MethodFingerprint.Yaml
