/-!
# White space

The characters with the Unicode property White_Space, and trimming by it.
-/

namespace GraphQL
namespace Text

/-- The Unicode property White_Space. -/
def isWhiteSpace (c : Char) : Bool :=
  let code := c.toNat
  (0x09 ≤ code && code ≤ 0x0d) || code == 0x20 || code == 0x85 || code == 0xa0 || code == 0x1680
    || (0x2000 ≤ code && code ≤ 0x200a) || code == 0x2028 || code == 0x2029 || code == 0x202f
    || code == 0x205f || code == 0x3000

def trimStart (chars : List Char) : List Char :=
  chars.dropWhile isWhiteSpace

def trimEnd (chars : List Char) : List Char :=
  (chars.reverse.dropWhile isWhiteSpace).reverse

def trim (chars : List Char) : List Char :=
  trimEnd (trimStart chars)

/-- Nothing but white space. -/
def isBlank (chars : List Char) : Bool :=
  chars.all isWhiteSpace

end Text
end GraphQL
