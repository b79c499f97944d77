/-! White space as Unicode's White_Space property has it, and trimming by it. -/

namespace Lamina.Text

def isBlank (c : Char) : Bool :=
  let n := c.toNat
  (9 ≤ n && n ≤ 13) || n == 0x20 || n == 0x85 || n == 0xA0 || n == 0x1680 ||
    (0x2000 ≤ n && n ≤ 0x200A) || n == 0x2028 || n == 0x2029 || n == 0x202F ||
    n == 0x205F || n == 0x3000

def trimStart (s : List Char) : List Char := s.dropWhile isBlank

def trimEnd (s : List Char) : List Char := (s.reverse.dropWhile isBlank).reverse

def trim (s : List Char) : List Char := trimEnd (trimStart s)

def allBlank (s : List Char) : Bool := s.all isBlank

def onChars (f : List Char → List Char) (s : String) : String := String.ofList (f s.toList)

def sameName (a b : String) : Bool := a.toList.map Char.toLower == b.toList.map Char.toLower

end Lamina.Text
