/-! Byte strings. Scripts work on bytes; text is their usual content, in UTF-8. -/

namespace Lamina.Script.Bytes

def chars (b : ByteArray) : List Char := b.toList.map fun x => Char.ofNat x.toNat

def ofChars (s : List Char) : ByteArray := (s.map fun c => c.toNat.toUInt8).toByteArray

def less : List UInt8 → List UInt8 → Bool
  | _, [] => false
  | [], _ :: _ => true
  | a :: s, b :: t => a < b || (a == b && less s t)

def lt (a b : ByteArray) : Bool := less a.toList b.toList

/-- The bytes from one position to another, counted from one; negative positions count from the
end. -/
def slice (b : ByteArray) (first last : Int) : ByteArray :=
  let n : Int := b.size
  let first := if first < 0 then max (n + first + 1) 1 else max first 1
  let last := if last < 0 then n + last + 1 else min last n
  if first > last then .empty else b.extract (first - 1).toNat last.toNat

def join (separator : ByteArray) : List ByteArray → ByteArray
  | [] => .empty
  | b :: rest => rest.foldl (fun sofar b => sofar ++ separator ++ b) b

/-! ### Text -/

def isTail (b : UInt8) : Bool := 0x80 ≤ b && b ≤ 0xBF

/-- Whether a byte may follow the first byte of a character of three or four bytes. -/
def isSecond (first b : UInt8) : Bool :=
  if first == 0xE0 then 0xA0 ≤ b && b ≤ 0xBF
  else if first == 0xED then 0x80 ≤ b && b ≤ 0x9F
  else if first == 0xF0 then 0x90 ≤ b && b ≤ 0xBF
  else if first == 0xF4 then 0x80 ≤ b && b ≤ 0x8F
  else isTail b

/-- How many bytes the first character has, or how many bytes cannot start one; nothing if the
bytes end inside a character. -/
def first : List UInt8 → Option (Nat ⊕ Nat)
  | [] => none
  | a :: rest =>
    if a < 0x80 then some (.inl 1)
    else if a < 0xC2 || 0xF4 < a then some (.inr 1)
    else
      match rest with
      | [] => none
      | b :: rest =>
        if !isSecond a b then some (.inr 1)
        else if a < 0xE0 then some (.inl 2)
        else
          match rest with
          | [] => none
          | c :: rest =>
            if !isTail c then some (.inr 2)
            else if a < 0xF0 then some (.inl 3)
            else
              match rest with
              | [] => none
              | d :: _ => if isTail d then some (.inl 4) else some (.inr 3)

/-- Where bytes are no text, from an index on: there, and how many bytes are not. -/
def fault? : Nat → Nat → List UInt8 → Option (Nat × Option Nat)
  | 0, _, _ | _, _, [] => none
  | fuel + 1, i, s =>
    match first s with
    | some (.inl n) => fault? fuel (i + n) (s.drop n)
    | some (.inr n) => some (i, some n)
    | none => some (i, none)

def faultText (b : ByteArray) : String :=
  match fault? b.size 0 b.toList with
  | some (i, some n) => s!"invalid utf-8 sequence of {n} bytes from index {i}"
  | some (i, none) => s!"incomplete utf-8 byte sequence from index {i}"
  | none => ""

def lossy (b : ByteArray) : String :=
  match String.fromUTF8? b with
  | some s => s
  | none => String.join (pieces b.size b.toList)
where
  pieces : Nat → List UInt8 → List String
    | 0, _ | _, [] => []
    | fuel + 1, s =>
      match first s with
      | some (.inl n) =>
        (String.fromUTF8? (s.take n).toByteArray).getD "" :: pieces fuel (s.drop n)
      | some (.inr n) => "\uFFFD" :: pieces fuel (s.drop n)
      | none => ["\uFFFD"]

end Lamina.Script.Bytes
