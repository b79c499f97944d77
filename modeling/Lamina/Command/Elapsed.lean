/-! How long something took, in words: two digits behind the point and the largest unit that is not
above the time. -/

namespace Lamina

def elapsedText (nanos : Nat) : String :=
  let (unit, name) :=
    if nanos < 1000 then (1, "ns")
    else if nanos < 1000000 then (1000, "µs")
    else if nanos < 1000000000 then (1000000, "ms")
    else (1000000000, "s")
  let hundredths := (nanos * 100 + unit / 2) / unit
  let digits := toString (hundredths % 100)
  let digits := if digits.length < 2 then "0" ++ digits else digits
  toString (hundredths / 100) ++ "." ++ digits ++ name

end Lamina
