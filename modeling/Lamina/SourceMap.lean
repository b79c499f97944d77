import Lamina.Origin
import Lamina.Table
import Lamina.Text.Digit
import Lamina.Text.Search

/-! Source maps: which template line a line of a chunk comes from. Mentions of chunk lines in a
message can be located and put into template terms. -/

namespace Lamina

open Lamina.Text

/-- The files a chunk was made from, and the origins of its lines. -/
structure SourceMap where
  paths : List String
  lines : Table Nat Origin
  deriving DecidableEq, Repr

namespace SourceMap

def empty : SourceMap := ⟨[], {}⟩

def record (m : SourceMap) (line : Nat) (origin : Origin) : SourceMap :=
  { m with lines := m.lines.set line origin }

def find? (m : SourceMap) (line : Nat) : Option Origin :=
  (m.lines.entries.findRev? (·.1 ≤ line)).map Prod.snd

def framesUntil (root : String) : List Site → List Frame
  | [] => []
  | site :: via =>
    ⟨site.path, site.line, site.label⟩ ::
      if site.path = root then [] else framesUntil root via

/-- The places that lead to `line` of the chunk of the template `root`, the innermost first. -/
def frames (m : SourceMap) (line : Nat) (root : String) : List Frame :=
  match m.find? line with
  | none => []
  | some origin => framesUntil root origin.sites

def shift (m : SourceMap) (n : Nat) : SourceMap :=
  { m with lines :=
    { entries := m.lines.map fun (line, origin) => (line + n, origin)
      sorted := m.lines.sorted.map _ fun _ _ h => Nat.add_lt_add_right h n } }

/-- A piece of a message: one character, or the mention of a chunk line. -/
inductive Piece
  | char (c : Char)
  | mention (digits : List Char)
  deriving DecidableEq, Repr

/-- The digits of the mention that `s` starts with, and what follows it. -/
def mention? (chunk s : List Char) : Option (List Char × List Char) :=
  match (chunk ++ [':']).isPrefixOf? s with
  | none => none
  | some after =>
    let digits := after.takeWhile isDecimalDigit
    match after.dropWhile isDecimalDigit with
    | ':' :: rest => if digits.isEmpty then none else some (digits, rest)
    | _ => none

/-- `s` starts with a mention of a line of the chunk and goes on with `rest`. The digits may be those
of any script. -/
def Mentions (chunk s digits rest : List Char) : Prop :=
  s = chunk ++ ':' :: digits ++ ':' :: rest ∧ digits ≠ [] ∧ ∀ c ∈ digits, isDecimalDigit c = true

theorem mention?_eq_some_iff {chunk s digits rest : List Char} :
    mention? chunk s = some (digits, rest) ↔ Mentions chunk s digits rest := by
  constructor
  · intro h
    unfold mention? at h
    split at h
    · cases h
    · next after ha =>
      have ha := isPrefixOf?_eq_some.1 ha
      have ht := List.takeWhile_append_dropWhile (p := isDecimalDigit) (l := after)
      simp only at h
      split at h
      · next r hr =>
        split at h
        · cases h
        · next hd =>
          cases h
          rw [hr] at ht
          refine ⟨?_, by simpa using hd, List.all_eq_true.mp List.all_takeWhile⟩
          simpa [ha] using ht.symm
      · cases h
  · rintro ⟨rfl, hne, hd⟩
    have hprefix : (chunk ++ [':']).isPrefixOf? (chunk ++ ':' :: digits ++ ':' :: rest) =
        some (digits ++ ':' :: rest) := isPrefixOf?_eq_some.2 (by simp)
    have hcolon : isDecimalDigit ':' = false := by decide
    rw [mention?, hprefix]
    simp [List.takeWhile_append_of_pos hd, List.dropWhile_append_of_pos hd, hcolon, hne]

theorem mention?_length {chunk s digits rest : List Char}
    (h : mention? chunk s = some (digits, rest)) : rest.length < s.length := by
  have := congrArg List.length (mention?_eq_some_iff.1 h).1
  simp only [List.length_append, List.length_cons] at this
  omega

def pieces (chunk s : List Char) : List Piece :=
  match s with
  | [] => []
  | c :: rest =>
    match h : mention? chunk (c :: rest) with
    | some (digits, after) =>
      have : after.length < (c :: rest).length := mention?_length h
      .mention digits :: pieces chunk after
    | none => .char c :: pieces chunk rest
termination_by s.length
decreasing_by
  · assumption
  · exact Nat.lt_succ_self _

/-- The line a mention names; numbers that do not fit 64 bits name none. -/
def lineOf? (digits : List Char) : Option Nat := (decimal? digits).filter (· < UInt64.size)

def resolve? (m : SourceMap) (digits : List Char) : Option (Nat × Origin) := do
  let line ← lineOf? digits
  let origin ← m.find? line
  return (line, origin)

def translate (m : SourceMap) (message chunk : String) : String :=
  let text : Piece → List Char
    | .char c => [c]
    | .mention digits =>
      match m.resolve? digits with
      | some (_, origin) => s!"{origin.path}:{origin.line}:".toList
      | none => chunk.toList ++ ':' :: digits ++ [':']
  String.ofList ((pieces chunk.toList message.toList).flatMap text)

def locate? (m : SourceMap) (message chunk : String) : Option Nat :=
  (pieces chunk.toList message.toList).findSome? fun
    | .char _ => none
    | .mention digits => (m.resolve? digits).map Prod.fst

end SourceMap

end Lamina
