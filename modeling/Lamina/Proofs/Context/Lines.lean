import Lamina.Builder
import Lamina.Proofs.Context.Substitution
import Lamina.Proofs.Token.Tiling

/-! Lines around values. What a value brings in moves the text behind it down by as many lines as it
has line feeds, and up by those of the fallback it displaces. Places are counted in the text with
the values, so they are places of the source only where these numbers agree. -/

namespace Lamina

open Lamina.Text

namespace Text

theorem eq_of_utf8ByteSize_eq {a b s t : List Char} (h : a ++ s = b ++ t)
    (hsize : (String.ofList a).utf8ByteSize = (String.ofList b).utf8ByteSize) : a = b := by
  induction a generalizing b with
  | nil =>
    have hempty : String.ofList b = "" := String.utf8ByteSize_eq_zero_iff.mp hsize.symm
    simpa using hempty
  | cons c a ih =>
    cases b with
    | nil =>
      have hempty : String.ofList (c :: a) = "" := String.utf8ByteSize_eq_zero_iff.mp hsize
      simp at hempty
    | cons d b =>
      obtain ⟨rfl, hrest⟩ := List.cons.inj h
      simp only [String.ofList_cons, String.utf8ByteSize_append] at hsize
      rw [ih hrest (Nat.add_left_cancel hsize)]

end Text

theorem Token.line_of_offset {grammar : Grammar} {source file : String} {tokens : List Token}
    (h : lex grammar source file = .ok tokens) {t : Token} (ht : t ∈ tokens)
    {before rest : List Char} (hsplit : source.toList = before ++ rest)
    (hoffset : t.offset = (String.ofList before).utf8ByteSize) : t.line = 1 + feeds before := by
  obtain ⟨front, lexeme, back, hsource, hstarts, -⟩ := exists_split_of_mem_lex h ht
  have hfront : front = before :=
    eq_of_utf8ByteSize_eq (hsource.symm.trans hsplit) (hstarts.offset.symm.trans hoffset)
  rw [hstarts.line, hfront]

namespace Placeholder

def Piece.inserted (context : Context) : Piece → List Char
  | char _ => []
  | value name _ => (context.get? (String.ofList name)).elim [] String.toList

def Piece.displaced (context : Context) : Piece → List Char
  | char _ => []
  | value name fallback => (context.get? (String.ofList name)).elim [] fun _ => fallback.getD []

variable {context : Context} {p : Piece} {list : List Piece} {s : List Char}

theorem IsName.feeds_eq_zero {name : List Char} (h : IsName name) : feeds name = 0 := by
  obtain ⟨c, rest, rfl, hc, hrest⟩ := h
  have hfirst : feeds [c] = 0 :=
    feeds_eq_zero_of_forall (p := isStart) (by decide) (List.forall_mem_singleton.mpr hc)
  have hinner : feeds rest = 0 := feeds_eq_zero_of_forall (by decide) hrest
  rw [← List.singleton_append, feeds_append, hfirst, hinner]

theorem feeds_lexeme {name : List Char} (h : IsName name) (fallback : Option (List Char)) :
    feeds (Piece.value name fallback).lexeme = feeds (fallback.getD []) := by
  have hname := h.feeds_eq_zero
  cases fallback with
  | none =>
    change feeds (['@', '{'] ++ name ++ ['}']) = 0
    rw [feeds_append, feeds_append, hname]
    rfl
  | some text =>
    have hlexeme : (Piece.value name (some text)).lexeme =
        ['@', '{'] ++ name ++ ['|'] ++ text ++ ['}'] := by simp [Piece.lexeme]
    rw [hlexeme, feeds_append, feeds_append, feeds_append, feeds_append, hname]
    exact Nat.zero_add _

theorem feeds_filling (h : p.IsPlaceholder ∨ ∃ c, p = .char c)
    (hp : (p.filling? context).isSome = true) :
    feeds (p.filling context) + feeds (p.displaced context) =
      feeds p.lexeme + feeds (p.inserted context) := by
  rcases h with h | ⟨c, rfl⟩
  · cases p with
    | char c => exact h.elim
    | value name fallback =>
      rw [feeds_lexeme h.1]
      rw [Piece.filling?] at hp
      rw [Piece.filling, Piece.filling?, Piece.displaced, Piece.inserted]
      cases hvalue : context.get? (String.ofList name) with
      | some text => exact Nat.add_comm _ _
      | none => rfl
  · rfl

theorem Scanned.piece (h : Scanned s list) : ∀ p ∈ list, p.IsPlaceholder ∨ ∃ c, p = .char c := by
  induction h with
  | done => exact List.forall_mem_nil _
  | found hp _ ih => exact List.forall_mem_cons.mpr ⟨.inl hp, ih⟩
  | passed _ _ ih => exact List.forall_mem_cons.mpr ⟨.inr ⟨_, rfl⟩, ih⟩

theorem feeds_flatMap_filling (h : ∀ p ∈ list, p.IsPlaceholder ∨ ∃ c, p = .char c)
    (hfilled : ∀ p ∈ list, (p.filling? context).isSome = true) :
    feeds (list.flatMap (Piece.filling context)) + feeds (list.flatMap (Piece.displaced context)) =
      feeds (list.flatMap Piece.lexeme) + feeds (list.flatMap (Piece.inserted context)) := by
  induction list with
  | nil => rfl
  | cons p list ih =>
    rw [List.forall_mem_cons] at h hfilled
    have hfirst := feeds_filling h.1 hfilled.1
    have hrest := ih h.2 hfilled.2
    simp only [List.flatMap_cons, feeds_append]
    omega

end Placeholder

namespace Processor

open Placeholder

/-- A character outside of the placeholders stays, in order, but not on its line. It comes as many
lines lower as the values in front of it have line feeds, and as many higher as the fallbacks have
that these displace; and the line of a token that starts there is the line in the source just where
the two numbers agree. -/
theorem context_moves_lines (view : View) (context : Context) (source text : String)
    (h : Processor.context.run view context source = .ok text) :
    ∃ list, Scanned source.toList list ∧ ∀ front c back, list = front ++ .char c :: back →
      source.toList = front.flatMap Piece.lexeme ++ c :: back.flatMap Piece.lexeme ∧
        text.toList = front.flatMap (Piece.filling context) ++
          c :: back.flatMap (Piece.filling context) ∧
        feeds (front.flatMap (Piece.filling context)) +
            feeds (front.flatMap (Piece.displaced context)) =
          feeds (front.flatMap Piece.lexeme) + feeds (front.flatMap (Piece.inserted context)) ∧
        ∀ grammar file tokens, Token.lex grammar text file = .ok tokens → ∀ t ∈ tokens,
          t.offset = (String.ofList (front.flatMap (Piece.filling context))).utf8ByteSize →
          (t.line = 1 + feeds (front.flatMap Piece.lexeme) ↔
            feeds (front.flatMap (Piece.inserted context)) =
              feeds (front.flatMap (Piece.displaced context))) := by
  obtain ⟨hfilled, rfl⟩ := context_eq_ok_iff.mp h
  have hscanned := scanned_pieces source.toList
  refine ⟨_, hscanned, fun front c back hlist => ?_⟩
  have hsource := hscanned.flatMap_lexeme
  have hpieces := hscanned.piece
  rw [hlist] at hsource hpieces hfilled ⊢
  rw [List.flatMap_append] at hsource
  have hfeeds := feeds_flatMap_filling (List.forall_mem_append.mp hpieces).1
    (List.forall_mem_append.mp hfilled).1
  have htext : (front ++ .char c :: back).flatMap (Piece.filling context) =
      front.flatMap (Piece.filling context) ++ c :: back.flatMap (Piece.filling context) := by
    rw [List.flatMap_append]
    rfl
  refine ⟨hsource.symm, by rw [String.toList_ofList, htext], hfeeds, ?_⟩
  intro grammar file tokens hlex t ht hoffset
  have hline := Token.line_of_offset hlex ht (String.toList_ofList.trans htext) hoffset
  omega

/-- A value of two lines, and one in place of a fallback of two lines. -/
def twoLines : Context := .ofPairs [("v", "x\ny"), ("w", "z")]

def twoLinesSource : String := "@\x7bv\x7d@\x7bw|\n\x7d\n\x7b\x7b a \x7d\x7d"

set_option maxRecDepth 100000 in
theorem context_moves_lines_two :
    Processor.context.run ⟨"a.stm", .parse "a" ".stm"⟩ twoLines twoLinesSource =
        .ok "x\nyz\n\x7b\x7b a \x7d\x7d" ∧
      ∃ list, Scanned twoLinesSource.toList list ∧ ∀ front c back, list = front ++ .char c :: back →
        feeds (front.flatMap (Piece.filling twoLines)) +
            feeds (front.flatMap (Piece.displaced twoLines)) =
          feeds (front.flatMap Piece.lexeme) + feeds (front.flatMap (Piece.inserted twoLines)) := by
  have h : Processor.context.run ⟨"a.stm", .parse "a" ".stm"⟩ twoLines twoLinesSource =
      .ok "x\nyz\n\x7b\x7b a \x7d\x7d" := eq_ok_of_toOption (by decide +kernel)
  obtain ⟨list, hlist, hmoves⟩ := context_moves_lines _ _ _ _ h
  exact ⟨h, list, hlist, fun front c back hsplit => (hmoves front c back hsplit).2.2.1⟩

/-- An echo on the second line, behind a value. -/
def echoBehindValue : Templates := [("default:page", "@\x7bv\x7d\n\x7b\x7b a \x7d\x7d")]

set_option maxRecDepth 100000 in
/-- The echo is mapped to the third line, since the value has two. -/
theorem echo_behind_value_is_moved :
    ((Builder.default echoBehindValue.loader).compile twoLines "page").1.toOption.map
        (fun chunk => (chunk.content, chunk.sourceMap.find? 2)) =
      some ("__write(\"x\\ny\\n\")\n__write(__escape(a))\n",
        some (.of "default/page.stm" 3 .dynamic "\x7b\x7b")) := by
  decide +kernel

end Processor

end Lamina
