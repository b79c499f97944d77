import Lamina.Proofs.Token.Phase

/-! Tokens tile their source. The stretches that tokens were read from, with the gaps between them,
are the whole source in order; a token knows where its stretch starts, and its text is the stretch
or, for literal text, what the stretch stands for. -/

namespace Lamina

open Lamina.Text

namespace Position

theorem advance_append (p : Position) (a b : List Char) :
    p.advance (a ++ b) = (p.advance a).advance b :=
  List.foldl_append

theorem offset_advance (p : Position) (s : List Char) :
    (p.advance s).offset = p.offset + (String.ofList s).utf8ByteSize := by
  induction s generalizing p with
  | nil => rfl
  | cons c s ih =>
    have hnext : (p.next c).offset = p.offset + c.utf8Size := by
      rw [next]
      split <;> rfl
    have hadvance : p.advance (c :: s) = (p.next c).advance s := rfl
    rw [hadvance, ih, hnext, String.ofList_cons, String.utf8ByteSize_append,
      String.utf8ByteSize_singleton]
    omega

theorem line_advance (p : Position) (s : List Char) : (p.advance s).line = p.line + feeds s := by
  induction s generalizing p with
  | nil => rfl
  | cons c s ih =>
    have hadvance : p.advance (c :: s) = (p.next c).advance s := rfl
    rw [hadvance, ih]
    by_cases hc : c = '\n'
    · simp [next, feeds, hc]
      omega
    · simp [next, feeds, hc]

end Position

/-- With `rest` behind it, literal text is read from its pieces. -/
inductive Reads (rest : List Char) : List Char → List Char → Prop
  | nil : Reads rest [] []
  | cons {a b s t : List Char} (piece : Piece (s ++ rest) a b) (more : Reads rest s t) :
      Reads rest (a ++ s) (b ++ t)

theorem Reads.snoc {rest s t a b : List Char} (h : Reads (a ++ rest) s t) (piece : Piece rest a b) :
    Reads rest (s ++ a) (t ++ b) := by
  induction h with
  | nil =>
    have hlast : Reads rest (a ++ []) (b ++ []) := .cons piece .nil
    simpa using hlast
  | cons first _ ih =>
    rw [← List.append_assoc] at first
    rw [List.append_assoc, List.append_assoc]
    exact .cons first ih

structure Token.StartsAfter (before : List Char) (t : Token) : Prop where
  offset : t.offset = (String.ofList before).utf8ByteSize
  line : t.line = 1 + feeds before

theorem Token.startsAfter {before : List Char} {t : Token} {here : Position}
    (hhere : here = Position.start.advance before) (ho : t.offset = here.offset)
    (hl : t.line = here.line) : t.StartsAfter before := by
  refine ⟨?_, ?_⟩
  · rw [ho, hhere, Position.offset_advance]
    exact Nat.zero_add _
  · rw [hl, hhere, Position.line_advance]
    rfl

/-- A stretch of a source, and the token read from it unless it is a gap. -/
structure Part where
  lexeme : List Char
  token? : Option Token

namespace Part

def source (parts : List Part) : List Char := parts.flatMap lexeme

def tokens (parts : List Part) : List Token := parts.filterMap token?

def after (p : Phase) (part : Part) : Phase := part.token?.elim p fun t => p.after t.kind

/-- The part is right where it stands, between `before` and `rest`. -/
def Right (before : List Char) (p : Phase) (rest : List Char) (part : Part) : Prop :=
  match part.token? with
  | none => Gap p part.lexeme
  | some t => t.StartsAfter before ∧ p.allows t.kind = true ∧
    if t.kind = .raw then Reads rest part.lexeme t.text.toList else t.text.toList = part.lexeme

/-- Where the tokens of the parts leave a reader who starts at `p`. -/
def phase (p : Phase) (parts : List Part) : Phase := parts.foldl after p

def Tile (before : List Char) (p : Phase) : List Part → Prop
  | [] => p = .content
  | part :: rest =>
    part.Right before p (source rest) ∧ Tile (before ++ part.lexeme) (part.after p) rest

theorem Tile.right {before : List Char} {p : Phase} {first last : List Part} {part : Part}
    (h : Tile before p (first ++ part :: last)) :
    part.Right (before ++ source first) (phase p first) (source last) := by
  induction first generalizing before p with
  | nil =>
    rw [source, List.flatMap_nil, List.append_nil]
    exact h.1
  | cons other first ih =>
    have hrest := ih h.2
    rw [List.append_assoc] at hrest
    exact hrest

end Part

namespace Token

def Pending (p : Phase) (rest : List Char) : Option (List Char × List Char) → Prop
  | none => True
  | some (lexeme, text) => p.allows .raw = true ∧ Reads rest lexeme text

def pendingLexeme (pending : Option (List Char × List Char)) : List Char := pending.elim [] Prod.fst

def pendingAt (before : List Char) (pending : Option (List Char × List Char)) :
    Option (Position × List Char) :=
  pending.map fun held => (Position.start.advance before, held.2)

variable {p : Phase} {pending : Option (List Char × List Char)}

theorem exists_tile_ofPending (before : List Char) (parts : List Part)
    (hp : Pending p (Part.source parts) pending)
    (ht : Part.Tile (before ++ pendingLexeme pending) p parts) :
    ∃ all, Part.source all = pendingLexeme pending ++ Part.source parts ∧
      Part.tokens all = ofPending (pendingAt before pending) ++ Part.tokens parts ∧
      Part.Tile before p all := by
  cases pending with
  | none => exact ⟨parts, rfl, rfl, by simpa [pendingLexeme] using ht⟩
  | some held =>
    obtain ⟨lexeme, text⟩ := held
    obtain ⟨hraw, hreads⟩ := hp
    let start := Position.start.advance before
    let token : Token := ⟨.raw, String.ofList text, start.offset, start.line, .html⟩
    have hright : Part.Right before p (Part.source parts) ⟨lexeme, some token⟩ := by
      refine ⟨startsAfter rfl rfl rfl, hraw, ?_⟩
      rw [if_pos rfl]
      simpa [token] using hreads
    have hafter : Part.after p ⟨lexeme, some token⟩ = p := p.after_raw hraw
    refine ⟨⟨lexeme, some token⟩ :: parts, rfl, rfl, hright, ?_⟩
    rw [hafter]
    exact ht

theorem exists_tile_cons {before : List Char} {part : Part} {list : List Segment}
    {more : List Token} (hp : Pending p (part.lexeme ++ Segment.source list) pending)
    (hright : part.Right (before ++ pendingLexeme pending) p (Segment.source list))
    (hmore : ∃ parts, Part.source parts = Segment.source list ∧ Part.tokens parts = more ∧
      Part.Tile (before ++ pendingLexeme pending ++ part.lexeme) (part.after p) parts) :
    ∃ all, Part.source all = pendingLexeme pending ++ (part.lexeme ++ Segment.source list) ∧
      Part.tokens all = ofPending (pendingAt before pending) ++ (part.token?.toList ++ more) ∧
      Part.Tile before p all := by
  obtain ⟨parts, hsource, htokens, htile⟩ := hmore
  have hall : Part.source (part :: parts) = part.lexeme ++ Segment.source list := by
    rw [← hsource]
    rfl
  have hcons : Part.tokens (part :: parts) = part.token?.toList ++ more := by
    rw [← htokens, Part.tokens, List.filterMap_cons]
    cases part.token? <;> rfl
  rw [← hall] at hp ⊢
  rw [← hsource] at hright
  rw [← hcons]
  exact exists_tile_ofPending before (part :: parts) hp ⟨hright, htile⟩

theorem exists_tile_ofSegments {list : List Segment} (hl : Segment.Leads [] .content p list)
    (before : List Char) (hp : Pending p (Segment.source list) pending) :
    ∃ parts, Part.source parts = pendingLexeme pending ++ Segment.source list ∧
      Part.tokens parts = ofSegments (Position.start.advance (before ++ pendingLexeme pending))
        (pendingAt before pending) list ∧
      Part.Tile before p parts := by
  induction list generalizing p pending before with
  | nil =>
    obtain ⟨all, hsource, htokens, htile⟩ := exists_tile_ofPending before [] hp hl
    exact ⟨all, hsource, htokens.trans (List.append_nil _), htile⟩
  | cons segment list ih =>
    obtain ⟨hright, hmore⟩ := hl
    rw [List.append_nil] at hright
    cases segment with
    | literal lexeme text =>
      obtain ⟨hraw, hpiece⟩ := hright
      -- literal text is added to what is pending, which started further left
      cases pending with
      | none =>
        have hlast : Pending p (Segment.source list) (some (lexeme, text)) := by
          refine ⟨hraw, ?_⟩
          simpa using Reads.snoc .nil hpiece
        obtain ⟨parts, hsource, htokens, htile⟩ := ih hmore before hlast
        refine ⟨parts, hsource, htokens.trans ?_, htile⟩
        simp [ofSegments, pendingLexeme, pendingAt, Position.advance_append]
      | some held =>
        have hlonger : Pending p (Segment.source list) (some (held.1 ++ lexeme, held.2 ++ text)) :=
          ⟨hraw, hp.2.snoc hpiece⟩
        obtain ⟨parts, hsource, htokens, htile⟩ := ih hmore before hlonger
        refine ⟨parts, ?_, htokens.trans ?_, htile⟩
        · rw [hsource]
          simp [pendingLexeme, Segment.source, Segment.lexeme]
        · simp [ofSegments, pendingLexeme, pendingAt, Position.advance_append]
    | token kind grammar lexeme =>
      obtain ⟨hkind, hallows⟩ := hright
      let here := Position.start.advance (before ++ pendingLexeme pending)
      let part : Part := ⟨lexeme, some ⟨kind, String.ofList lexeme, here.offset, here.line, grammar⟩⟩
      have hpart : part.Right (before ++ pendingLexeme pending) p (Segment.source list) := by
        refine ⟨startsAfter rfl rfl rfl, hallows, ?_⟩
        rw [if_neg hkind]
        exact String.toList_ofList
      have hnone : Pending (p.after kind) (Segment.source list) none := trivial
      obtain ⟨all, hsource, htokens, htile⟩ :=
        exists_tile_cons hp hpart (ih hmore (before ++ pendingLexeme pending ++ lexeme) hnone)
      refine ⟨all, hsource, htokens.trans ?_, htile⟩
      simp [ofSegments, part, here, pendingLexeme, pendingAt, Position.advance_append]
    | gap lexeme =>
      have hpart : Part.Right (before ++ pendingLexeme pending) p (Segment.source list)
        ⟨lexeme, none⟩ := hright
      have hnone : Pending p (Segment.source list) none := trivial
      obtain ⟨all, hsource, htokens, htile⟩ :=
        exists_tile_cons hp hpart (ih hmore (before ++ pendingLexeme pending ++ lexeme) hnone)
      refine ⟨all, hsource, htokens.trans ?_, htile⟩
      simp [ofSegments, pendingLexeme, pendingAt, Position.advance_append]

theorem segments_lead {grammar : Grammar} {source : String} {list : List Segment}
    (h : segments grammar source = .ok list) :
    source.toList = Segment.source list ∧ Segment.Leads [] .content .content list := by
  have htext : Mode.text.In .content := rfl
  cases grammar with
  | html | dynamic | inline => exact Lexer.segments_lead htext h
  | host =>
    cases h
    by_cases he : source.isEmpty = true
    · rw [if_pos he]
      rw [String.isEmpty_iff] at he
      exact ⟨by rw [he]; rfl, rfl⟩
    · rw [if_neg he]
      exact ⟨by simp [Segment.source, Segment.lexeme], ⟨nofun, rfl⟩, rfl⟩

theorem exists_tile_lex {grammar : Grammar} {source file : String} {tokens : List Token}
    (h : lex grammar source file = .ok tokens) :
    ∃ parts, Part.source parts = source.toList ∧ Part.tokens parts = tokens ∧
      Part.Tile [] .content parts := by
  obtain ⟨list, hlist, rfl⟩ := exists_of_lex h
  obtain ⟨hs, hl⟩ := segments_lead hlist
  have hnone : Pending .content (Segment.source list) none := trivial
  obtain ⟨parts, hsource, htokens, htile⟩ := exists_tile_ofSegments hl [] hnone
  exact ⟨parts, hsource.trans hs.symm, htokens, htile⟩

/-- A token is read from a stretch of its source, and its text is the stretch unless it is literal. -/
theorem exists_split_of_mem_lex {grammar : Grammar} {source file : String} {tokens : List Token}
    (h : lex grammar source file = .ok tokens) {t : Token} (ht : t ∈ tokens) :
    ∃ before lexeme rest, source.toList = before ++ (lexeme ++ rest) ∧ t.StartsAfter before ∧
      (t.kind ≠ .raw → t.text.toList = lexeme) := by
  obtain ⟨parts, hsource, rfl, htile⟩ := exists_tile_lex h
  obtain ⟨part, hpart, htoken⟩ := List.mem_filterMap.mp ht
  obtain ⟨first, last, rfl⟩ := List.append_of_mem hpart
  have hright := htile.right
  rw [Part.Right, htoken] at hright
  obtain ⟨hstarts, -, htext⟩ := hright
  refine ⟨Part.source first, part.lexeme, Part.source last, ?_, hstarts, fun hraw => ?_⟩
  · rw [← hsource, Part.source, List.flatMap_append]
    rfl
  · rwa [if_neg hraw] at htext

/-- Lexing loses nothing: the source is the stretches of its tokens, in order, and gaps between
them. A token starts where its stretch starts, by offset and by line. Its text is the stretch, or for
literal text what the pieces of the stretch contribute; and gaps are comments, or white space and
equals signs inside of tags. -/
theorem lex_is_lossless (grammar : Grammar) (source file : String) (tokens : List Token)
    (h : lex grammar source file = .ok tokens) :
    ∃ parts, source.toList = Part.source parts ∧ tokens = Part.tokens parts ∧
      ∀ first part last, parts = first ++ part :: last →
        part.Right (Part.source first) (Part.phase .content first) (Part.source last) := by
  obtain ⟨parts, hsource, htokens, htile⟩ := exists_tile_lex h
  refine ⟨parts, hsource.symm, htokens.symm, ?_⟩
  rintro first part last rfl
  exact htile.right

/-- An attribute with an escape in its value, an escaped echo and a comment. -/
def anchorSource : String := "<a b = 'é@@'>\n@\x7b\x7bx\x7b\x7b-- n --\x7d\x7d</a>"

def anchorTokens : List Token :=
  [⟨.tagOpen "a", "<a", 0, 1, .html⟩, ⟨.attrName "b", "b", 3, 1, .html⟩,
    ⟨.valueStart '\'', "'", 7, 1, .html⟩, ⟨.raw, "é@", 8, 1, .html⟩, ⟨.valueEnd, "'", 12, 1, .html⟩,
    ⟨.tagEnd, ">", 13, 1, .html⟩, ⟨.raw, "\n\x7b\x7bx", 14, 1, .html⟩,
    ⟨.tagClose "a", "</a>", 30, 2, .html⟩]

set_option maxRecDepth 100000 in
theorem lex_is_lossless_anchor : lex .html anchorSource "a.stm" = .ok anchorTokens ∧
    ∃ parts, anchorSource.toList = Part.source parts ∧ anchorTokens = Part.tokens parts ∧
      ∀ first part last, parts = first ++ part :: last →
        part.Right (Part.source first) (Part.phase .content first) (Part.source last) := by
  have h : lex .html anchorSource "a.stm" = .ok anchorTokens :=
    eq_ok_of_toOption (by decide +kernel)
  exact ⟨h, lex_is_lossless .html anchorSource "a.stm" anchorTokens h⟩

end Token

end Lamina
