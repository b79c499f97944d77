import Lamina.Proofs.Except
import Lamina.Proofs.Text
import Lamina.Token.Lexer
import Mathlib.Data.List.Infix

/-! Tokens spell the source. In a source of markup alone, what the tokens stand for is the source
again, white space and the case of letters apart: no step of the lexer drops, doubles or moves
anything else. -/

namespace Lamina

open Lamina.Text

namespace Text

def essence (s : List Char) : List Char := (s.map Char.toLower).filter (!isBlank ·)

@[simp]
theorem essence_nil : essence [] = [] := rfl

@[simp]
theorem essence_append (a b : List Char) : essence (a ++ b) = essence a ++ essence b := by
  simp [essence]

@[simp]
theorem essence_cons (c : Char) (s : List Char) :
    essence (c :: s) = (if isBlank c.toLower then [] else [c.toLower]) ++ essence s := by
  by_cases h : isBlank c.toLower = true <;> simp [essence, h]

@[simp]
theorem isBlank_space : isBlank ' ' = true := rfl

theorem toLower_of_blank {c : Char} (h : isBlank c = true) : c.toLower = c := by
  have hlow : ¬ (c.val ≥ 'A'.val ∧ c.val ≤ 'Z'.val) := by
    rintro ⟨hge, hle⟩
    have hge : 65 ≤ c.toNat := hge
    have hle : c.toNat ≤ 90 := hle
    simp only [isBlank, Bool.or_eq_true, Bool.and_eq_true, decide_eq_true_eq, beq_iff_eq] at h
    omega
  exact dif_neg hlow

theorem essence_of_blank {s : List Char} (h : ∀ c ∈ s, isBlank c = true) : essence s = [] := by
  induction s with
  | nil => rfl
  | cons c s ih =>
    obtain ⟨hc, hs⟩ := List.forall_mem_cons.mp h
    have := ih hs
    simp_all [essence, toLower_of_blank hc]

theorem essence_of_sameName {a b : String} (h : sameName a b = true) :
    essence a.toList = essence b.toList := by
  have hmap : a.toList.map Char.toLower = b.toList.map Char.toLower := by simpa [sameName] using h
  rw [essence, essence, hmap]

/-- Text in which no construct other than markup can start. -/
structure Static (s : List Char) : Prop where
  noAt : '@' ∉ s
  noBrace : '{' ∉ s
  noDollar : '$' ∉ s
  noCode : ¬ "<?lua".toList <:+: s

theorem Static.of_suffix {s t : List Char} (h : Static s) (ht : t <:+ s) : Static t where
  noAt hc := h.noAt (ht.subset hc)
  noBrace hc := h.noBrace (ht.subset hc)
  noDollar hc := h.noDollar (ht.subset hc)
  noCode hc := h.noCode (hc.trans ht.isInfix)

theorem isPrefixOf?_eq_none {p s : List Char} {c : Char} (hp : c ∈ p) (hs : c ∉ s) :
    p.isPrefixOf? s = none := by
  cases h : p.isPrefixOf? s with
  | none => rfl
  | some rest =>
    have happ := isPrefixOf?_eq_some.mp h
    exact absurd (happ ▸ List.mem_append_left _ hp) hs

end Text

def TokenKind.spelling (quote : Option Char) (text : List Char) : TokenKind → List Char
  | raw => text
  | tagOpen name => '<' :: name.toList
  | attrName name => name.toList
  | valueStart quote => ['=', quote]
  | valueEnd => quote.toList
  | unquoted value => '=' :: value.toList
  | tagEnd => ['>']
  | selfClose => ['/', '>']
  | tagClose name => "</".toList ++ name.toList ++ ['>']
  | echo .. | directive .. | slot .. | host .. => []

def TokenKind.quoteAfter (quote : Option Char) : TokenKind → Option Char
  | valueStart quote => some quote
  | valueEnd => none
  | _ => quote

def TokenKind.isMarkup : TokenKind → Bool
  | echo .. | directive .. | slot .. | host .. => false
  | _ => true

namespace Segment

def spelling (quote : Option Char) : Segment → List Char
  | token kind _ lexeme => kind.spelling quote lexeme
  | literal _ text => text
  | gap _ => []

def quoteAfter (quote : Option Char) : Segment → Option Char
  | token kind _ _ => kind.quoteAfter quote
  | literal _ _ | gap _ => quote

def isMarkup : Segment → Bool
  | token kind _ _ => kind.isMarkup
  | literal _ _ | gap _ => true

/-- The characters that segments stand for, from left to right. -/
def spelled (quote : Option Char) : List Segment → List Char
  | [] => []
  | segment :: rest => segment.spelling quote ++ spelled (segment.quoteAfter quote) rest

theorem spelled_append (quote : Option Char) (a b : List Segment) :
    spelled quote (a ++ b) = spelled quote a ++ spelled (a.foldl quoteAfter quote) b := by
  induction a generalizing quote with
  | nil => rfl
  | cons segment a ih => rw [List.cons_append, spelled, spelled, ih, List.append_assoc, List.foldl_cons]

end Segment

def Mode.quote? : Mode → Option Char
  | .value _ _ quote _ => some quote
  | .text | .tag .. | .rawText _ => none

namespace Lexer

variable {here : Position} {before : Option Char} {s : List Char} {name : String}
  {start : Position}

theorem dynamic_of_static (h : Static s) (escapes : Bool) :
    dynamic escapes before s = .ok none := by
  have hhost : "<?lua".toList.isPrefixOf? s = none := by
    cases hd : "<?lua".toList.isPrefixOf? s with
    | none => rfl
    | some rest =>
      have hs := isPrefixOf?_eq_some.mp hd
      exact absurd (hs ▸ (List.prefix_append _ rest).isInfix) h.noCode
  have hnote : "\x7b\x7b--".toList.isPrefixOf? s = none :=
    isPrefixOf?_eq_none (by decide) h.noBrace
  have hraw : "\x7b!!".toList.isPrefixOf? s = none := isPrefixOf?_eq_none (by decide) h.noBrace
  have hecho : "\x7b\x7b".toList.isPrefixOf? s = none := isPrefixOf?_eq_none (by decide) h.noBrace
  have hat : "@@".toList.isPrefixOf? s = none := isPrefixOf?_eq_none (by decide) h.noAt
  have hatecho : "@\x7b\x7b".toList.isPrefixOf? s = none := isPrefixOf?_eq_none (by decide) h.noAt
  have hdirective : ['@'].isPrefixOf? s = none := isPrefixOf?_eq_none (by decide) h.noAt
  have hslot : "$\x7b".toList.isPrefixOf? s = none := isPrefixOf?_eq_none (by decide) h.noDollar
  simp only [dynamic, orTry, host, hhost, note, hnote, echo, hraw, hecho, escapedText, hat, hatecho,
    ite_self, directive, hdirective, slot, hslot]

/-- The segments of a step spell what it has taken, and the mode after it knows the open quote. -/
structure Step.Spells (quote : Option Char) (r : Step) : Prop where
  essence : essence (Segment.source r.segments) = essence (Segment.spelled quote r.segments)
  quote : r.segments.foldl Segment.quoteAfter quote = r.mode.quote?
  markup : ∀ segment ∈ r.segments, segment.isMarkup = true

theorem rawStep_spells (special : Char → Bool) (mode : Mode) (s : List Char) :
    (rawStep special mode s).Spells mode.quote? := by
  cases s with
  | nil => exact ⟨rfl, rfl, by simp [rawStep, rawRun, Segment.verbatim, Segment.isMarkup]⟩
  | cons c s =>
    refine ⟨?_, rfl, by simp [rawStep, rawRun, Segment.verbatim, Segment.isMarkup]⟩
    simp [rawStep, rawRun, Segment.source, Segment.spelled, Segment.verbatim, Segment.lexeme,
      Segment.spelling]

theorem Step.Spells.cons {quote : Option Char} {segment : Segment} {r : Step}
    (h : r.Spells (segment.quoteAfter quote))
    (hs : Text.essence segment.lexeme = Text.essence (segment.spelling quote))
    (hm : segment.isMarkup = true) :
    Step.Spells quote { r with segments := segment :: r.segments } where
  essence := by
    have := h.essence
    simp_all [Segment.source, Segment.spelled]
  quote := h.quote
  markup := List.forall_mem_cons.mpr ⟨hm, h.markup⟩

def Step.EndsInTag (r : Step) : Prop := r.rest = [] ∧ ∃ name start, r.mode = .tag name start

theorem Equals.essence (h : Equals s) : Text.essence s = Text.essence ['='] := by
  obtain ⟨a, b, rfl, ha, hb⟩ := h
  simp [essence_of_blank ha, essence_of_blank hb]

theorem Valued.spells {r : Step} (h : Valued name start here s r) :
    r.Spells none ∨ r.EndsInTag := by
  cases h with
  | absent => exact .inl ⟨rfl, rfl, List.forall_mem_nil _⟩
  | ended => exact .inr ⟨rfl, name, start, rfl⟩
  | quoted _ equals | unquoted _ equals =>
    refine .inl ⟨?_, rfl, by simp [Segment.isMarkup, TokenKind.isMarkup]⟩
    simp [Segment.source, Segment.spelled, Segment.lexeme, Segment.spelling, TokenKind.spelling,
      equals.essence]

theorem InTag.spells {r : Step} (hs : Static s) (h : InTag name start here before s r) :
    r.Spells none ∨ r.EndsInTag := by
  cases h with
  | selfClose => exact .inl ⟨rfl, rfl, by simp [Segment.isMarkup, TokenKind.isMarkup]⟩
  | tagEnd =>
    refine .inl ⟨rfl, ?_, by simp [Segment.isMarkup, TokenKind.isMarkup]⟩
    dsimp only
    split <;> rfl
  | construct _ found => cases (dynamic_of_static hs false).symm.trans found
  | attr _ _ _ _ valued =>
    refine valued.spells.imp (fun hvalue => ?_) id
    refine Step.Spells.cons hvalue ?_ rfl
    simp [Segment.lexeme, Segment.spelling, TokenKind.spelling]

theorem Takes.spells {mode : Mode} {r : Step} (hs : Static s) (h : Takes here before s mode r) :
    r.Spells mode.quote? ∨ r.EndsInTag := by
  induction h with
  | construct _ found => cases (dynamic_of_static hs true).symm.trans found
  | run => exact .inl (rawStep_spells _ _ s)
  | comment =>
    refine .inl ⟨?_, rfl, by simp [Segment.verbatim, Segment.isMarkup]⟩
    simp [Segment.source, Segment.spelled, Segment.verbatim, Segment.lexeme, Segment.spelling]
  | tagClose _ blanks =>
    -- the blanks in front of the closing bracket are all that is missing
    refine .inl ⟨?_, rfl, by simp [Segment.isMarkup, TokenKind.isMarkup]⟩
    simp [Segment.source, Segment.spelled, Segment.lexeme, Segment.spelling, TokenKind.spelling,
      essence_of_blank blanks]
  | tagOpen =>
    refine .inl ⟨?_, rfl, by simp [Segment.isMarkup, TokenKind.isMarkup]⟩
    simp [Segment.source, Segment.spelled, Segment.lexeme, Segment.spelling, TokenKind.spelling]
  | closesRaw _ _ ih => exact ih
  | @blank name start => exact .inr ⟨rfl, name, start, rfl⟩
  | inTag split blanks inTag =>
    refine (inTag.spells (hs.of_suffix ⟨_, split.symm⟩)).imp (fun hinner => ?_) id
    exact Step.Spells.cons hinner (essence_of_blank blanks) rfl
  | valueEnd => exact .inl ⟨rfl, rfl, by simp [Segment.isMarkup, TokenKind.isMarkup]⟩

theorem segments_spelled (hs : Static s) {mode : Mode} {list : List Segment}
    (h : segments true mode here before s = .ok list) :
    essence s = essence (Segment.spelled mode.quote? list) ∧
      ∀ segment ∈ list, segment.isMarkup = true := by
  fun_induction segments true mode here before s generalizing list with
  | case1 mode here before =>
    obtain ⟨_, -, rfl⟩ := map_eq_ok.mp h
    exact ⟨rfl, List.forall_mem_nil _⟩
  | case2 => cases h
  | case3 mode here before s hne r hstep _ taken ih =>
    obtain ⟨rest, hrest, rfl⟩ := map_eq_ok.mp h
    have hcover := (step_covers hne hstep).1
    rcases (step_takes hstep).spells hs with hspells | ⟨hend, name, start, hmode⟩
    · have hsuffix : r.rest <:+ s := hcover ▸ List.suffix_append _ _
      obtain ⟨hessence, hmarkup⟩ := ih (hs.of_suffix hsuffix) hrest
      refine ⟨?_, List.forall_mem_append.mpr ⟨hspells.markup, hmarkup⟩⟩
      rw [Segment.spelled_append, hspells.quote, essence_append, ← hessence, ← hspells.essence,
        ← essence_append, ← hcover]
    · rw [hend, hmode, segments, dif_pos rfl] at hrest
      cases hrest

end Lexer

namespace Token

/-- The characters that tokens stand for, from left to right. -/
def spelled (quote : Option Char) : List Token → List Char
  | [] => []
  | token :: rest =>
    token.kind.spelling quote token.text.toList ++ spelled (token.kind.quoteAfter quote) rest

theorem spelled_ofPending (quote : Option Char) (pending : Option (Position × List Char))
    (tokens : List Token) : spelled quote (ofPending pending ++ tokens) =
      pending.elim [] Prod.snd ++ spelled quote tokens := by
  cases pending with
  | none => rfl
  | some start => exact congrArg (· ++ spelled quote tokens) String.toList_ofList

theorem spelled_ofSegments (quote : Option Char) (here : Position)
    (pending : Option (Position × List Char)) (list : List Segment) :
    spelled quote (ofSegments here pending list) =
      (pending.elim [] Prod.snd) ++ Segment.spelled quote list := by
  induction list generalizing quote here pending with
  | nil =>
    have h := spelled_ofPending quote pending []
    rw [List.append_nil] at h
    exact h
  | cons segment rest ih =>
    cases segment with
    | literal lexeme text =>
      rw [ofSegments, ih]
      cases pending with
      | none => rfl
      | some start => exact List.append_assoc ..
    | token kind grammar lexeme =>
      rw [ofSegments, spelled_ofPending, spelled, ih, String.toList_ofList]
      rfl
    | gap lexeme =>
      rw [ofSegments, spelled_ofPending, ih]
      rfl

theorem segment_of_mem_ofSegments {here : Position} {pending : Option (Position × List Char)}
    {list : List Segment} {t : Token} (h : t ∈ ofSegments here pending list) :
    t.kind = .raw ∨ ∃ g lexeme, .token t.kind g lexeme ∈ list ∧ t.text.toList = lexeme := by
  have hpending {pending : Option (Position × List Char)} (h : t ∈ ofPending pending) :
      t.kind = .raw := by
    cases pending with
    | none => cases h
    | some =>
      cases List.mem_singleton.mp h
      rfl
  have hlater {segment : Segment} {rest : List Segment}
      (h : t.kind = .raw ∨ ∃ g lexeme, .token t.kind g lexeme ∈ rest ∧ t.text.toList = lexeme) :
      t.kind = .raw ∨
        ∃ g lexeme, .token t.kind g lexeme ∈ segment :: rest ∧ t.text.toList = lexeme :=
    h.imp_right fun ⟨g, lexeme, hmem, htext⟩ => ⟨g, lexeme, .tail _ hmem, htext⟩
  induction list generalizing here pending with
  | nil => exact .inl (hpending h)
  | cons segment rest ih =>
    cases segment with
    | literal lexeme text => exact hlater (ih h)
    | token kind g lexeme =>
      rcases List.mem_append.mp h with h | h
      · exact .inl (hpending h)
      · rcases List.mem_cons.mp h with rfl | h
        · exact .inr ⟨g, lexeme, .head _, String.toList_ofList⟩
        · exact hlater (ih h)
    | gap lexeme =>
      rcases List.mem_append.mp h with h | h
      · exact .inl (hpending h)
      · exact hlater (ih h)

theorem kind_of_mem_ofSegments {f : TokenKind → Bool} (hraw : f .raw = true) {here : Position}
    {pending : Option (Position × List Char)} {list : List Segment}
    (h : ∀ kind grammar lexeme, Segment.token kind grammar lexeme ∈ list → f kind = true) :
    ∀ token ∈ ofSegments here pending list, f token.kind = true := by
  intro token ht
  rcases segment_of_mem_ofSegments ht with hkind | ⟨g, lexeme, hmem, -⟩
  · rw [hkind]
    exact hraw
  · exact h token.kind g lexeme hmem

theorem lex_spelled {source file : String} (hs : Static source.toList) {tokens : List Token}
    (h : lex .html source file = .ok tokens) :
    essence source.toList = essence (spelled none tokens) ∧
      ∀ token ∈ tokens, token.kind.isMarkup = true := by
  obtain ⟨list, hlist, rfl⟩ := exists_of_lex h
  obtain ⟨hessence, hmarkup⟩ := Lexer.segments_spelled hs hlist
  refine ⟨?_, kind_of_mem_ofSegments rfl fun _ _ _ hmem => hmarkup _ hmem⟩
  rw [spelled_ofSegments]
  exact hessence

end Token

end Lamina
