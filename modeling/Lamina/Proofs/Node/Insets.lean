import Lamina.Proofs.Arguments.Lexed
import Lamina.Proofs.Node.Acceptance
import Lamina.Proofs.Token.ReadBack

/-! Script code in a text. An echo, a directive or a block of code is written between two marks; the
node it becomes has the text between them, and is on the line where the first one starts. -/

namespace Lamina

open Lamina.Text

/-- The marks that script code is written between, with the text inside: an echo loses the blanks
around its expression there and then. -/
inductive TokenKind.Encloses : TokenKind → List Char → List Char → List Char → Prop
  | block (code : List Char) :
      Encloses (.host (String.ofList code)) "<?lua".toList code "?>".toList
  | escaped (inner : List Char) :
      Encloses (.echo (String.ofList (trim inner)) true) "\x7b\x7b".toList inner "\x7d\x7d".toList
  | unescaped (inner : List Char) :
      Encloses (.echo (String.ofList (trim inner)) false) "\x7b!!".toList inner "!!\x7d".toList
  | directive {name : List Char} (ident : Scan.IsIdent name) (body : List Char) :
      Encloses (.directive (String.ofList name) (some (String.ofList body))) ('@' :: name ++ ['('])
        body [')']
  | bare {name : List Char} (ident : Scan.IsIdent name) :
      Encloses (.directive (String.ofList name) none) ('@' :: name) [] []

theorem TokenKind.Encloses.feeds_opening {kind : TokenKind} {opening inner closing : List Char}
    (h : kind.Encloses opening inner closing) : feeds opening = 0 := by
  have hfront {name : List Char} (hname : Scan.IsIdent name) : feeds ('@' :: name) = 0 :=
    (feeds_append ['@'] name).trans (congrArg (0 + ·) hname.feeds_eq_zero)
  cases h with
  | block | escaped | unescaped => decide
  | directive hname body => rw [feeds_append, hfront hname]; rfl
  | bare hname => exact hfront hname

/-- Script code where it stands in a text. -/
structure Inset (text : String) where
  kind : TokenKind
  before : List Char
  opening : List Char
  inner : List Char
  closing : List Char
  after : List Char
  encloses : kind.Encloses opening inner closing
  split : text.toList = before ++ (opening ++ (inner ++ (closing ++ after)))

def Inset.line {text : String} (inset : Inset text) : Nat := 1 + feeds inset.before

namespace Lexer

variable {before : Option Char} {s rest lexeme : List Char} {kind : TokenKind} {g : Grammar}

theorem dynamic_encloses {escapes : Bool} (hkind : Parser.isAttrConstruct kind = true)
    (h : dynamic escapes before s = .ok (some (.token kind g lexeme, rest))) :
    ∃ opening inner closing, kind.Encloses opening inner closing ∧
      lexeme = opening ++ (inner ++ closing) := by
  cases dynamic_found h with
  | host => exact ⟨_, _, _, .block _, List.append_assoc _ _ _⟩
  | unescaped => exact ⟨_, _, _, .unescaped _, List.append_assoc _ _ _⟩
  | escaped => exact ⟨_, _, _, .escaped _, List.append_assoc _ _ _⟩
  | bare _ ident => exact ⟨_, _, _, .bare (Scan.isIdent_of_ident? ident), (List.append_nil _).symm⟩
  | directive _ ident =>
    exact ⟨_, _, _, .directive (Scan.isIdent_of_ident? ident) _, by simp⟩
  | slot => cases hkind

end Lexer

namespace Token

theorem isMarkup_of_isAttrConstruct {kind : TokenKind} (h : Parser.isAttrConstruct kind = true) :
    kind.isMarkup = false := by
  cases kind with
  | echo | directive | host => rfl
  | _ => cases h

theorem encloses_of_lex {source file : String} {tokens : List Token}
    (h : lex .html source file = .ok tokens) {t : Token} (ht : t ∈ tokens)
    (hkind : Parser.isAttrConstruct t.kind = true) :
    ∃ opening inner closing, t.kind.Encloses opening inner closing ∧
      t.text.toList = opening ++ (inner ++ closing) := by
  obtain ⟨list, hlist, rfl⟩ := exists_of_lex h
  rcases segment_of_mem_ofSegments ht with hraw | ⟨g, lexeme, hmem, rfl⟩
  · rw [hraw] at hkind
    cases hkind
  · rcases Lexer.segments_known hlist _ hmem with hmarkup | ⟨escapes, before, s, rest, hdynamic⟩
    · have hplain := isMarkup_of_isAttrConstruct hkind
      have hmarkup := hmarkup.isMarkup
      rw [Segment.isMarkup, hplain] at hmarkup
      cases hmarkup
    · exact Lexer.dynamic_encloses hkind hdynamic

theorem exists_inset_of_lex {source file : String} {tokens : List Token}
    (h : lex .html source file = .ok tokens) {t : Token} (ht : t ∈ tokens)
    (hkind : Parser.isAttrConstruct t.kind = true) :
    ∃ inset : Inset source, inset.kind = t.kind ∧ t.StartsAfter inset.before := by
  obtain ⟨before, lexeme, rest, hsplit, hstarts, htext⟩ := exists_split_of_mem_lex h ht
  obtain ⟨opening, inner, closing, hencloses, hlexeme⟩ := encloses_of_lex h ht hkind
  have hraw : t.kind ≠ .raw := by
    intro hraw
    rw [hraw] at hkind
    cases hkind
  rw [← htext hraw, hlexeme, List.append_assoc, List.append_assoc] at hsplit
  exact ⟨⟨t.kind, before, opening, inner, closing, rest, hencloses, hsplit⟩, rfl, hstarts⟩

theorem mem_of_mem_withoutStrays {p : Phase} {tokens : List Token} {t : Token}
    (h : t ∈ withoutStrays p tokens) : t ∈ tokens := by
  induction tokens generalizing p with
  | nil => exact h
  | cons token rest ih =>
    rw [withoutStrays] at h
    split at h
    · exact .tail _ (ih h)
    · rcases List.mem_cons.mp h with rfl | h
      · exact .head _
      · exact .tail _ (ih h)

end Token

namespace Node

variable {file : String} {tokens : List Token}

def ReadFrom (file : String) (tokens : List Token) (n : Node) : Prop :=
  n.isAttrConstruct = true → ∃ t ∈ tokens, Parser.contentNode? file t = .ok (some n)

theorem readFrom_of_not_construct {n : Node} (h : n.isAttrConstruct = false) :
    ReadFrom file tokens n := by
  intro hn
  rw [h] at hn
  cases hn

theorem IsConstruct.readFrom {n : Node} (h : n.IsConstruct file)
    (hmarks : ∀ mark ∈ n.mark?, ∃ t ∈ tokens, t.mark = mark) :
    n.Everywhere (ReadFrom file tokens) := by
  have hhere : ReadFrom file tokens n := by
    intro _
    obtain ⟨mark, hmark⟩ := h.mark?
    obtain ⟨t, ht, rfl⟩ := hmarks mark hmark
    exact ⟨t, ht, Parser.contentNode?_eq_some_iff.mpr ⟨h, hmark⟩⟩
  refine everywhere_iff.mpr ⟨hhere, ?_, ?_⟩
  · cases n with
    | tag | fragment => cases h
    | _ => exact List.forall_mem_nil _
  · cases n with
    | block name children o =>
      rcases h with ⟨-, rfl | ⟨text, rfl⟩⟩
      · exact List.forall_mem_nil _
      · -- the text of a slot is the only node that is not a construct of its own
        refine List.forall_mem_singleton.mpr (everywhere_iff.mpr ⟨?_, ?_, ?_⟩)
        · exact readFrom_of_not_construct rfl
        · exact List.forall_mem_nil _
        · exact List.forall_mem_nil _
    | template | tag | stack | push | fragment => cases h
    | raw | echo | directive | host => exact List.forall_mem_nil _

theorem mem_marksAll {nodes : List Node} {n : Node} (hn : n ∈ nodes) {mark : Mark}
    (h : mark ∈ n.marks) : mark ∈ marksAll nodes := by
  obtain ⟨front, back, rfl⟩ := List.append_of_mem hn
  rw [marksAll_append, marksAll]
  exact List.mem_append_right _ (List.mem_append_left _ h)

theorem WrittenIn.readFrom {n : Node} (h : n.WrittenIn file)
    (hmarks : ∀ mark ∈ n.marks, ∃ t ∈ tokens, t.mark = mark) :
    n.Everywhere (ReadFrom file tokens) := by
  induction h with
  | construct hn =>
    refine hn.readFrom fun mark hmark => hmarks mark ?_
    rw [hn.marks]
    exact Option.mem_toList.mpr hmark
  | @element name attrs children closing o _ hattrs hsuits _ ih =>
    simp only [marks] at hmarks
    refine everywhere_iff.mpr
      ⟨readFrom_of_not_construct rfl, fun a ha c hc => ?_, fun c hc => ?_⟩
    · have hinner : ∀ mark ∈ a.marks, ∃ t ∈ tokens, t.mark = mark := fun mark hmark =>
        hmarks mark (.tail _ (List.mem_append_left _ (List.mem_flatMap.mpr ⟨a, ha, hmark⟩)))
      have hwritten := hattrs a ha
      obtain ⟨key, value, origin⟩ := a
      cases value with
      | bare | unquoted => cases hc
      | quoted quote nodes =>
        refine (hwritten.2 c hc).readFrom fun mark hmark => hinner mark ?_
        exact .tail _ (.tail _ (List.mem_append_left _ (List.mem_filterMap.mpr ⟨c, hc, hmark⟩)))
      | dynamic nodes =>
        obtain ⟨-, -, n, rfl, hn, -⟩ := hwritten
        cases List.mem_singleton.mp hc
        refine hn.readFrom fun mark hmark => hinner mark ?_
        exact List.mem_filterMap.mpr ⟨c, hc, hmark⟩
    · cases closing with
      | pair =>
        refine ih c hc fun mark hmark => hmarks mark ?_
        have hall := mem_marksAll hc hmark
        exact .tail _ (List.mem_append_right _ (.tail _ (List.mem_append_left _ hall)))
      | void =>
        obtain ⟨-, rfl⟩ := hsuits
        cases hc
      | selfClosing =>
        cases hsuits
        cases hc

theorem exists_tokens_of_parse {source : String} {root : Node} (h : parse source file = .ok root) :
    ∃ tokens nodes, Token.lex .html source file = .ok tokens ∧ root = rootOf file nodes ∧
      (∀ n ∈ nodes, n.WrittenIn file) ∧
      marksAll nodes = (Token.withoutStrays .content tokens).map Token.mark := by
  obtain ⟨tokens, nodes, hlex, hrun, rfl⟩ := exists_of_parse h
  have hstart : Parser.State.start.WrittenIn file :=
    ⟨List.forall_mem_nil _, List.forall_mem_nil _, trivial⟩
  obtain ⟨hwritten, hmarks⟩ := Parser.marks_of_run hstart hrun
  exact ⟨tokens, nodes, hlex, rfl, hwritten, hmarks⟩

theorem exists_token_of_mem_marksAll {nodes : List Node}
    (hmarks : marksAll nodes = (Token.withoutStrays .content tokens).map Token.mark) {n : Node}
    (hn : n ∈ nodes) {mark : Mark} (h : mark ∈ n.marks) : ∃ t ∈ tokens, t.mark = mark := by
  have hall : mark ∈ marksAll nodes := mem_marksAll hn h
  rw [hmarks] at hall
  obtain ⟨t, ht, rfl⟩ := List.mem_map.mp hall
  exact ⟨t, Token.mem_of_mem_withoutStrays ht, rfl⟩

theorem readFrom_of_parse {source : String} {root : Node} (h : parse source file = .ok root) :
    ∃ tokens, Token.lex .html source file = .ok tokens ∧
      root.Everywhere (ReadFrom file tokens) := by
  obtain ⟨tokens, nodes, hlex, rfl, hwritten, hmarks⟩ := exists_tokens_of_parse h
  refine ⟨tokens, hlex, everywhere_iff.mpr ?_⟩
  refine ⟨readFrom_of_not_construct rfl, List.forall_mem_nil _, fun c hc => ?_⟩
  exact (hwritten c hc).readFrom fun mark => exists_token_of_mem_marksAll hmarks hc

end Node

end Lamina
