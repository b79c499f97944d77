import Lamina.Proofs.Node.Insets
import Lamina.Proofs.Pass.Code
import Lamina.Proofs.Token.Attributes

/-! Attributes with literal text, from the tree to the source and back. An attribute that is written
out in an element is parsed as itself exactly if its name does not start like a directive and nothing
starts in its text. -/

namespace Lamina

open Lamina.Text

def TokenKind.Spelled : TokenKind → Prop
  | tagOpen name => ∀ c ∈ name.toList, Scan.isTagChar c = true
  | attrName key => Lexer.IsAttrName key.toList
  | valueStart quote => Scan.isQuote quote = true
  | _ => True

def Mark.Spelled : Mark → Prop
  | literal .. => True
  | sited kind _ _ | sign kind => kind.Spelled

def Mark.size : Mark → Nat
  | literal text _ _ => text.toList.length
  | sited kind _ _ | sign kind => kind.size

def Mark.sizes : List Mark → Nat
  | [] => 0
  | mark :: rest => mark.size + sizes rest

theorem Mark.sizes_append (a b : List Mark) : sizes (a ++ b) = sizes a + sizes b := by
  induction a with
  | nil => exact (Nat.zero_add _).symm
  | cons mark a ih => rw [List.cons_append, sizes, sizes, ih, Nat.add_assoc]

namespace Lexer

variable {kind : TokenKind} {g : Grammar} {lexeme : List Char}

theorem Known.spelled (h : Known (.token kind g lexeme)) : kind ≠ .raw ∧ kind.Spelled := by
  rcases h with h | ⟨escapes, before, s, rest, h⟩
  · cases h with
    | tagOpen chars =>
      refine ⟨by simp, ?_⟩
      rw [TokenKind.Spelled, String.toList_ofList]
      exact chars
    | attrName isName =>
      refine ⟨by simp, ?_⟩
      rw [TokenKind.Spelled, String.toList_ofList]
      exact isName
    | valueStart isQuote => exact ⟨by simp, isQuote⟩
    | valueEnd | unquoted | tagEnd | selfClose | tagClose => exact ⟨by simp, trivial⟩
  · cases dynamic_found h with
    | host | unescaped | escaped | bare | directive | slot => exact ⟨by simp, trivial⟩

end Lexer

namespace Token

variable {t : Token}

theorem spelled_mark (h : t.kind.Spelled) : t.mark.Spelled := by
  cases hk : t.kind <;> simp_all [mark, Mark.closing, Mark.Spelled, TokenKind.Spelled]

theorem size_mark (h : t.kind ≠ .raw) : t.mark.size = t.kind.size := by
  cases hk : t.kind <;> simp_all [mark, Mark.closing, Mark.size, TokenKind.size]

theorem spelled_of_lex {source file : String} {tokens : List Token}
    (h : lex .html source file = .ok tokens) : ∀ t ∈ tokens, t.mark.Spelled := by
  intro t ht
  obtain ⟨list, hlist, rfl⟩ := exists_of_lex h
  refine spelled_mark ?_
  rcases segment_of_mem_ofSegments ht with hraw | ⟨g, lexeme, hmem, -⟩
  · rw [hraw]
    trivial
  · exact (Lexer.segments_known hlist _ hmem).spelled.2

theorem sizes_ofPending (pending : Option (Position × List Char)) :
    Mark.sizes ((ofPending pending).map mark) = pending.elim 0 fun p => p.2.length := by
  cases pending with
  | none => rfl
  | some p => simp [ofPending, Mark.sizes, mark, Mark.size]

theorem sizes_ofSegments {list : List Segment} (h : ∀ segment ∈ list, Lexer.Known segment)
    (here : Position) (pending : Option (Position × List Char)) :
    Mark.sizes ((ofSegments here pending list).map mark) =
      (pending.elim 0 fun p => p.2.length) + Segment.sizes list := by
  induction list generalizing here pending with
  | nil => exact sizes_ofPending pending
  | cons segment rest ih =>
    obtain ⟨hsegment, hrest⟩ := List.forall_mem_cons.mp h
    cases segment with
    | literal lexeme text =>
      have hnext := ih hrest (here.advance lexeme)
        (some ((pending.getD (here, [])).1, (pending.getD (here, [])).2 ++ text))
      have hsizes : Segment.sizes (.literal lexeme text :: rest) =
          text.length + Segment.sizes rest := by simp [Segment.sizes, Segment.size]
      refine hnext.trans ?_
      cases pending with
      | none => simp [hsizes]
      | some p =>
        simp [hsizes]
        omega
    | token kind g lexeme =>
      have hkind := hsegment.spelled.1
      have hsizes : Segment.sizes (.token kind g lexeme :: rest) =
          kind.size + Segment.sizes rest := by simp [Segment.sizes, Segment.size]
      rw [ofSegments, List.map_append, List.map_cons, Mark.sizes_append, Mark.sizes,
        sizes_ofPending, size_mark hkind, ih hrest, hsizes]
      simp
    | gap lexeme =>
      have hsizes : Segment.sizes (.gap lexeme :: rest) = Segment.sizes rest := by
        simp [Segment.sizes, Segment.size]
      rw [ofSegments, List.map_append, Mark.sizes_append, sizes_ofPending, ih hrest, hsizes]
      simp

theorem sizes_withoutStrays (p : Phase) (tokens : List Token) :
    Mark.sizes ((withoutStrays p tokens).map mark) ≤ Mark.sizes (tokens.map mark) := by
  induction tokens generalizing p with
  | nil => exact Nat.le_refl _
  | cons token rest ih =>
    rw [withoutStrays, List.map_cons, Mark.sizes]
    split
    · have := ih p
      omega
    · have := ih (p.after token.kind)
      rw [List.map_cons, Mark.sizes]
      omega

end Token

theorem Token.ofSegments_front (element key : String) (quote : Char) (rest : List Segment) :
    ∃ a b c here : Position, ofSegments .start none
      (Lexer.frontSegments element.toList key.toList quote ++ rest) =
        ⟨.tagOpen element, String.ofList ('<' :: element.toList), a.offset, a.line, .html⟩ ::
          ⟨.attrName key, String.ofList key.toList, b.offset, b.line, .html⟩ ::
            ⟨.valueStart quote, String.ofList [quote], c.offset, c.line, .html⟩ ::
              ofSegments here none rest := by
  let first := Position.start.advance ('<' :: element.toList)
  let second := (first.advance [' ']).advance key.toList
  refine ⟨.start, first.advance [' '], second.advance ['='],
    (second.advance ['=']).advance [quote], ?_⟩
  have helement : TokenKind.tagOpen element = .tagOpen (String.ofList element.toList) := by
    rw [String.ofList_toList]
  have hkey : TokenKind.attrName key = .attrName (String.ofList key.toList) := by
    rw [String.ofList_toList]
  rw [helement, hkey]
  rfl

namespace Segment

theorem Literally.ofSegments_token {list : List Segment} {text : List Char}
    (h : Literally list text) (here : Position) (kind : TokenKind) (g : Grammar)
    (lexeme : List Char) (rest : List Segment) : ∃ (raws : List Token) (there : Position),
      Token.ofSegments here none (list ++ .token kind g lexeme :: rest) =
        raws ++ ⟨kind, String.ofList lexeme, there.offset, there.line, g⟩ ::
          Token.ofSegments (there.advance lexeme) none rest ∧
      (raws = [] ∧ text = [] ∨
        ∃ offset line, raws = [⟨.raw, String.ofList text, offset, line, .html⟩]) := by
  have hpending {list : List Segment} {text : List Char} (h : Literally list text)
      (here start : Position) (sofar : List Char) : ∃ there : Position,
      Token.ofSegments here (some (start, sofar)) (list ++ .token kind g lexeme :: rest) =
        ⟨.raw, String.ofList (sofar ++ text), start.offset, start.line, .html⟩ ::
          ⟨kind, String.ofList lexeme, there.offset, there.line, g⟩ ::
            Token.ofSegments (there.advance lexeme) none rest := by
    induction h generalizing here sofar with
    | nil =>
      rw [List.append_nil]
      exact ⟨here, rfl⟩
    | cons first piece _ ih =>
      obtain ⟨there, hrest⟩ := ih (here.advance first) (sofar ++ piece)
      rw [List.append_assoc] at hrest
      exact ⟨there, hrest⟩
  cases h with
  | nil => exact ⟨[], here, rfl, .inl ⟨rfl, rfl⟩⟩
  | cons first piece more =>
    obtain ⟨there, hrest⟩ := hpending more (here.advance first) here piece
    exact ⟨[⟨.raw, String.ofList (piece ++ _), here.offset, here.line, .html⟩], there, hrest,
      .inr ⟨_, _, rfl⟩⟩

end Segment

namespace Node

mutual

def literal? : Node → Option (List Char)
  | raw text _ => some text.toList
  | block _ children _ => literalAll? children
  | _ => none

def literalAll? : List Node → Option (List Char)
  | [] => some []
  | n :: rest => do
    let first ← literal? n
    let more ← literalAll? rest
    return first ++ more

end

theorem literalAll?_cons_eq_some {n : Node} {rest : List Node} {text : List Char}
    (h : literalAll? (n :: rest) = some text) :
    ∃ a b, n.literal? = some a ∧ literalAll? rest = some b ∧ text = a ++ b := by
  obtain ⟨a, ha, h⟩ := Option.bind_eq_some_iff.mp h
  obtain ⟨b, hb, h⟩ := Option.bind_eq_some_iff.mp h
  exact ⟨a, b, ha, hb, (Option.some.inj h).symm⟩

theorem IsConstruct.size_mark? {file : String} {n : Node} (hn : n.IsConstruct file)
    {text : List Char} (h : n.literal? = some text) :
    Mark.sizes n.mark?.toList = text.length := by
  cases n with
  | raw =>
    cases h
    exact Nat.add_zero _
  | block name children o =>
    rcases hn with ⟨-, rfl | ⟨content, rfl⟩⟩
    · cases h
      rfl
    · have htext : some (content.toList ++ []) = some text := h
      rw [List.append_nil] at htext
      cases htext
      exact Nat.add_zero _
  | template | tag | stack | push | fragment => cases hn
  | echo | directive | host => cases h

theorem sizes_marks_of_literal {file : String} {nodes : List Node} {text : List Char}
    (hn : ∀ n ∈ nodes, n.IsConstruct file) (h : literalAll? nodes = some text) :
    Mark.sizes (nodes.filterMap mark?) = text.length := by
  induction nodes generalizing text with
  | nil =>
    cases h
    rfl
  | cons n nodes ih =>
    obtain ⟨hfirst, hrest⟩ := List.forall_mem_cons.mp hn
    obtain ⟨a, b, ha, hb, rfl⟩ := literalAll?_cons_eq_some h
    have hmarks : (n :: nodes).filterMap mark? = n.mark?.toList ++ nodes.filterMap mark? := by
      cases hm : n.mark? <;> simp [hm]
    rw [hmarks, Mark.sizes_append, hfirst.size_mark? ha, ih hrest hb, List.length_append]

/-- The source is one element with one attribute, which has this name and this literal text. -/
def ReadsAs (source file element key : String) (text : List Char) : Prop :=
  ∃ quote nodes o site, parse source file =
    .ok (rootOf file [.tag element [⟨key, .quoted quote nodes, o⟩] [] .selfClosing site]) ∧
      literalAll? nodes = some text

section ReadsAs

open Lexer

variable {file element key : String} {quote : Char} {text : List Char}

theorem readsAs_of_free (he : IsElement element.toList) (hk : IsAttrName key.toList)
    (hd : ¬ StartsDirective key.toList) (hq : Scan.isQuote quote = true) (ht : quote ∉ text)
    (hfree : Free quote text) (file : String) :
    ReadsAs (String.ofList (written element.toList key.toList quote text)) file element key
      text := by
  obtain ⟨list, hlist, hsegments⟩ := segments_written he hk hd hq ht hfree
  have hlex : Token.lex .html (String.ofList (written element.toList key.toList quote text)) file =
      .ok (Token.ofSegments .start none
        (frontSegments element.toList key.toList quote ++ (list ++ backSegments quote))) := by
    rw [Token.lex, Token.segments, String.toList_ofList, hsegments]
  obtain ⟨a, b, c, here, hfront⟩ :=
    Token.ofSegments_front element key quote (list ++ backSegments quote)
  obtain ⟨raws, there, hback, hraws⟩ := hlist.ofSegments_token here .valueEnd .html [quote]
    [.gap [], .token .selfClose .html "/>".toList]
  rw [hfront, backSegments, hback] at hlex
  rw [ReadsAs, parse, hlex]
  rcases hraws with ⟨rfl, rfl⟩ | ⟨offset, line, rfl⟩
  · exact ⟨quote, [], _, _, rfl, rfl⟩
  · refine ⟨quote, [.raw (String.ofList text) _], _, _, rfl, ?_⟩
    show some ((String.ofList text).toList ++ []) = some text
    rw [String.toList_ofList, List.append_nil]

theorem WrittenIn.sizes_marks {nodes : List Node} {o site : Origin}
    (hn : (tag element [⟨key, .quoted quote nodes, o⟩] [] .selfClosing site).WrittenIn file)
    (h : literalAll? nodes = some text) :
    Mark.sizes (marksAll [tag element [⟨key, .quoted quote nodes, o⟩] [] .selfClosing site]) =
      element.toList.length + key.toList.length + text.length + 5 := by
  cases hn with
  | construct single => cases single
  | element _ tagged _ _ =>
    have hnodes : ∀ n ∈ nodes, n.IsConstruct file := (tagged _ List.mem_cons_self).2
    have hinner := sizes_marks_of_literal hnodes h
    simp only [marksAll, marks, Attr.marks, List.flatMap_cons, List.flatMap_nil, List.append_nil,
      List.cons_append, List.append_assoc, Mark.sizes, Mark.sizes_append, hinner]
    simp only [Mark.here, Mark.size, TokenKind.size, Closing.ending]
    omega

/-- An element with one attribute accounts for all of the source it was read from but two
characters, the blank and the equals sign. -/
theorem sizes_of_readsAs {source : String} (h : ReadsAs source file element key text) :
    ∃ list, segments true .text .start none source.toList = .ok list ∧
      element.toList.length + key.toList.length + text.length + 5 ≤ Segment.sizes list := by
  obtain ⟨quote, nodes, o, site, hparse, htext⟩ := h
  obtain ⟨tokens, roots, hlex, hroot, hwritten, hmarks⟩ := exists_tokens_of_parse hparse
  cases hroot
  obtain ⟨list, hlist, rfl⟩ := Token.exists_of_lex hlex
  refine ⟨list, hlist, ?_⟩
  have htree := (hwritten _ List.mem_cons_self).sizes_marks htext
  have hstrays := Token.sizes_withoutStrays .content (Token.ofSegments .start none list)
  have htokens := Token.sizes_ofSegments (segments_known hlist) .start none
  rw [← hmarks, htree, htokens] at hstrays
  simpa using hstrays

/-- The attribute is read back exactly if its name is not taken for a directive and its text holds
nothing that is taken for anything but text. -/
theorem readsAs_iff (he : IsElement element.toList) (hk : IsAttrName key.toList)
    (hq : Scan.isQuote quote = true) (ht : quote ∉ text) (file : String) :
    ReadsAs (String.ofList (written element.toList key.toList quote text)) file element key text ↔
      ¬ StartsDirective key.toList ∧ Free quote text := by
  constructor
  · intro h
    obtain ⟨list, hlist, hread⟩ := sizes_of_readsAs h
    rw [String.toList_ofList] at hlist
    have hlength := length_written element.toList key.toList quote text
    by_contra hnot
    have hsizes := sizes_written he hk hq ht (not_and_or.mp hnot |>.imp_left not_not.mp) hlist
    omega
  · rintro ⟨hd, hfree⟩
    exact readsAs_of_free he hk hd hq ht hfree file

end ReadsAs

end Node

namespace Scan

theorem toNat_of_isTagChar {c : Char} (h : isTagChar c = true) :
    33 ≤ c.toNat ∧ c.toNat ≤ 122 := by
  have halnum : c.isAlphanum = (decide (65 ≤ c.val ∧ c.val ≤ 90) || decide (97 ≤ c.val) &&
      decide (c.val ≤ 122) || decide (48 ≤ c.val) && decide (c.val ≤ 57)) := rfl
  have hval : c.toNat = c.val.toNat := rfl
  rw [hval]
  simp only [isTagChar, halnum, Bool.or_eq_true, Bool.and_eq_true, decide_eq_true_eq, beq_iff_eq,
    UInt32.le_iff_toNat_le, UInt32.reduceToNat] at h
  rcases h with (((h | rfl) | rfl) | rfl) | rfl
  · omega
  all_goals decide

theorem isNameEnd_of_isTagChar {c : Char} (h : isTagChar c = true) : Lexer.isNameEnd c = false := by
  have hblank : isBlank c = false := by
    obtain ⟨hlow, hhigh⟩ := toNat_of_isTagChar h
    simp only [isBlank, Bool.or_eq_false_iff, Bool.and_eq_false_iff, decide_eq_false_iff_not,
      beq_eq_false_iff_ne]
    omega
  have hne {d : Char} (hd : isTagChar d = false) : c ≠ d := by
    rintro rfl
    rw [h] at hd
    cases hd
  simp only [Lexer.isNameEnd, hblank, Bool.false_or, Bool.or_eq_false_iff, beq_eq_false_iff_ne]
  exact ⟨⟨⟨⟨hne (by decide), hne (by decide)⟩, hne (by decide)⟩, hne (by decide)⟩, hne (by decide)⟩

end Scan

theorem Lexer.isAttrName_of_isTagChar {s : List Char} (hne : s ≠ [])
    (h : ∀ c ∈ s, Scan.isTagChar c = true) : IsAttrName s := by
  have hbrace : '{' ∉ s := fun hm => by cases h '{' hm
  exact ⟨hne, fun c hc => Scan.isNameEnd_of_isTagChar (h c hc),
    fun hp => hbrace (hp.subset (by decide)), fun hp => hbrace (hp.subset (by decide))⟩

/-- Elements and quoted attributes are named as the lexer reads names. -/
def Trait.spelled : Trait where
  node := Node.Named fun name => ∀ c ∈ name.toList, Scan.isTagChar c = true
  attr a := ∀ quote nodes, a.value = .quoted quote nodes →
    Scan.isQuote quote = true ∧ Lexer.IsAttrName a.name.toList
  parts {n} _ _ h := by cases n <;> exact h
  value {a} nodes h := by
    obtain ⟨name, value, o⟩ := a
    intro quote inner hv
    cases value with
    | bare | unquoted | dynamic => cases hv
    | quoted quote' old =>
      cases hv
      exact h quote old rfl
  text _ _ := trivial
  content _ _ := trivial
  asAttr {name attrs children closing o key} hname hkey hne quote nodes hv := by
    cases hv
    obtain ⟨rest, hrest, rfl⟩ := Option.map_eq_some_iff.mp hkey
    have hsplit := isPrefixOf?_eq_some.mp hrest
    refine ⟨by decide, Lexer.isAttrName_of_isTagChar (by simpa using hne) fun c hc => ?_⟩
    rw [String.toList_ofList] at hc
    exact hname c (hsplit ▸ List.mem_append_right _ hc)

theorem Trait.spelled_ofCode : Trait.spelled.OfCode := by
  intro n hn
  cases n with
  | tag | echo | directive | host => cases hn
  | _ => trivial

namespace Node

variable {file : String}

theorem IsConstruct.spelled {n : Node} (h : n.IsConstruct file) : n.Has .spelled := by
  cases n with
  | block name children o =>
    rcases h with ⟨-, rfl | ⟨text, rfl⟩⟩
    · exact has_iff.mpr ⟨trivial, List.forall_mem_nil _, List.forall_mem_nil _⟩
    · refine has_iff.mpr ⟨trivial, List.forall_mem_nil _, ?_⟩
      exact List.forall_mem_singleton.mpr (has_of_leaf rfl trivial)
  | template | tag | stack | push | fragment => cases h
  | raw | echo | directive | host => exact has_of_leaf rfl trivial

theorem WrittenIn.spelled {n : Node} (h : n.WrittenIn file)
    (hmarks : ∀ mark ∈ n.marks, mark.Spelled) : n.Has .spelled := by
  induction h with
  | construct hn => exact hn.spelled
  | @element name attrs children closing o _ hattrs hsuits _ ih =>
    simp only [marks, List.forall_mem_cons, List.forall_mem_append] at hmarks
    obtain ⟨hname, hown, -, hbelow⟩ := hmarks
    refine has_iff.mpr ⟨hname, fun a ha => ?_, fun c hc => ?_⟩
    · have hwritten := hattrs a ha
      have hmine : ∀ mark ∈ a.marks, mark.Spelled := fun mark hmark =>
        hown mark (List.mem_flatMap.mpr ⟨a, ha, hmark⟩)
      obtain ⟨key, value, origin⟩ := a
      refine ⟨fun quote nodes hv => ?_, fun c hc => ?_⟩
      · cases hv
        exact ⟨hmine _ (.tail _ (.head _)), hmine _ (.head _)⟩
      · cases value with
        | bare | unquoted => cases hc
        | quoted quote nodes => exact (hwritten.2 c hc).spelled
        | dynamic nodes =>
          obtain ⟨-, -, n, rfl, hn, -⟩ := hwritten
          cases List.mem_singleton.mp hc
          exact hn.spelled
    · cases closing with
      | pair =>
        refine ih c hc fun mark hmark => hbelow mark ?_
        exact List.mem_append_left _ (mem_marksAll hc hmark)
      | void =>
        obtain ⟨-, rfl⟩ := hsuits
        cases hc
      | selfClosing =>
        cases hsuits
        cases hc

theorem spelled_of_parse {source : String} {root : Node} (h : parse source file = .ok root) :
    root.Has .spelled := by
  obtain ⟨tokens, nodes, hlex, rfl, hwritten, hmarks⟩ := exists_tokens_of_parse h
  refine has_iff.mpr ⟨trivial, List.forall_mem_nil _, fun c hc => ?_⟩
  refine (hwritten c hc).spelled fun mark hmark => ?_
  obtain ⟨t, ht, rfl⟩ := exists_token_of_mem_marksAll hmarks hc hmark
  exact Token.spelled_of_lex hlex t ht

end Node

end Lamina
