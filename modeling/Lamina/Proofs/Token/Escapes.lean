import Lamina.Proofs.Text
import Lamina.Token.Lexer
import Mathlib.Data.List.Infix

/-! Text can be written so that it is read as it is. The two escapes are enough for at-signs and for
the braces of echoes, whatever stands around them; markup, unescaped echoes and slots have none. -/

namespace Lamina

open Lamina.Text

namespace Text

/-- The text as it is written to stand for itself: an at-sign twice, and one before two braces. -/
def withEscapes : List Char → List Char
  | [] => []
  | '@' :: s => '@' :: '@' :: withEscapes s
  | '{' :: '{' :: s => '@' :: '{' :: '{' :: withEscapes s
  | c :: s => c :: withEscapes s

structure Escapable (s : List Char) : Prop where
  noMarkup : '<' ∉ s
  noUnescaped : ¬ "\x7b!!".toList <:+: s
  noSlot : ¬ "$\x7b".toList <:+: s

theorem Escapable.of_suffix {s t : List Char} (h : Escapable s) (ht : t <:+ s) : Escapable t where
  noMarkup hc := h.noMarkup (ht.subset hc)
  noUnescaped hc := h.noUnescaped (hc.trans ht.isInfix)
  noSlot hc := h.noSlot (hc.trans ht.isInfix)

theorem withEscapes_cons {c : Char} {s : List Char} (hat : c ≠ '@')
    (hbraces : ¬ "\x7b\x7b".toList <+: c :: s) : withEscapes (c :: s) = c :: withEscapes s := by
  rw [withEscapes]
  · exact hat
  · rintro s' rfl rfl
    exact hbraces ⟨s', rfl⟩

theorem withEscapes_ne_nil {s : List Char} (h : s ≠ []) : withEscapes s ≠ [] := by
  fun_cases withEscapes s with
  | case1 => exact absurd rfl h
  | case2 | case3 | case4 => exact List.cons_ne_nil _ _

theorem prefix_of_prefix_withEscapes {p s : List Char} (hp : '@' ∉ p) (h : p <+: withEscapes s) :
    p <+: s := by
  fun_induction withEscapes s generalizing p with
  | case1 => exact h
  | case2 s | case3 s =>
    cases p with
    | nil => exact List.nil_prefix
    | cons d p =>
      obtain ⟨rfl, -⟩ := List.cons_prefix_cons.mp h
      exact absurd List.mem_cons_self hp
  | case4 c s _ _ ih =>
    cases p with
    | nil => exact List.nil_prefix
    | cons d p =>
      obtain ⟨rfl, hrest⟩ := List.cons_prefix_cons.mp h
      exact List.cons_prefix_cons.mpr ⟨rfl, ih (List.not_mem_of_not_mem_cons hp) hrest⟩

end Text

namespace Lexer

variable {here : Position} {before : Option Char} {s : List Char}

theorem takeWhile_withEscapes (s : List Char) :
    (withEscapes s).takeWhile (!textSpecial ·) = s.takeWhile (!textSpecial ·) ∧
      (withEscapes s).dropWhile (!textSpecial ·) = withEscapes (s.dropWhile (!textSpecial ·)) := by
  fun_induction withEscapes s with
  | case1 => exact ⟨rfl, rfl⟩
  | case2 s => simp [textSpecial, withEscapes]
  | case3 s => simp [textSpecial, withEscapes]
  | case4 c s hat hbraces ih =>
    by_cases hc : textSpecial c = true
    · simp [hc, withEscapes]
    · simp [hc, ih]

/-- No construct starts here. -/
structure Plain (s : List Char) : Prop where
  noMarkup : ¬ ['<'] <+: s
  noAt : ¬ ['@'] <+: s
  noEcho : ¬ "\x7b\x7b".toList <+: s
  noUnescaped : ¬ "\x7b!!".toList <+: s
  noSlot : ¬ "$\x7b".toList <+: s

theorem dynamic_of_plain (h : Plain s) : dynamic true before s = .ok none := by
  have hnone {p q : List Char} (hp : p <+: q) (hs : ¬ p <+: s) : q.isPrefixOf? s = none :=
    isPrefixOf?_eq_none_iff.mpr fun hq => hs (hp.trans hq)
  have hhost := hnone (q := "<?lua".toList) (by decide) h.noMarkup
  have hnote := hnone (q := "\x7b\x7b--".toList) (by decide) h.noEcho
  have hraw := hnone List.prefix_rfl h.noUnescaped
  have hecho := hnone List.prefix_rfl h.noEcho
  have hat := hnone (q := "@@".toList) (by decide) h.noAt
  have hbraces := hnone (q := "@\x7b\x7b".toList) (by decide) h.noAt
  have hdirective := hnone List.prefix_rfl h.noAt
  have hslot := hnone List.prefix_rfl h.noSlot
  simp only [dynamic, orTry, host, hhost, note, hnote, echo, hraw, hecho, escapedText, hat, hbraces,
    ite_self, directive, hdirective, slot, hslot]

theorem markup_of_plain (h : Plain s) : markup here s = .ok none := by
  have hnot {q : List Char} (hq : ['<'] <+: q) : ¬ q <+: s :=
    fun hs => h.noMarkup (hq.trans hs)
  have hcomment := hnot (q := "<!--".toList) (by decide)
  have hclosing := isPrefixOf?_eq_none_iff.mpr (hnot (q := "</".toList) (by decide))
  unfold markup
  simp only [List.isPrefixOf_iff_prefix, hcomment, hclosing, if_false]
  split
  · exact absurd ⟨_, rfl⟩ h.noMarkup
  · rfl

theorem step_of_plain (h : Plain s) :
    step true .text here before s = .ok (rawStep textSpecial .text s) := by
  simp only [step, textStep, dynamic_of_plain h, if_true, markup_of_plain h]
  rfl

theorem segments_of_step {html : Bool} {mode : Mode} {r : Step} (hs : s ≠ [])
    (h : step html mode here before s = .ok r) :
    segments html mode here before s =
      (segments html r.mode (here.advance (Segment.source r.segments))
        (Segment.source r.segments).getLast? r.rest).map (r.segments ++ ·) := by
  rw [segments_eq hs, h]
  rfl

end Lexer

namespace Segment

inductive Literally : List Segment → List Char → Prop
  | nil : Literally [] []
  | cons {list : List Segment} {text : List Char} (lexeme first : List Char)
      (more : Literally list text) : Literally (.literal lexeme first :: list) (first ++ text)

variable {list : List Segment} {text : List Char}

theorem Literally.ofSegments_some (h : Literally list text) (here start : Position)
    (sofar : List Char) : Token.ofSegments here (some (start, sofar)) list =
      [⟨.raw, String.ofList (sofar ++ text), start.offset, start.line, .html⟩] := by
  induction h generalizing here sofar with
  | nil => simp [Token.ofSegments, Token.ofPending]
  | cons lexeme first _ ih =>
    have hrest := ih (here.advance lexeme) (sofar ++ first)
    rw [List.append_assoc] at hrest
    exact hrest

theorem Literally.ofSegments_none (h : Literally list text) (ht : text ≠ []) (here : Position) :
    Token.ofSegments here none list =
      [⟨.raw, String.ofList text, here.offset, here.line, .html⟩] := by
  cases h with
  | nil => exact absurd rfl ht
  | cons lexeme first more => exact more.ofSegments_some (here.advance lexeme) here first

end Segment

namespace Lexer

theorem plain_withEscapes {c : Char} (h : Escapable (c :: s)) (hat : c ≠ '@')
    (hbraces : ¬ "\x7b\x7b".toList <+: c :: s) : Plain (withEscapes (c :: s)) where
  noMarkup hp := h.noMarkup ((prefix_of_prefix_withEscapes (by decide) hp).subset (.head _))
  noAt hp := by
    rw [withEscapes_cons hat hbraces] at hp
    exact hat (List.cons_prefix_cons.mp hp).1.symm
  noEcho hp := hbraces (prefix_of_prefix_withEscapes (by decide) hp)
  noUnescaped hp := h.noUnescaped (prefix_of_prefix_withEscapes (by decide) hp).isInfix
  noSlot hp := h.noSlot (prefix_of_prefix_withEscapes (by decide) hp).isInfix

theorem step_withEscapes (h : Escapable s) (hs : s ≠ []) : ∃ lexeme piece rest,
    s = piece ++ rest ∧ piece ≠ [] ∧ step true .text here before (withEscapes s) =
      .ok ⟨[.literal lexeme piece], .text, withEscapes rest⟩ := by
  fun_cases withEscapes s with
  | case1 => exact absurd rfl hs
  | case2 rest => exact ⟨"@@".toList, ['@'], rest, rfl, List.cons_ne_nil _ _, rfl⟩
  | case3 rest =>
    exact ⟨"@\x7b\x7b".toList, "\x7b\x7b".toList, rest, rfl, List.cons_ne_nil _ _, rfl⟩
  | case4 c rest hat hbraces =>
    have hnot : ¬ "\x7b\x7b".toList <+: c :: rest := by
      rintro ⟨after, hafter⟩
      obtain ⟨hc, hrest⟩ := List.cons.inj hafter
      exact hbraces after hc.symm hrest.symm
    have hplain := plain_withEscapes h hat hnot
    rw [withEscapes_cons hat hnot] at hplain
    obtain ⟨htake, hdrop⟩ := takeWhile_withEscapes rest
    let run := c :: rest.takeWhile (!textSpecial ·)
    refine ⟨run, run, rest.dropWhile (!textSpecial ·), ?_, List.cons_ne_nil _ _, ?_⟩
    · rw [List.cons_append, List.takeWhile_append_dropWhile]
    · rw [step_of_plain hplain]
      simp only [rawStep, rawRun, Segment.verbatim, htake, hdrop, run]

theorem segments_withEscapes (here : Position) (before : Option Char) (h : Escapable s) :
    ∃ list, segments true .text here before (withEscapes s) = .ok list ∧
      Segment.Literally list s := by
  induction hlen : s.length using Nat.strong_induction_on generalizing s here before with
  | _ n ih =>
    by_cases hs : s = []
    · subst hs
      refine ⟨[], ?_, .nil⟩
      rw [withEscapes, segments, dif_pos rfl]
      rfl
    · obtain ⟨lexeme, piece, rest, rfl, hpiece, hstep⟩ := step_withEscapes h hs
      have hlt : rest.length < n := by
        have := List.length_pos_iff.mpr hpiece
        rw [← hlen, List.length_append]
        omega
      obtain ⟨list, hlist, hliterally⟩ :=
        ih rest.length hlt _ _ (h.of_suffix (List.suffix_append piece rest)) rfl
      refine ⟨.literal lexeme piece :: list, ?_, .cons lexeme piece hliterally⟩
      rw [segments_of_step (withEscapes_ne_nil hs) hstep, hlist]
      rfl

end Lexer

namespace Token

/-- The escapes are complete. A text that is not empty and has no angle bracket, unescaped echo or
slot in it is read back from its form with escapes, as one token of literal text. -/
theorem escaped_text_is_read_back (text file : String) (hne : text ≠ "")
    (hmarkup : '<' ∉ text.toList) (hunescaped : ¬ "\x7b!!".toList <:+: text.toList)
    (hslot : ¬ "$\x7b".toList <:+: text.toList) :
    lex .html (String.ofList (withEscapes text.toList)) file = .ok [⟨.raw, text, 0, 1, .html⟩] := by
  have hne : text.toList ≠ [] := by simpa using hne
  obtain ⟨list, hlist, hliterally⟩ :=
    Lexer.segments_withEscapes .start none ⟨hmarkup, hunescaped, hslot⟩
  have htokens := hliterally.ofSegments_none hne .start
  rw [String.ofList_toList] at htokens
  rw [lex, segments, String.toList_ofList, hlist]
  exact congrArg Except.ok htokens

/-- At-signs and braces in any order, next to the opening of a comment. -/
theorem escaped_text_is_read_back_comment :
    lex .html "@@@\x7b\x7b\x7b@@@@@\x7b\x7b-- a@@b $ \x7b \x7d\x7d" "a.stm" =
      .ok [⟨.raw, "@\x7b\x7b\x7b@@\x7b\x7b-- a@b $ \x7b \x7d\x7d", 0, 1, .html⟩] :=
  escaped_text_is_read_back "@\x7b\x7b\x7b@@\x7b\x7b-- a@b $ \x7b \x7d\x7d" "a.stm" (by decide)
    (by decide) (by decide) (by decide)

end Token

end Lamina
