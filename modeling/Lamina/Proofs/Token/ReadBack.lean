import Lamina.Proofs.Snippet
import Lamina.Proofs.Token.Quoting
import Lamina.Token.Lexer

/-! Echoes and directives are read back as they were written. An expression whose literals are
terminated and whose braces balance can be put into an echo, whatever it starts or ends with, and
arguments with balanced parentheses into a directive. -/

namespace Lamina

open Lamina.Text

namespace Scan

def IsIdent (s : List Char) : Prop :=
  ∃ c rest, s = c :: rest ∧ isIdentStart c = true ∧ ∀ d ∈ rest, isIdentChar d = true

theorem isIdentChar_of_start {c : Char} (h : isIdentStart c = true) : isIdentChar c = true := by
  simp only [isIdentStart, Bool.or_eq_true] at h
  simp only [isIdentChar, Char.isAlphanum, Bool.or_eq_true]
  rcases h with h | h <;> simp [h]

theorem isIdent_of_ident? {s name rest : List Char} (h : ident? s = some (name, rest)) :
    IsIdent name := by
  cases s with
  | nil => cases h
  | cons c s =>
    rw [ident?] at h
    split at h
    · next hc =>
      cases h
      rw [List.takeWhile_cons_of_pos (isIdentChar_of_start hc)]
      exact ⟨c, _, rfl, hc, List.all_eq_true.mp List.all_takeWhile⟩
    · cases h

theorem IsIdent.feeds_eq_zero {name : List Char} (h : IsIdent name) : feeds name = 0 := by
  obtain ⟨c, rest, rfl, hc, hrest⟩ := h
  have hall : ∀ d ∈ c :: rest, isIdentChar d = true :=
    List.forall_mem_cons.mpr ⟨isIdentChar_of_start hc, hrest⟩
  exact feeds_eq_zero_of_forall (by decide) hall

theorem ident?_of_isIdent {name : List Char} (h : IsIdent name) (rest : List Char) :
    ident? (name ++ '(' :: rest) = some (name, '(' :: rest) := by
  obtain ⟨c, tail, rfl, hc, htail⟩ := h
  have hall : ∀ d ∈ c :: tail, isIdentChar d = true :=
    List.forall_mem_cons.mpr ⟨isIdentChar_of_start hc, htail⟩
  have htake : (c :: tail ++ '(' :: rest).takeWhile isIdentChar = c :: tail := by
    rw [List.takeWhile_append_of_pos hall]
    simp [isIdentChar]
  have hdrop : (c :: tail ++ '(' :: rest).dropWhile isIdentChar = '(' :: rest := by
    rw [List.dropWhile_append_of_pos hall]
    simp [isIdentChar]
  rw [List.cons_append] at htake hdrop ⊢
  rw [ident?, if_pos hc, htake, hdrop]

end Scan

namespace Lexer

open Scan

variable {s e : List Char}

theorem segments_of_dynamic {segment : Segment} (hs : s ≠ [])
    (h : dynamic true none s = .ok (some (segment, []))) (html : Bool) :
    segments html .text .start none s = .ok [segment] := by
  have hstep : step html .text .start none s = .ok ⟨[segment], .text, []⟩ := by
    rw [step, textStep, h]
    rfl
  have hend : segments html .text (Position.start.advance (Segment.source [segment]))
      (Segment.source [segment]).getLast? [] = .ok [] := by
    rw [segments, dif_pos rfl]
    rfl
  rw [segments_eq hs, hstep]
  exact congrArg (Except.map ([segment] ++ ·)) hend

theorem echo_of_balanced {front back opening : List Char} {escape : Bool} (hfront : Marks front)
    (he : Balanced '{' '}' e) :
    echo opening (front ++ '}' :: back) escape (opening ++ (e ++ (front ++ '}' :: back))) =
      .ok (some (.token (.echo (String.ofList (trim e)) escape) .dynamic
        (opening ++ e ++ (front ++ '}' :: back)), [])) := by
  have hend : delimited (front ++ '}' :: back) .outside 0 (e ++ (front ++ '}' :: back ++ [])) =
      some (e, []) := delimited_of_closes hfront he []
  rw [List.append_nil] at hend
  rw [echo, isPrefixOf?_eq_some.mpr rfl]
  simp only [hend]

theorem not_dashes_append (h : ¬ "--".toList <+: e) : ¬ "--".toList <+: e ++ "\x7d\x7d".toList := by
  rcases e with _ | ⟨c, _ | ⟨d, e⟩⟩
  · simp
  · simp
  · simpa using h

theorem dynamic_of_escaped (he : Balanced '{' '}' e) (hdashes : ¬ "--".toList <+: e) :
    dynamic true none ("\x7b\x7b".toList ++ (e ++ "\x7d\x7d".toList)) =
      .ok (some (.token (.echo (String.ofList (trim e)) true) .dynamic
        ("\x7b\x7b".toList ++ e ++ "\x7d\x7d".toList), [])) := by
  have hnote : note ("\x7b\x7b".toList ++ (e ++ "\x7d\x7d".toList)) = .ok none := by
    rw [note, isPrefixOf?_eq_none_iff.mpr]
    exact fun h => not_dashes_append hdashes (by simpa using h)
  have hhost : host ("\x7b\x7b".toList ++ (e ++ "\x7d\x7d".toList)) = .ok none := rfl
  have hraw : echo "\x7b!!".toList "!!\x7d".toList false
      ("\x7b\x7b".toList ++ (e ++ "\x7d\x7d".toList)) = .ok none := rfl
  have hmarks : Marks [] := List.forall_mem_nil _
  have hecho : echo "\x7b\x7b".toList "\x7d\x7d".toList true
      ("\x7b\x7b".toList ++ (e ++ "\x7d\x7d".toList)) = _ := echo_of_balanced hmarks he
  rw [dynamic, hhost, hnote, hraw, hecho]
  rfl

theorem dynamic_of_unescaped (he : Balanced '{' '}' e) :
    dynamic true none ("\x7b!!".toList ++ (e ++ "!!\x7d".toList)) =
      .ok (some (.token (.echo (String.ofList (trim e)) false) .dynamic
        ("\x7b!!".toList ++ e ++ "!!\x7d".toList), [])) := by
  have hmarks : Marks ['!', '!'] := by simp [Marks, isQuote]
  have hhost : host ("\x7b!!".toList ++ (e ++ "!!\x7d".toList)) = .ok none := rfl
  have hnote : note ("\x7b!!".toList ++ (e ++ "!!\x7d".toList)) = .ok none := rfl
  have hecho : echo "\x7b!!".toList "!!\x7d".toList false
      ("\x7b!!".toList ++ (e ++ "!!\x7d".toList)) = _ := echo_of_balanced hmarks he
  rw [dynamic, hhost, hnote, hecho]
  rfl

theorem dynamic_of_directive {name body : List Char} (hname : IsIdent name)
    (hbody : Balanced '(' ')' body) :
    dynamic true none ('@' :: (name ++ '(' :: (body ++ [')']))) =
      .ok (some (.token (.directive (String.ofList name) (some (String.ofList body))) .dynamic
        ('@' :: name ++ '(' :: body ++ [')']), [])) := by
  have hescape : escapedText ('@' :: (name ++ '(' :: (body ++ [')']))) = none := by
    obtain ⟨c, tail, rfl, hc, -⟩ := hname
    have hat : '@' ≠ c := by
      rintro rfl
      simp [isIdentStart] at hc
    have hbrace : '{' ≠ c := by
      rintro rfl
      simp [isIdentStart] at hc
    simp [escapedText, List.isPrefixOf?, hat, hbrace]
  have hclose : balanced .outside 0 (body ++ [')']) = some (body, []) :=
    balanced_eq_some_iff.mpr ⟨rfl, hbody⟩
  have hdirective : directive none ('@' :: (name ++ '(' :: (body ++ [')']))) =
      .ok (some (.token (.directive (String.ofList name) (some (String.ofList body))) .dynamic
        ('@' :: name ++ '(' :: body ++ [')']), [])) := by
    simp [directive, List.isPrefixOf?, isAttached, ident?_of_isIdent hname, hclose]
  -- nothing but an escape or a directive starts with an at-sign
  have hother : dynamic true none ('@' :: (name ++ '(' :: (body ++ [')']))) =
      orTry (.ok (escapedText ('@' :: (name ++ '(' :: (body ++ [')']))))) fun _ =>
        orTry (directive none ('@' :: (name ++ '(' :: (body ++ [')'])))) fun _ =>
          .ok (slot ('@' :: (name ++ '(' :: (body ++ [')'])))) := rfl
  rw [hother, hescape, hdirective]
  rfl

end Lexer

namespace Token

open Lexer Scan

theorem lex_of_dynamic {grammar : Grammar} (hg : grammar ≠ .host) {source : String}
    {kind : TokenKind} {g : Grammar} {lexeme : List Char}
    (h : dynamic true none source.toList = .ok (some (.token kind g lexeme, []))) (file : String) :
    lex grammar source file = .ok [⟨kind, source, 0, 1, g⟩] := by
  obtain ⟨hsource, hne⟩ := dynamic_front h
  simp only [Segment.lexeme, List.append_nil] at hsource hne
  have hsegments : segments grammar source = .ok [.token kind g lexeme] := by
    cases grammar with
    | host => exact absurd rfl hg
    | html | dynamic | inline => exact segments_of_dynamic (hsource ▸ hne) h _
  rw [lex, hsegments]
  simp only [ofSegments, ofPending, List.nil_append, ← hsource, String.ofList_toList]
  rfl

/-- Constructs are read back exactly. An echo of an expression whose literals are terminated and
whose braces balance outside of them is one token with that expression, trimmed; a directive with
arguments whose literals are terminated and whose parentheses balance is one token with them as they
are. -/
theorem constructs_are_read_back (grammar : Grammar) (hg : grammar ≠ .host) (file : String) :
    (∀ e : String, Balanced '{' '}' e.toList → ¬ "--".toList <+: e.toList →
      lex grammar ("\x7b\x7b" ++ e ++ "\x7d\x7d") file =
        .ok [⟨.echo (onChars trim e) true, "\x7b\x7b" ++ e ++ "\x7d\x7d", 0, 1, .dynamic⟩]) ∧
    (∀ e : String, Balanced '{' '}' e.toList →
      lex grammar ("\x7b!!" ++ e ++ "!!\x7d") file =
        .ok [⟨.echo (onChars trim e) false, "\x7b!!" ++ e ++ "!!\x7d", 0, 1, .dynamic⟩]) ∧
    ∀ name body : String, IsIdent name.toList → Balanced '(' ')' body.toList →
      lex grammar ("@" ++ name ++ "(" ++ body ++ ")") file =
        .ok [⟨.directive name (some body), "@" ++ name ++ "(" ++ body ++ ")", 0, 1, .dynamic⟩] := by
  refine ⟨fun e he hdashes => ?_, fun e he => ?_, fun name body hname hbody => ?_⟩
  · have hdynamic := dynamic_of_escaped he hdashes
    rw [← List.append_assoc, ← String.toList_append, ← String.toList_append] at hdynamic
    exact lex_of_dynamic hg hdynamic file
  · have hdynamic := dynamic_of_unescaped he
    rw [← List.append_assoc, ← String.toList_append, ← String.toList_append] at hdynamic
    exact lex_of_dynamic hg hdynamic file
  · have hdynamic := dynamic_of_directive hname hbody
    rw [String.ofList_toList, String.ofList_toList] at hdynamic
    have hsource : ("@" ++ name ++ "(" ++ body ++ ")").toList =
        '@' :: (name.toList ++ '(' :: (body.toList ++ [')'])) := by simp
    rw [← hsource] at hdynamic
    exact lex_of_dynamic hg hdynamic file

/-- A delimiter in a literal, braces next to the closing braces, exclamation marks next to those of
the delimiter, and an escaped quote in front of a parenthesis. -/
theorem constructs_are_read_back_closers :
    lex .html "\x7b\x7b \x7ba = \"\x7d\x7d\"\x7d\x7d\x7d" "a.stm" =
        .ok [⟨.echo "\x7ba = \"\x7d\x7d\"\x7d" true,
          "\x7b\x7b \x7ba = \"\x7d\x7d\"\x7d\x7d\x7d", 0, 1, .dynamic⟩] ∧
      lex .html "\x7b!!a!!!!\x7d" "a.stm" =
        .ok [⟨.echo "a!!" false, "\x7b!!a!!!!\x7d", 0, 1, .dynamic⟩] ∧
      lex .html "@if(f('\\'(', x))" "a.stm" =
        .ok [⟨.directive "if" (some "f('\\'(', x)"), "@if(f('\\'(', x))", 0, 1, .dynamic⟩] := by
  obtain ⟨hescaped, hunescaped, hdirective⟩ := constructs_are_read_back .html (by decide) "a.stm"
  exact ⟨hescaped " \x7ba = \"\x7d\x7d\"\x7d" (by decide) (by decide),
    hunescaped "a!!" (by decide),
    hdirective "if" "f('\\'(', x)" ⟨'i', ['f'], rfl, rfl, by simp [isIdentChar]⟩ (by decide)⟩

end Token

end Lamina
