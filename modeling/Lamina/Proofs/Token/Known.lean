import Lamina.Proofs.Token.Phase
import Lamina.Proofs.Token.Spelling

/-! What the segments of a source look like. Each is a piece of markup of one of a few forms, or a
construct that was found where it starts. -/

namespace Lamina

open Lamina.Text

namespace Lexer

variable {here start : Position} {before : Option Char} {s : List Char} {name : String}

/-- The name of an attribute as it is read: it has no character that ends a name, and does not start
like an echo. -/
structure IsAttrName (s : List Char) : Prop where
  ne_nil : s ≠ []
  chars : ∀ c ∈ s, isNameEnd c = false
  noEcho : ¬ "\x7b\x7b".toList <+: s
  noUnescaped : ¬ "\x7b!!".toList <+: s

inductive Markup : Segment → Prop
  | text (s : List Char) : Markup (.literal s s)
  | gap (s : List Char) : Markup (.gap s)
  | tagOpen {name : List Char} (chars : ∀ c ∈ name, Scan.isTagChar c = true) :
      Markup (.token (.tagOpen (String.ofList name)) .html ('<' :: name))
  | attrName {key : List Char} (isName : IsAttrName key) :
      Markup (.token (.attrName (String.ofList key)) .html key)
  | valueStart {quote : Char} (isQuote : Scan.isQuote quote = true) :
      Markup (.token (.valueStart quote) .html [quote])
  | valueEnd (quote : Char) : Markup (.token .valueEnd .html [quote])
  | unquoted (value : List Char) : Markup (.token (.unquoted (String.ofList value)) .html value)
  | tagEnd : Markup (.token .tagEnd .html ['>'])
  | selfClose : Markup (.token .selfClose .html "/>".toList)
  | tagClose (name : String) (lexeme : List Char) : Markup (.token (.tagClose name) .html lexeme)

theorem Markup.isMarkup {segment : Segment} (h : Markup segment) : segment.isMarkup = true := by
  cases h <;> rfl

def Known (segment : Segment) : Prop :=
  Markup segment ∨
    ∃ escapes before s rest, dynamic escapes before s = .ok (some (segment, rest))

def Step.Known (r : Step) : Prop := ∀ segment ∈ r.segments, Lexer.Known segment

theorem known_of_dynamic {escapes : Bool} {segment : Segment} {rest : List Char} {mode : Mode}
    (h : dynamic escapes before s = .ok (some (segment, rest))) :
    Step.Known ⟨[segment], mode, rest⟩ :=
  List.forall_mem_singleton.mpr (.inr ⟨escapes, before, s, rest, h⟩)

theorem known_of_markup {segment : Segment} (h : Markup segment) :
    ∀ x ∈ [segment], Lexer.Known x :=
  List.forall_mem_singleton.mpr (.inl h)

theorem Valued.known {r : Step} (h : Valued name start here s r) : r.Known := by
  cases h with
  | absent => exact List.forall_mem_nil _
  | ended => exact known_of_markup (.gap _)
  | quoted _ _ quote =>
    exact List.forall_mem_cons.mpr ⟨.inl (.gap _), known_of_markup (.valueStart quote)⟩
  | unquoted => exact List.forall_mem_cons.mpr ⟨.inl (.gap _), known_of_markup (.unquoted _)⟩

theorem not_prefix_of_echo {opening closing : List Char} {escape : Bool}
    (h : echo opening closing escape s = .ok none) : ¬ opening <+: s := by
  unfold echo at h
  split at h
  · next hnone => exact isPrefixOf?_eq_none_iff.mp hnone
  · split at h <;> cases h

theorem not_echo_of_other {escapes : Bool}
    (h : startsDynamic s = true → dynamic escapes before s = .ok none) :
    ¬ "\x7b\x7b".toList <+: s ∧ ¬ "\x7b!!".toList <+: s := by
  by_cases hstarts : startsDynamic s = true
  · have h := (orTry_eq_none (orTry_eq_none (h hstarts)).2).2
    exact ⟨not_prefix_of_echo (orTry_eq_none (orTry_eq_none h).2).1,
      not_prefix_of_echo (orTry_eq_none h).1⟩
  · simp only [startsDynamic, Bool.or_eq_true, List.isPrefixOf_iff_prefix] at hstarts
    exact ⟨fun hp => hstarts (.inl (.inl (.inl hp))), fun hp => hstarts (.inl (.inl (.inr hp)))⟩

theorem InTag.known {r : Step} (h : InTag name start here before s r) : r.Known := by
  cases h with
  | selfClose => exact known_of_markup .selfClose
  | tagEnd => exact known_of_markup .tagEnd
  | construct _ found => exact known_of_dynamic found
  | @attr key after _ split ne_nil chars other valued =>
    obtain ⟨hecho, hraw⟩ := not_echo_of_other other
    have hfront : key <+: s := ⟨after, split.symm⟩
    have hkey : IsAttrName key :=
      ⟨ne_nil, chars, fun hp => hecho (hp.trans hfront), fun hp => hraw (hp.trans hfront)⟩
    exact List.forall_mem_cons.mpr ⟨.inl (.attrName hkey), valued.known⟩

theorem Takes.known {mode : Mode} {r : Step} (h : Takes here before s mode r) : r.Known := by
  induction h with
  | construct _ found => exact known_of_dynamic found
  | run => cases s <;> exact known_of_markup (.text _)
  | comment => exact known_of_markup (.text _)
  | tagClose => exact known_of_markup (.tagClose _ _)
  | tagOpen _ chars => exact known_of_markup (.tagOpen chars)
  | closesRaw _ _ ih => exact ih
  | blank => exact known_of_markup (.gap _)
  | inTag _ _ inTag => exact List.forall_mem_cons.mpr ⟨.inl (.gap _), inTag.known⟩
  | valueEnd => exact known_of_markup (.valueEnd _)

theorem segments_known {html : Bool} {mode : Mode} {list : List Segment}
    (h : segments html mode here before s = .ok list) : ∀ segment ∈ list, Known segment := by
  fun_induction segments html mode here before s generalizing list with
  | case1 =>
    obtain ⟨_, -, rfl⟩ := map_eq_ok.mp h
    exact List.forall_mem_nil _
  | case2 => cases h
  | case3 mode here before s hne r hstep _ taken =>
    rename_i ih
    obtain ⟨more, hmore, rfl⟩ := map_eq_ok.mp h
    exact List.forall_mem_append.mpr ⟨(step_takes hstep).known, ih hmore⟩

end Lexer

end Lamina
