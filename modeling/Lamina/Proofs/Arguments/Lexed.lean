import Lamina.Proofs.Arguments
import Lamina.Proofs.Node.Agreement
import Lamina.Proofs.Token.Known

/-! The lexer and the arguments agree on parentheses and literals. What the lexer takes for the body
of a directive has its literals terminated and its parentheses balanced, so it splits, unless
brackets of another kind get in the way. -/

namespace Lamina

open Lamina.Text

namespace Lexer

variable {before : Option Char} {s : List Char} {name : String}

theorem dynamic_balanced {escapes : Bool} {body : String} {g : Grammar} {lexeme rest : List Char}
    (h : dynamic escapes before s =
      .ok (some (.token (.directive name (some body)) g lexeme, rest))) :
    Scan.Balanced '(' ')' body.toList := by
  have hfound := dynamic_found h
  generalize hsegment : Segment.token (.directive name (some body)) g lexeme = segment at hfound
  cases hfound with
  | directive _ _ closes =>
    cases hsegment
    rw [String.toList_ofList]
    exact (Scan.balanced_eq_some_iff.mp closes).2
  | _ => cases hsegment

end Lexer

namespace TokenKind

def enclosed : TokenKind → Bool
  | directive _ (some body) => decide (Scan.Balanced '(' ')' body.toList)
  | _ => true

end TokenKind

theorem Lexer.Known.enclosed {kind : TokenKind} {g : Grammar} {lexeme : List Char}
    (h : Known (.token kind g lexeme)) : kind.enclosed = true := by
  cases kind with
  | directive name body =>
    cases body with
    | none => rfl
    | some body =>
      rcases h with hmarkup | ⟨escapes, before, s, rest, hdynamic⟩
      · cases hmarkup
      · exact decide_eq_true (dynamic_balanced hdynamic)
  | _ => rfl

theorem Token.enclosed_of_lex {grammar : Grammar} {source file : String} {tokens : List Token}
    (h : lex grammar source file = .ok tokens) : ∀ token ∈ tokens, token.kind.enclosed = true := by
  obtain ⟨list, hlist, rfl⟩ := exists_of_lex h
  refine kind_of_mem_ofSegments rfl fun kind g lexeme hmem => ?_
  cases grammar with
  | html | dynamic | inline => exact (Lexer.segments_known hlist _ hmem).enclosed
  | host =>
    cases hlist
    split at hmem
    · cases hmem
    · cases List.mem_singleton.mp hmem
      rfl

namespace Arguments

/-- Outside of its literals the text has no brackets but parentheses. -/
def Parenthesized (body : String) : Prop :=
  ∀ c ∈ Scan.unquoted .outside body.toList, c ∉ "[]\x7b\x7d".toList

instance (body : String) : Decidable (Parenthesized body) :=
  decidable_of_iff ((Scan.unquoted .outside body.toList).all
    fun c => !"[]\x7b\x7d".toList.contains c) (by simp [Parenthesized])

theorem isBracket_eq_false {c : Char} (hopen : c ≠ '(') (hclose : c ≠ ')')
    (h : c ∉ "[]\x7b\x7d".toList) : isBracket c = false := by
  simp_all [isBracket]

namespace Scanner

open Scan

variable {q : Quoting} {depth : Nat} {s : List Char}

theorem step_of_closes {c : Char} (h : Closes '(' ')' .outside depth (c :: s))
    (hc : c ∉ "[]\x7b\x7d".toList) (ended : List (List Char)) (current : List Char) :
    ∃ depth' ended' current', Closes '(' ')' (Quoting.outside.next c) depth' s ∧
      step ⟨.outside, .replicate depth '(', ended, current⟩ c =
        some ⟨Quoting.outside.next c, .replicate depth' '(', ended', current'⟩ := by
  by_cases hclose : c = ')'
  · subst hclose
    cases depth with
    | zero => exact absurd h (Closes.not_closing (by decide))
    | succ depth =>
      exact ⟨depth, ended, _, (Closes.closing_iff (by decide)).mp h,
        step_outside (reopen_of_closing rfl) (.inl (List.cons_ne_nil _ _)) ended current⟩
  · by_cases hopen : c = '('
    · subst hopen
      exact ⟨depth + 1, ended, _, (Closes.opening_iff (by decide)).mp h,
        step_outside (reopen_of_opening rfl) (.inr (by decide)) ended current⟩
    · have hrest := (Closes.plain_iff hopen hclose).mp h
      by_cases hcomma : depth = 0 ∧ c = ','
      · obtain ⟨rfl, rfl⟩ := hcomma
        exact ⟨0, ended ++ [current], [], hrest, rfl⟩
      · have hvalue : List.replicate depth '(' ≠ [] ∨ c ≠ ',' := by
          rw [Ne, List.replicate_eq_nil_iff]
          exact not_and_or.mp hcomma
        have hplain := isBracket_eq_false hopen hclose hc
        exact ⟨depth, ended, _, hrest, step_outside (reopen_of_plain hplain) hvalue ended current⟩

theorem run_of_closes (h : Closes '(' ')' q depth s)
    (hs : ∀ c ∈ unquoted q s, c ∉ "[]\x7b\x7d".toList) (ended : List (List Char))
    (current : List Char) :
    ∃ s', run ⟨q, .replicate depth '(', ended, current⟩ s = some s' ∧ s'.Idle := by
  induction s generalizing q depth ended current with
  | nil =>
    obtain ⟨rfl, rfl⟩ := Closes.nil_iff.mp h
    exact ⟨_, rfl, rfl, rfl⟩
  | cons c s ih =>
    by_cases hq : q = .outside
    · subst hq
      obtain ⟨hc, hs⟩ := List.forall_mem_cons.mp hs
      obtain ⟨depth', ended', current', hrest, hstep⟩ := step_of_closes h hc ended current
      obtain ⟨s', hrun, hidle⟩ := ih hrest hs ended' current'
      exact ⟨s', by rw [run_cons, hstep, Option.bind_some, hrun], hidle⟩
    · rw [unquoted, if_neg hq] at hs
      rw [run_quoted hq]
      exact ih ((Closes.quoted_iff hq).mp h) hs ended _

end Scanner

theorem exists_split {body : String} (h : Scan.Balanced '(' ')' body.toList)
    (hb : Parenthesized body) : ∃ values, split body = .ok values := by
  obtain ⟨s, hrun, hidle⟩ := Scanner.run_of_closes h hb [] []
  have hsegments := Scanner.segments_eq_some_iff.mpr ⟨s, hrun, hidle, rfl⟩
  rw [split, hsegments]
  split
  · exact ⟨_, rfl⟩
  · exact ⟨_, rfl⟩

end Arguments

namespace Parser

variable {file : String} {s : State} {token : Token} {fault : ParseFault} {line : Nat}

theorem run_arguments (hf : fault.ofArguments = true) {tokens : List Token}
    (h : run file s tokens = .error (fault, line)) :
    ∃ token ∈ tokens, contentNode? file token = .error (fault, line) := by
  induction tokens generalizing s with
  | nil =>
    rw [run, finish] at h
    split at h
    · cases h
      cases hf
    · cases h
      cases hf
    · cases h
      cases hf
    · split at h
      · cases h
        cases hf
      · cases h
  | cons token rest ih =>
    rw [run] at h
    split at h
    · next hstep =>
      cases h
      cases step_fails hstep with
      | arguments node => exact ⟨token, .head _, node⟩
      | nesting => cases hf
      | misplaced other => cases hf.symm.trans other
    · obtain ⟨t, ht, hnode⟩ := ih h
      exact ⟨t, .tail _ ht, hnode⟩

end Parser

namespace Node

/-- A directive that is read from a source becomes a node with the values of its body, unless
brackets other than parentheses stand outside of the literals there. Where parsing fails for
arguments, they are those of a directive with such brackets. -/
theorem lexed_arguments_split (grammar : Grammar) (source file : String) (tokens : List Token)
    (h : Token.lex grammar source file = .ok tokens) :
    (∀ token ∈ tokens, ∀ name body, token.kind = .directive name (some body) →
      Arguments.Parenthesized body → ∃ values, Arguments.split body = .ok values ∧
        Parser.contentNode? file token = .ok (some (.directive name values (some body)
          (Parser.originOf file token ("@" ++ name))))) ∧
    ∀ name reason line snippet, ofTokens file source tokens =
        .error (.parse (.malformedArguments name reason) file line snippet) →
      ∃ token ∈ tokens, ∃ body, token.kind = .directive name (some body) ∧ token.line = line ∧
        ¬ Arguments.Parenthesized body := by
  have hsplit : ∀ token ∈ tokens, ∀ name body, token.kind = .directive name (some body) →
      Arguments.Parenthesized body → ∃ values, Arguments.split body = .ok values := by
    intro token ht name body hkind hbody
    have henclosed := Token.enclosed_of_lex h token ht
    rw [hkind] at henclosed
    exact Arguments.exists_split (of_decide_eq_true henclosed) hbody
  constructor
  · intro token ht name body hkind hbody
    obtain ⟨values, hvalues⟩ := hsplit token ht name body hkind hbody
    refine ⟨values, hvalues, ?_⟩
    simp only [Parser.contentNode?, hkind, Option.elim_some, hvalues]
  · intro name reason line snippet hfail
    rw [ofTokens] at hfail
    split at hfail
    · next hrun =>
      cases hfail
      obtain ⟨token, ht, hnode⟩ := Parser.run_arguments rfl hrun
      obtain ⟨name', body, fault, hkind, hline, herror, hfault⟩ :=
        Parser.contentNode?_eq_error hnode
      cases hfault
      refine ⟨token, ht, body, hkind, hline, fun hbody => ?_⟩
      obtain ⟨values, hvalues⟩ := hsplit token ht name body hkind hbody
      rw [herror] at hvalues
      cases hvalues
    · cases hfail

/-- Two directives: a parenthesis and a bracket in literals, and a bracket that is never closed. -/
def bracketSource : String := "@if(f(')', \"[\"))\n@x([)"

def bracketTokens : List Token :=
  [⟨.directive "if" (some "f(')', \"[\")"), "@if(f(')', \"[\"))", 0, 1, .dynamic⟩,
    ⟨.raw, "\n", 16, 1, .html⟩, ⟨.directive "x" (some "["), "@x([)", 17, 2, .dynamic⟩]

set_option maxRecDepth 100000 in
theorem lexed_arguments_split_brackets :
    Token.lex .html bracketSource "a.stm" = .ok bracketTokens ∧
      (∃ values, Arguments.split "f(')', \"[\")" = .ok values) ∧
      (∃ failure, ofTokens "a.stm" bracketSource bracketTokens = .error failure) ∧
      ∃ token ∈ bracketTokens, ∃ body, token.kind = .directive "x" (some body) ∧ token.line = 2 ∧
        ¬ Arguments.Parenthesized body := by
  have h : Token.lex .html bracketSource "a.stm" = .ok bracketTokens :=
    eq_ok_of_toOption (by decide +kernel)
  obtain ⟨hsplit, hforeign⟩ := lexed_arguments_split .html bracketSource "a.stm" bracketTokens h
  obtain ⟨values, hvalues, -⟩ := hsplit _ (.head _) "if" _ rfl (by decide)
  have hopen : Arguments.segments "[".toList = none := by
    refine Option.eq_none_iff_forall_ne_some.mpr fun list hlist => ?_
    obtain ⟨s, hrun, hidle, -⟩ := Arguments.Scanner.segments_eq_some_iff.mp hlist
    cases hrun
    cases hidle.2
  have hbody : Arguments.split "[" = .error .malformed := by
    rw [Arguments.split, hopen]
    rfl
  have hfail : ofTokens "a.stm" bracketSource bracketTokens =
      .error (.parse (.malformedArguments "x" "expected EOI") "a.stm" 2
        (some (.ofSource bracketSource 2 1))) := by
    simp [ofTokens, bracketTokens, Parser.run, Parser.step, Parser.State.start, Parser.contentStep,
      Parser.contentNode?, Parser.State.append, hvalues, hbody, Arguments.Fault.text]
  exact ⟨h, ⟨values, hvalues⟩, ⟨_, hfail⟩, hforeign _ _ _ _ hfail⟩

end Node

end Lamina
