import Lamina.Proofs.Node.Moves
import Lamina.Proofs.Token.Spelling
import Lamina.Proofs.Token.Tiling

/-! The lexer and the parser agree on the language of tokens. On tokens that were read from a source
the parser never meets one that it has no place for; what is left to go wrong is the nesting of
elements and the arguments of directives. -/

namespace Lamina

namespace ParseFault

def ofNesting : ParseFault → Bool
  | unclosedTag _ | unexpectedClosing .. => true
  | _ => false

theorem eq_of_ofArguments {fault : ParseFault} (h : fault.ofArguments = true) :
    ∃ name reason, fault = .malformedArguments name reason := by
  cases fault <;> first | exact ⟨_, _, rfl⟩ | cases h

theorem eq_of_ofNesting {fault : ParseFault} (h : fault.ofNesting = true) :
    (∃ name, fault = .unclosedTag name) ∨
      ∃ name expected, fault = .unexpectedClosing name expected := by
  cases fault <;> first | exact .inl ⟨_, rfl⟩ | exact .inr ⟨_, _, rfl⟩ | cases h

end ParseFault

def Phase.Accepts (p : Phase) : List Token → Prop
  | [] => p = .content
  | token :: rest => p.allows token.kind = true ∧ (p.after token.kind).Accepts rest

theorem Part.Tile.accepts {before : List Char} {p : Phase} {parts : List Part}
    (h : Tile before p parts) : p.Accepts (tokens parts) := by
  induction parts generalizing before p with
  | nil => exact h
  | cons part rest ih =>
    obtain ⟨lexeme, token?⟩ := part
    obtain ⟨hright, htile⟩ := h
    have hrest := ih htile
    cases token? with
    | none => exact hrest
    | some token => exact ⟨hright.2.1, hrest⟩

namespace Parser

variable {file : String} {s : State} {token : Token} {fault : ParseFault} {line : Nat}

theorem fault_of_contentNode? (h : contentNode? file token = .error (fault, line)) :
    fault.ofArguments = true := by
  obtain ⟨_, _, _, -, -, -, rfl⟩ := contentNode?_eq_error h
  rfl

theorem fault_of_run {tokens : List Token} (ha : s.place.phase.Accepts tokens)
    (h : run file s tokens = .error (fault, line)) :
    fault.ofArguments = true ∨ fault.ofNesting = true := by
  induction tokens generalizing s with
  | nil =>
    have hplace : s.place = .content := by
      cases hp : s.place with
      | content => rfl
      | tag | named | value =>
        rw [hp] at ha
        cases ha
    simp only [run, finish, hplace] at h
    split at h
    · cases h
      exact .inr rfl
    · cases h
  | cons token rest ih =>
    obtain ⟨hallows, hrest⟩ := ha
    rw [run] at h
    split at h
    · next hs =>
      cases h
      cases step_fails hs with
      | arguments node => exact .inl (fault_of_contentNode? node)
      | nesting => exact .inr rfl
      | misplaced _ refused => cases hallows.symm.trans refused
    · next s' hs =>
      refine ih ?_ h
      rw [(step_moves hs).phase_eq]
      exact hrest

theorem fault_of_run_content {tokens : List Token} (hp : s.place = .content) (hs : s.stack = [])
    (hc : ∀ token ∈ tokens, token.kind.isContent = true)
    (h : run file s tokens = .error (fault, line)) : fault.ofArguments = true := by
  induction tokens generalizing s with
  | nil =>
    simp only [run, finish, hp, hs] at h
    cases h
  | cons token rest ih =>
    obtain ⟨htoken, hrest⟩ := List.forall_mem_cons.mp hc
    cases hnode : contentNode? file token with
    | error e =>
      rw [run, step, hp] at h
      dsimp only at h
      rw [contentStep_eq file s htoken, hnode] at h
      cases h
      exact fault_of_contentNode? hnode
    | ok node? =>
      cases node? with
      | none => exact absurd hnode (contentNode?_ne_none htoken)
      | some n =>
        rw [run_of_moves (.construct hp hnode)] at h
        refine ih ((append_place s n).trans hp) ?_ hrest h
        rw [State.append, hs]

end Parser

namespace Lexer

theorem textStep_content {here : Position} {before : Option Char} {s : List Char} {r : Step}
    (h : textStep false here before s = .ok r) : r.mode = .text ∧
      ∀ kind grammar lexeme, .token kind grammar lexeme ∈ r.segments → kind.isContent = true := by
  unfold textStep at h
  split at h
  · cases h
  · next hd =>
    cases h
    refine ⟨rfl, fun kind grammar lexeme hmem => ?_⟩
    have hfound := dynamic_found hd
    rw [← List.mem_singleton.mp hmem] at hfound
    cases hfound <;> rfl
  · cases h
    refine ⟨rfl, fun kind grammar lexeme hmem => ?_⟩
    cases s <;> cases List.mem_singleton.mp hmem

theorem segments_content {here : Position} {before : Option Char} {s : List Char}
    {list : List Segment} (h : segments false .text here before s = .ok list) :
    ∀ kind grammar lexeme, .token kind grammar lexeme ∈ list → kind.isContent = true := by
  generalize hmode : Mode.text = mode at h
  fun_induction segments false mode here before s generalizing list with
  | case1 =>
    obtain ⟨_, -, rfl⟩ := map_eq_ok.mp h
    intro kind grammar lexeme hmem
    cases hmem
  | case2 => cases h
  | case3 mode here before s hne r hstep _ taken =>
    rename_i ih
    obtain ⟨more, hmore, rfl⟩ := map_eq_ok.mp h
    subst hmode
    obtain ⟨htext, hcontent⟩ := textStep_content (eq_ok_of_mapError hstep)
    intro kind grammar lexeme hmem
    rcases List.mem_append.mp hmem with hmem | hmem
    · exact hcontent kind grammar lexeme hmem
    · exact ih htext.symm hmore kind grammar lexeme hmem

end Lexer

theorem Token.isContent_of_lex {grammar : Grammar} (hg : grammar ≠ .html) {source file : String}
    {tokens : List Token} (h : lex grammar source file = .ok tokens) :
    ∀ token ∈ tokens, token.kind.isContent = true := by
  obtain ⟨list, hlist, rfl⟩ := exists_of_lex h
  refine kind_of_mem_ofSegments rfl ?_
  cases grammar with
  | html => exact absurd rfl hg
  | dynamic | inline => exact Lexer.segments_content hlist
  | host =>
    cases hlist
    intro kind grammar lexeme hmem
    split at hmem
    · cases hmem
    · cases List.mem_singleton.mp hmem
      rfl

namespace Node

/-- Tokens that were read from a source parse, or fail for the nesting of elements or for the
arguments of a directive; without markup, for arguments only. -/
theorem lexed_tokens_have_a_place (grammar : Grammar) (source file : String) (tokens : List Token)
    (h : Token.lex grammar source file = .ok tokens) :
    (∃ root, ofTokens file source tokens = .ok root) ∨
      ∃ fault line, ofTokens file source tokens =
          .error (.parse fault file line (some (.ofSource source line 1))) ∧
        ((∃ name reason, fault = .malformedArguments name reason) ∨
          grammar = .html ∧ ((∃ name, fault = .unclosedTag name) ∨
            ∃ name expected, fault = .unexpectedClosing name expected)) := by
  cases hrun : Parser.run file .start tokens with
  | ok nodes => exact .inl ⟨rootOf file nodes, by rw [ofTokens, hrun]⟩
  | error e =>
    obtain ⟨fault, line⟩ := e
    refine .inr ⟨fault, line, by rw [ofTokens, hrun], ?_⟩
    by_cases hg : grammar = .html
    · obtain ⟨parts, -, htokens, htile⟩ := Token.exists_tile_lex h
      have haccepts : Parser.State.start.place.phase.Accepts tokens := htokens ▸ htile.accepts
      rcases Parser.fault_of_run haccepts hrun with ha | hn
      · exact .inl (ParseFault.eq_of_ofArguments ha)
      · exact .inr ⟨hg, ParseFault.eq_of_ofNesting hn⟩
    · have hcontent := Token.isContent_of_lex hg h
      exact .inl (ParseFault.eq_of_ofArguments
        (Parser.fault_of_run_content rfl rfl hcontent hrun))

/-- A stray closer of a void element, an echo between attributes, and elements that overlap. -/
def overlapSource : String := "<p \x7b\x7b a \x7d\x7d b=c></br><i></p>"

def overlapTokens : List Token :=
  [⟨.tagOpen "p", "<p", 0, 1, .html⟩, ⟨.echo "a" true, "\x7b\x7b a \x7d\x7d", 3, 1, .dynamic⟩,
    ⟨.attrName "b", "b", 11, 1, .html⟩, ⟨.unquoted "c", "c", 13, 1, .html⟩,
    ⟨.tagEnd, ">", 14, 1, .html⟩, ⟨.tagClose "br", "</br>", 15, 1, .html⟩,
    ⟨.tagOpen "i", "<i", 20, 1, .html⟩, ⟨.tagEnd, ">", 22, 1, .html⟩,
    ⟨.tagClose "p", "</p>", 23, 1, .html⟩]

set_option maxRecDepth 100000 in
theorem lexed_tokens_have_a_place_overlap :
    Token.lex .html overlapSource "a.stm" = .ok overlapTokens ∧
      ((∃ root, ofTokens "a.stm" overlapSource overlapTokens = .ok root) ∨
        ∃ fault line, ofTokens "a.stm" overlapSource overlapTokens =
            .error (.parse fault "a.stm" line (some (.ofSource overlapSource line 1))) ∧
          ((∃ name reason, fault = .malformedArguments name reason) ∨
            Grammar.html = .html ∧ ((∃ name, fault = .unclosedTag name) ∨
              ∃ name expected, fault = .unexpectedClosing name expected))) := by
  have h : Token.lex .html overlapSource "a.stm" = .ok overlapTokens :=
    eq_ok_of_toOption (by decide +kernel)
  exact ⟨h, lexed_tokens_have_a_place .html overlapSource "a.stm" overlapTokens h⟩

end Node

end Lamina
