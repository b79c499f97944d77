import Lamina.Node.Parser
import Lamina.Proofs.Token.Phase

/-! The steps of the parser as a relation: one case for each way in which a token is taken over, and
one for each way in which that fails. -/

namespace Lamina

open Lamina.Text

def TokenKind.isContent : TokenKind → Bool
  | raw | echo .. | directive .. | slot .. | host _ => true
  | _ => false

def ParseFault.ofArguments : ParseFault → Bool
  | malformedArguments .. => true
  | _ => false

namespace Parser

def Place.phase : Place → Phase
  | content => .content
  | tag _ => .tag
  | named .. => .named
  | value .. => .value

def Open.node (element : Open) : Node :=
  .tag element.name element.attrs element.children.reverse .pair element.origin

def Place.opening? (file : String) : Place → Option Opening
  | tag opening => some opening
  | named opening name token => some (opening.add file name token .bare)
  | content | value .. => none

variable {file : String} {token : Token} {s s' : State} {rest : List Token}

inductive Moves (file : String) (token : Token) : State → State → Prop
  | construct {s : State} {n : Node} (place : s.place = .content)
      (node : contentNode? file token = .ok (some n)) : Moves file token s (s.append n)
  | opens {s : State} {name : String} (place : s.place = .content)
      (kind : token.kind = .tagOpen name) :
      Moves file token s { s with place := .tag ⟨name, token, []⟩ }
  | closes {s : State} {name : String} {element : Open} {outer : List Open}
      (place : s.place = .content) (kind : token.kind = .tagClose name)
      (stack : s.stack = element :: outer) (same : sameName element.name name = true) :
      Moves file token s (State.append { s with stack := outer } element.node)
  | stray {s : State} {name : String} (place : s.place = .content)
      (kind : token.kind = .tagClose name) (void : isVoidElement name = true)
      (other : ∀ element ∈ s.stack.head?, sameName element.name name = false) : Moves file token s s
  | attr {s : State} {opening : Opening} {name : String} (place : s.place.opening? file = some opening)
      (kind : token.kind = .attrName name) :
      Moves file token s { s with place := .named opening name token }
  | ends {s : State} {opening : Opening} (place : s.place.opening? file = some opening)
      (kind : token.kind = .tagEnd) :
      Moves file token s (s.enter file opening (if isVoidElement opening.name then .void else .pair))
  | selfCloses {s : State} {opening : Opening} (place : s.place.opening? file = some opening)
      (kind : token.kind = .selfClose) : Moves file token s (s.enter file opening .selfClosing)
  | inTag {s : State} {opening : Opening} {n : Node} (place : s.place.opening? file = some opening)
      (kind : isAttrConstruct token.kind = true) (node : contentNode? file token = .ok (some n)) :
      Moves file token s { s with place := .tag (opening.add file "" token (.dynamic [n])) }
  | unquoted {s : State} {opening : Opening} {name value : String} {named : Token}
      (place : s.place = .named opening name named) (kind : token.kind = .unquoted value) :
      Moves file token s { s with place := .tag (opening.add file name named (.unquoted value)) }
  | valueStart {s : State} {opening : Opening} {name : String} {named : Token} {quote : Char}
      (place : s.place = .named opening name named) (kind : token.kind = .valueStart quote) :
      Moves file token s { s with place := .value opening name named quote [] }
  | inValue {s : State} {opening : Opening} {name : String} {named : Token} {quote : Char}
      {nodes : List Node} {n : Node} (place : s.place = .value opening name named quote nodes)
      (node : contentNode? file token = .ok (some n)) :
      Moves file token s { s with place := .value opening name named quote (n :: nodes) }
  | valueEnd {s : State} {opening : Opening} {name : String} {named : Token} {quote : Char}
      {nodes : List Node} (place : s.place = .value opening name named quote nodes)
      (kind : token.kind = .valueEnd) :
      Moves file token s
        { s with place := .tag (opening.add file name named (.quoted quote nodes.reverse)) }

theorem contentStep_moves (hp : s.place = .content) (h : contentStep file s token = .ok s') :
    Moves file token s s' := by
  unfold contentStep at h
  split at h
  · next hk =>
    cases h
    exact .opens hp hk
  · next name hk =>
    split at h
    · next element outer hs =>
      by_cases hn : sameName element.name name = true
      · rw [if_pos hn] at h
        cases h
        exact .closes hp hk hs hn
      · rw [if_neg hn] at h
        split at h
        · next hv =>
          cases h
          refine .stray hp hk hv fun e he => ?_
          rw [hs] at he
          cases he
          exact Bool.eq_false_iff.mpr hn
        · cases h
    · next hs =>
      split at h
      · next hv =>
        cases h
        refine .stray hp hk hv fun e he => ?_
        rw [hs] at he
        cases he
      · cases h
  · split at h
    · cases h
    · next n hn =>
      cases h
      exact .construct hp hn
    · cases h

theorem tagStep_moves {opening : Opening} (hp : s.place.opening? file = some opening)
    (h : tagStep file s opening token = .ok s') : Moves file token s s' := by
  unfold tagStep at h
  split at h
  · next hk =>
    cases h
    exact .attr hp hk
  · next hk =>
    cases h
    exact .ends hp hk
  · next hk =>
    cases h
    exact .selfCloses hp hk
  · dsimp only at h
    split at h
    · next hk =>
      split at h
      · cases h
      · cases h
      · next n hn =>
        cases h
        exact .inTag hp hk hn
    · cases h

theorem step_moves (h : step file s token = .ok s') : Moves file token s s' := by
  unfold step at h
  split at h
  · next hp => exact contentStep_moves hp h
  · next hp => exact tagStep_moves (by rw [hp]; rfl) h
  · next hp =>
    split at h
    · next hk =>
      cases h
      exact .unquoted hp hk
    · next hk =>
      cases h
      exact .valueStart hp hk
    · exact tagStep_moves (by rw [hp]; rfl) h
  · next hp =>
    split at h
    · next hk =>
      cases h
      exact .valueEnd hp hk
    · split at h
      · cases h
      · next n hn =>
        cases h
        exact .inValue hp hn
      · cases h

theorem isContent_of_contentNode? {n : Node} (h : contentNode? file token = .ok (some n)) :
    token.kind.isContent = true := by
  cases hk : token.kind with
  | raw | echo | directive | slot | host => rfl
  | tagOpen | attrName | valueStart | valueEnd | unquoted | tagEnd | selfClose | tagClose =>
    simp [contentNode?, hk] at h

theorem contentStep_eq (file : String) (s : State) (h : token.kind.isContent = true) :
    contentStep file s token = match contentNode? file token with
      | .error fault => .error fault
      | .ok (some node) => .ok (s.append node)
      | .ok none => .error (.unexpected token.text, token.line) := by
  unfold contentStep
  split
  · next hk =>
    rw [hk] at h
    cases h
  · next hk =>
    rw [hk] at h
    cases h
  · rfl

theorem step_of_opening? {opening : Opening} (hp : s.place.opening? file = some opening)
    (hu : ∀ value, token.kind ≠ .unquoted value) (hv : ∀ quote, token.kind ≠ .valueStart quote) :
    step file s token = tagStep file s opening token := by
  unfold step
  cases h : s.place with
  | content | value =>
    rw [h] at hp
    cases hp
  | tag =>
    rw [h] at hp
    cases hp
    rfl
  | named =>
    rw [h] at hp
    cases hp
    split
    · next heq => cases heq
    · next heq => cases heq
    · next heq =>
      cases heq
      split
      · next hk => exact absurd hk (hu _)
      · next hk => exact absurd hk (hv _)
      · rfl
    · next heq => cases heq

theorem Moves.step_eq (h : Moves file token s s') : step file s token = .ok s' := by
  cases h with
  | construct hp hn =>
    rw [step, hp]
    dsimp only
    rw [contentStep_eq file s (isContent_of_contentNode? hn), hn]
  | opens hp hk => simp only [step, hp, contentStep, hk]
  | closes hp hk hs hn => simp only [step, hp, contentStep, hk, hs, hn, if_true, Open.node]
  | stray hp hk hv hother =>
    cases hs : s.stack with
    | nil => simp only [step, hp, contentStep, hk, hs, hv, if_true]
    | cons element outer =>
      have hn := hother element (by rw [hs]; rfl)
      simp only [step, hp, contentStep, hk, hs, hn, hv, if_true, Bool.false_eq_true, if_false]
  | attr hp hk | ends hp hk | selfCloses hp hk =>
    rw [step_of_opening? hp (by simp [hk]) (by simp [hk])]
    simp only [tagStep, hk]
  | inTag hp hk hn =>
    rw [step_of_opening? hp (fun _ h => by simp [h, isAttrConstruct] at hk)
      (fun _ h => by simp [h, isAttrConstruct] at hk)]
    unfold tagStep
    split
    · next h => simp [h, isAttrConstruct] at hk
    · next h => simp [h, isAttrConstruct] at hk
    · next h => simp [h, isAttrConstruct] at hk
    · dsimp only
      rw [if_pos hk, hn]
      rfl
  | unquoted hp hk | valueStart hp hk | valueEnd hp hk => simp only [step, hp, hk]
  | inValue hp hn =>
    have hc := isContent_of_contentNode? hn
    simp only [step, hp]
    split
    · next hk =>
      rw [hk] at hc
      cases hc
    · rw [hn]

theorem run_of_moves (h : Moves file token s s') : run file s (token :: rest) = run file s' rest := by
  rw [run, h.step_eq]

theorem finish_eq_ok {nodes : List Node} (h : finish s = .ok nodes) :
    s.place = .content ∧ s.stack = [] ∧ nodes = s.root.reverse := by
  unfold finish at h
  split at h
  · cases h
  · cases h
  · cases h
  · next hp =>
    split at h
    · cases h
    · next hs =>
      cases h
      exact ⟨hp, hs, rfl⟩

theorem run_cons_eq_ok {nodes : List Node} (h : run file s (token :: rest) = .ok nodes) :
    ∃ s', Moves file token s s' ∧ run file s' rest = .ok nodes := by
  rw [run] at h
  split at h
  · cases h
  · next s' hs => exact ⟨s', step_moves hs, h⟩

theorem append_place (s : State) (n : Node) : (s.append n).place = s.place := by
  obtain ⟨stack, root, place⟩ := s
  cases stack <;> rfl

theorem enter_place (s : State) (opening : Opening) (closing : Closing) :
    (s.enter file opening closing).place = .content := by
  cases closing with
  | pair => rfl
  | selfClosing | void => exact append_place _ _

theorem Moves.phase_eq (h : Moves file token s s') :
    s'.place.phase = s.place.phase.after token.kind := by
  have hin {opening : Opening} (hp : s.place.opening? file = some opening) :
      s.place.phase = .tag ∨ s.place.phase = .named := by
    cases h : s.place with
    | tag => exact .inl rfl
    | named => exact .inr rfl
    | content | value =>
      rw [h] at hp
      cases hp
  cases h with
  | construct hp hn =>
    rw [append_place, hp]
    have hc := isContent_of_contentNode? hn
    cases hk : token.kind <;> simp_all [TokenKind.isContent, Phase.after, Place.phase]
  | opens hp hk | unquoted hp hk | valueStart hp hk | valueEnd hp hk | attr hp hk =>
    rw [hk]
    rfl
  | closes hp hk hs hn =>
    rw [append_place, hk]
    simp [hp, Place.phase, Phase.after]
  | stray hp hk => simp [hp, hk, Place.phase, Phase.after]
  | ends hp hk | selfCloses hp hk =>
    rw [enter_place, hk]
    rfl
  | inTag hp hk hn =>
    rcases hin hp with h | h <;> cases hk' : token.kind <;>
      simp_all [isAttrConstruct, Phase.after, Place.phase]
  | inValue hp hn =>
    have hc := isContent_of_contentNode? hn
    cases hk : token.kind <;> simp_all [TokenKind.isContent, Phase.after, Place.phase]

section Faults

variable {fault : Fault}

theorem contentNode?_eq_error {cause : ParseFault} {line : Nat}
    (h : contentNode? file token = .error (cause, line)) :
    ∃ name body reason, token.kind = .directive name (some body) ∧ token.line = line ∧
      Arguments.split body = .error reason ∧ cause = .malformedArguments name reason.text := by
  unfold contentNode? at h
  split at h
  · cases h
  · cases h
  · next name body hkind =>
    split at h
    · next reason hsplit =>
      cases h
      cases body with
      | none => cases hsplit
      | some body => exact ⟨name, body, reason, hkind, rfl, hsplit, rfl⟩
    · cases h
  · cases h
  · cases h
  · cases h

theorem contentNode?_ne_none (h : token.kind.isContent = true) :
    contentNode? file token ≠ .ok none := by
  intro hn
  unfold contentNode? at hn
  cases hk : token.kind with
  | raw | echo | slot | host =>
    rw [hk] at hn
    cases hn
  | directive name body =>
    rw [hk] at hn
    dsimp only at hn
    split at hn
    · cases hn
    · cases hn
  | tagOpen | attrName | valueStart | valueEnd | unquoted | tagEnd | selfClose | tagClose =>
    rw [hk] at h
    cases h

/-- How a step can fail: over the arguments of a directive, over the nesting of elements, or over a
token that may not come next. -/
inductive Fails (file : String) (token : Token) (p : Phase) : Fault → Prop
  | arguments {fault : Fault} (node : contentNode? file token = .error fault) :
      Fails file token p fault
  | nesting (name : String) (expected : Option String) :
      Fails file token p (.unexpectedClosing name expected, token.line)
  | misplaced {cause : ParseFault} (other : cause.ofArguments = false)
      (refused : p.allows token.kind = false) : Fails file token p (cause, token.line)

theorem isContent_eq_false (h : contentNode? file token = .ok none) :
    token.kind.isContent = false :=
  Bool.eq_false_iff.mpr fun hc => contentNode?_ne_none hc h

theorem contentStep_fails (h : contentStep file s token = .error fault) :
    Fails file token .content fault := by
  unfold contentStep at h
  split at h
  · cases h
  · split at h
    · split at h
      · cases h
      · split at h
        · cases h
        · cases h
          exact .nesting _ _
    · split at h
      · cases h
      · cases h
        exact .nesting _ _
  · split at h
    · next hnode =>
      cases h
      exact .arguments hnode
    · cases h
    · next hnone =>
      cases h
      refine .misplaced rfl ?_
      have hcontent := isContent_eq_false hnone
      cases hk : token.kind <;> simp_all [Phase.allows, TokenKind.isContent]

theorem tagStep_fails {opening : Opening} (h : tagStep file s opening token = .error fault) :
    Fails file token .tag fault := by
  unfold tagStep at h
  split at h
  · cases h
  · cases h
  · cases h
  · dsimp only at h
    split at h
    · split at h
      · next hnode =>
        cases h
        exact .arguments hnode
      · next hnone =>
        cases h
        refine .misplaced rfl ?_
        have hcontent := isContent_eq_false hnone
        cases hk : token.kind <;> simp_all [isAttrConstruct, TokenKind.isContent]
      · cases h
    · cases h
      refine .misplaced rfl ?_
      cases hk : token.kind <;> simp_all [Phase.allows, isAttrConstruct]

theorem step_fails (h : step file s token = .error fault) :
    Fails file token s.place.phase fault := by
  unfold step at h
  split at h
  · next hp => exact hp ▸ contentStep_fails h
  · next hp => exact hp ▸ tagStep_fails h
  · next hp =>
    rw [hp]
    split at h
    · cases h
    · cases h
    · cases tagStep_fails h with
      | arguments node => exact .arguments node
      | nesting name expected => exact .nesting name expected
      | misplaced other =>
        refine .misplaced other ?_
        cases hk : token.kind <;> simp_all [Phase.allows, Place.phase]
  · next hp =>
    rw [hp]
    split at h
    · cases h
    · split at h
      · next hnode =>
        cases h
        exact .arguments hnode
      · cases h
      · next hnone =>
        cases h
        refine .misplaced rfl ?_
        have hcontent := isContent_eq_false hnone
        cases hk : token.kind <;> simp_all [Phase.allows, Place.phase, TokenKind.isContent]

end Faults

end Parser

end Lamina
