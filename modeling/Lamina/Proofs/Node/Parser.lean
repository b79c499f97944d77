import Lamina.Proofs.Node.Moves
import Lamina.Proofs.Node.Origins
import Lamina.Proofs.Token.Faults

/-! A parsed tree lies in its file: every token puts nodes into the tree with origins in the file
that is being parsed, on the line of the token, and nothing else puts origins there. Where parsing
fails, it does on the line of a token as well. -/

namespace Lamina

namespace Parser

/-- The tag starts with a token of the property `T`, and every origin among the attributes read so
far has the property `P`. -/
structure Opening.Sited (T : Token → Prop) (P : Origin → Prop) (opening : Opening) : Prop where
  start : T opening.start
  attrs : ∀ a ∈ opening.attrs, a.Sited P

/-- Every token that is kept in the place has the property `T`, and every origin in it `P`. -/
def Place.Sited (T : Token → Prop) (P : Origin → Prop) : Place → Prop
  | content => True
  | tag opening => opening.Sited T P
  | named opening _ token => opening.Sited T P ∧ T token
  | value opening _ token _ nodes => opening.Sited T P ∧ T token ∧ ∀ n ∈ nodes, n.Sited P

structure Open.Sited (P : Origin → Prop) (element : Open) : Prop where
  origin : P element.origin
  attrs : ∀ a ∈ element.attrs, a.Sited P
  children : ∀ c ∈ element.children, c.Sited P

structure State.Sited (T : Token → Prop) (P : Origin → Prop) (s : State) : Prop where
  stack : ∀ element ∈ s.stack, element.Sited P
  root : ∀ n ∈ s.root, n.Sited P
  place : s.place.Sited T P

variable {T : Token → Prop} {P : Origin → Prop} {file : String} {s s' : State} {token : Token}

theorem State.Sited.withPlace (h : s.Sited T P) {place : Place} (hp : place.Sited T P) :
    State.Sited T P { s with place } :=
  ⟨h.stack, h.root, hp⟩

theorem State.Sited.append (h : s.Sited T P) {n : Node} (hn : n.Sited P) :
    (s.append n).Sited T P := by
  obtain ⟨stack, root, place⟩ := s
  cases stack with
  | nil => exact ⟨h.stack, List.forall_mem_cons.mpr ⟨hn, h.root⟩, h.place⟩
  | cons element outer =>
    obtain ⟨he, ho⟩ := List.forall_mem_cons.mp h.stack
    have he' : Open.Sited P { element with children := n :: element.children } :=
      ⟨he.origin, he.attrs, List.forall_mem_cons.mpr ⟨hn, he.children⟩⟩
    exact ⟨List.forall_mem_cons.mpr ⟨he', ho⟩, h.root, h.place⟩

section

variable (hP : ∀ token, T token → ∀ label, P (originOf file token label))
include hP

theorem contentNode?_sited (ht : T token) {n : Node} (h : contentNode? file token = .ok (some n)) :
    n.Sited P := by
  rw [contentNode?] at h
  split at h
  · cases h
    exact Node.sited_of_leaf rfl (hP _ ht _)
  · cases h
    exact Node.sited_of_leaf rfl (hP _ ht _)
  · split at h
    · cases h
    · cases h
      exact Node.sited_of_leaf rfl (hP _ ht _)
  · next name content _ =>
    cases h
    refine Node.sited_iff.mpr ⟨hP _ ht _, List.forall_mem_nil _, ?_⟩
    cases content with
    | none => exact List.forall_mem_nil _
    | some text => exact List.forall_mem_singleton.mpr (Node.sited_of_leaf rfl (hP _ ht _))
  · cases h
    exact Node.sited_of_leaf rfl (hP _ ht _)
  · cases h

theorem Opening.Sited.add {opening : Opening} (h : opening.Sited T P) (name : String)
    (ht : T token) {value : AttrValue Node} (hv : ∀ c ∈ value.inner, c.Sited P) :
    (opening.add file name token value).Sited T P :=
  ⟨h.start, List.forall_mem_cons.mpr ⟨⟨hP _ ht _, hv⟩, h.attrs⟩⟩

theorem State.Sited.enter (h : s.Sited T P) {opening : Opening} (ho : opening.Sited T P)
    (closing : Closing) : (s.enter file opening closing).Sited T P := by
  have hattrs : ∀ a ∈ opening.attrs.reverse, a.Sited P :=
    fun a ha => ho.attrs a (List.mem_reverse.mp ha)
  have hs : State.Sited T P { s with place := .content } := h.withPlace trivial
  cases closing with
  | pair =>
    refine ⟨List.forall_mem_cons.mpr ⟨?_, hs.stack⟩, hs.root, hs.place⟩
    exact ⟨hP _ ho.start _, hattrs, List.forall_mem_nil _⟩
  | selfClosing | void =>
    exact hs.append (Node.sited_iff.mpr ⟨hP _ ho.start _, hattrs, List.forall_mem_nil _⟩)

theorem State.Sited.opening? (h : s.Sited T P) {opening : Opening}
    (ho : s.place.opening? file = some opening) : opening.Sited T P := by
  have hplace := h.place
  cases hp : s.place with
  | content | value =>
    rw [hp] at ho
    cases ho
  | tag =>
    rw [hp] at ho hplace
    cases ho
    exact hplace
  | named =>
    rw [hp] at ho hplace
    cases ho
    exact hplace.1.add hP _ hplace.2 (List.forall_mem_nil _)

theorem Moves.sited (h : Moves file token s s') (hs : s.Sited T P) (ht : T token) :
    s'.Sited T P := by
  have hplace := hs.place
  cases h with
  | construct _ node => exact hs.append (contentNode?_sited hP ht node)
  | opens => exact hs.withPlace ⟨ht, List.forall_mem_nil _⟩
  | @closes _ element outer _ _ stack =>
    obtain ⟨he, ho⟩ := List.forall_mem_cons.mp (stack ▸ hs.stack)
    have houter : State.Sited T P { s with stack := outer } := ⟨ho, hs.root, hs.place⟩
    refine houter.append (Node.sited_iff.mpr ⟨he.origin, he.attrs, ?_⟩)
    exact fun c hc => he.children c (List.mem_reverse.mp hc)
  | stray => exact hs
  | attr place => exact hs.withPlace ⟨hs.opening? hP place, ht⟩
  | ends place | selfCloses place => exact hs.enter hP (hs.opening? hP place) _
  | inTag place _ node =>
    have hinner := List.forall_mem_singleton.mpr (contentNode?_sited hP ht node)
    exact hs.withPlace ((hs.opening? hP place).add hP "" ht hinner)
  | unquoted place =>
    rw [place] at hplace
    exact hs.withPlace (hplace.1.add hP _ hplace.2 (List.forall_mem_nil _))
  | valueStart place =>
    rw [place] at hplace
    exact hs.withPlace ⟨hplace.1, hplace.2, List.forall_mem_nil _⟩
  | inValue place node =>
    rw [place] at hplace
    have hnodes := List.forall_mem_cons.mpr ⟨contentNode?_sited hP ht node, hplace.2.2⟩
    exact hs.withPlace ⟨hplace.1, hplace.2.1, hnodes⟩
  | valueEnd place =>
    rw [place] at hplace
    refine hs.withPlace (hplace.1.add hP _ hplace.2.1 ?_)
    exact fun c hc => hplace.2.2 c (List.mem_reverse.mp hc)

theorem run_sited {tokens : List Token} {nodes : List Node} (h : s.Sited T P)
    (ht : ∀ t ∈ tokens, T t) (hr : run file s tokens = .ok nodes) : ∀ n ∈ nodes, n.Sited P := by
  induction tokens generalizing s with
  | nil =>
    obtain ⟨-, -, rfl⟩ := finish_eq_ok hr
    exact fun n hn => h.root n (List.mem_reverse.mp hn)
  | cons token rest ih =>
    rw [List.forall_mem_cons] at ht
    obtain ⟨s', hmoves, hr⟩ := run_cons_eq_ok hr
    exact ih (hmoves.sited hP h ht.1) ht.2 hr

end

section Faults

variable {fault : Fault}

theorem Fails.line_eq {p : Phase} (h : Fails file token p fault) : fault.2 = token.line := by
  cases h with
  | arguments node =>
    obtain ⟨_, _, _, -, hline, -, -⟩ := contentNode?_eq_error node
    exact hline.symm
  | nesting | misplaced => rfl

variable {F : Nat → Prop} (hT : ∀ token, T token → F token.line) (hF : ∀ o, P o → F o.line)
include hT hF

theorem finish_fault (h : s.Sited T P) (hs : finish s = .error fault) : F fault.2 := by
  have hplace := h.place
  rw [finish] at hs
  split at hs
  · next opening he =>
    rw [he] at hplace
    cases hs
    exact hT _ hplace.start
  · next opening name token he =>
    rw [he] at hplace
    cases hs
    exact hT _ hplace.1.start
  · next opening name token quote nodes he =>
    rw [he] at hplace
    cases hs
    exact hT _ hplace.2.1
  · split at hs
    · next element outer hstack =>
      cases hs
      exact hF _ (h.stack element (hstack ▸ List.mem_cons_self)).origin
    · cases hs

theorem run_fault (hP : ∀ token, T token → ∀ label, P (originOf file token label))
    {tokens : List Token} (h : s.Sited T P) (ht : ∀ t ∈ tokens, T t)
    (hr : run file s tokens = .error fault) : F fault.2 := by
  induction tokens generalizing s with
  | nil => exact finish_fault hT hF h hr
  | cons token rest ih =>
    rw [List.forall_mem_cons] at ht
    rw [run] at hr
    split at hr
    · next hs =>
      cases hr
      rw [(step_fails hs).line_eq]
      exact hT _ ht.1
    · next hs => exact ih ((step_moves hs).sited hP h ht.1) ht.2 hr

end Faults

theorem State.sited_start (T : Token → Prop) (P : Origin → Prop) : State.start.Sited T P :=
  ⟨List.forall_mem_nil _, List.forall_mem_nil _, trivial⟩

end Parser

/-- A construct of the file itself, not pulled in by a reference. -/
def Origin.WrittenIn (file : String) (o : Origin) : Prop := o.path = file ∧ o.via = []

def Origin.OnLineOf (source file : String) (o : Origin) : Prop :=
  o.WrittenIn file ∧ Text.IsLine source o.line

namespace Node

variable {source file : String}

theorem parse_onLine {root : Node} (h : parse source file = .ok root) :
    root.Sited (Origin.OnLineOf source file) := by
  obtain ⟨tokens, nodes, hlex, hr, rfl⟩ := exists_of_parse h
  have hstart := Parser.State.sited_start (fun t => Text.IsLine source t.line)
    (Origin.OnLineOf source file)
  have hnodes := Parser.run_sited (fun _ ht _ => ⟨⟨rfl, rfl⟩, ht⟩) hstart
    (fun _ => Token.isLine_of_mem_lex hlex) hr
  have hfirst : Text.IsLine source 1 := ⟨le_refl 1, Nat.le_add_right 1 _⟩
  exact sited_iff.mpr ⟨⟨⟨rfl, rfl⟩, hfirst⟩, List.forall_mem_nil _, hnodes⟩

theorem parse_sited {root : Node} (h : parse source file = .ok root) :
    root.Sited (Origin.WrittenIn file) :=
  (parse_onLine h).imp fun _ ho => ho.1

theorem parse_fault {failure : Failure} (h : parse source file = .error failure) :
    Token.lex .html source file = .error failure ∨
      ∃ fault line snippet, failure = .parse fault file line snippet ∧ Text.IsLine source line := by
  rw [parse] at h
  split at h
  · next hlex =>
    cases h
    exact .inl hlex
  · next tokens hlex =>
    rw [ofTokens] at h
    split at h
    · next fault line hr =>
      cases h
      have hstart := Parser.State.sited_start (fun t => Text.IsLine source t.line)
        (Origin.OnLineOf source file)
      have hline := Parser.run_fault (F := Text.IsLine source) (fun _ ht => ht) (fun _ ho => ho.2)
        (fun _ ht _ => ⟨⟨rfl, rfl⟩, ht⟩) hstart (fun _ => Token.isLine_of_mem_lex hlex) hr
      exact .inr ⟨fault, line, _, rfl, hline⟩
    · cases h

end Node

end Lamina
