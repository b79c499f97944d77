import Lamina.Proofs.Node.Markup

/-! What a tree shows of the tokens it was read from. A tree lists its marks in the order of the
document: opening tags with their attributes, what they hold, closing tags. `Node.WrittenIn` says
which trees stand for a document of one file. -/

namespace Lamina

open Lamina.Text

/-- A name as closing tags are compared. -/
def foldName (name : String) : String := String.ofList (name.toList.map Char.toLower)

theorem sameName_iff {a b : String} : sameName a b = true ↔ foldName a = foldName b := by
  simp [sameName, foldName, String.ofList_inj]

theorem isVoidElement_of_sameName {a b : String} (h : sameName a b = true) :
    isVoidElement a = isVoidElement b := by
  have hsame (name : String) : sameName name a = sameName name b := by
    rw [Bool.eq_iff_iff, sameName_iff, sameName_iff, sameName_iff.mp h]
  simp only [isVoidElement, hsame]

/-- What of a token shows in a tree: its kind, for literal text the text, and the place of a token
that something in the tree has its origin at. -/
inductive Mark
  | literal (text : String) (line : Nat) (grammar : Grammar)
  | sited (kind : TokenKind) (line : Nat) (grammar : Grammar)
  | sign (kind : TokenKind)
  deriving DecidableEq

namespace Mark

def here (kind : TokenKind) (o : Origin) : Mark := sited kind o.line o.site.grammar

def closing (name : String) : Mark := sign (.tagClose (foldName name))

end Mark

namespace Token

variable {token : Token} {kind : TokenKind} {text : String} {line : Nat} {grammar : Grammar}

def mark (token : Token) : Mark :=
  match token.kind with
  | .raw => .literal token.text token.line token.grammar
  | .valueStart _ | .valueEnd | .unquoted _ | .tagEnd | .selfClose => .sign token.kind
  | .tagClose name => .closing name
  | .tagOpen _ | .attrName _ | .echo .. | .directive .. | .slot .. | .host _ =>
    .sited token.kind token.line token.grammar

/-- The tokens without the closing tags of void elements that stand among content. -/
def withoutStrays (p : Phase) : List Token → List Token
  | [] => []
  | token :: rest =>
    if p = .content ∧ token.kind.closesVoid = true then withoutStrays p rest
    else token :: withoutStrays (p.after token.kind) rest

theorem mark_eq_literal (h : token.mark = .literal text line grammar) :
    token.kind = .raw ∧ token.text = text ∧ token.line = line ∧ token.grammar = grammar := by
  cases hk : token.kind <;> simp_all [mark, Mark.closing]

theorem mark_eq_sited (h : token.mark = .sited kind line grammar) :
    token.kind = kind ∧ token.line = line ∧ token.grammar = grammar := by
  cases hk : token.kind <;> simp_all [mark, Mark.closing]

theorem mark_eq_closing {name : String} (h : token.mark = .closing name) :
    ∃ name', token.kind = .tagClose name' ∧ sameName name name' = true := by
  cases hk : token.kind <;> simp_all [mark, Mark.closing, sameName_iff]

theorem mark_eq_sign (h : token.mark = .sign kind) (hc : ∀ name, kind ≠ .tagClose name) :
    token.kind = kind := by
  cases hk : token.kind with
  | tagClose name =>
    rw [mark, hk] at h
    exact absurd (Mark.sign.inj h).symm (hc _)
  | _ => simp_all [mark]

end Token

/-- The origin of what is written in the file, under this label. -/
def Origin.WrittenAs (file label : String) (o : Origin) : Prop :=
  o = .of file o.line o.site.grammar label

def Closing.ending : Closing → TokenKind
  | pair | void => .tagEnd
  | selfClosing => .selfClose

/-- An element is void for its name if its tag just ends; it holds something only between two tags. -/
def Closing.Suits (name : String) (children : List Node) : Closing → Prop
  | pair => isVoidElement name = false
  | void => isVoidElement name = true ∧ children = []
  | selfClosing => children = []

namespace Node

/-- Constructs that are one token each. -/
def IsConstruct (file : String) : Node → Prop
  | raw _ o => o.WrittenAs file "raw"
  | echo _ escape o => o.WrittenAs file (if escape then "\x7b\x7b" else "\x7b!!")
  | directive name values body o =>
    o.WrittenAs file ("@" ++ name) ∧ body.elim (.ok []) Arguments.split = .ok values
  | block name children o =>
    o.WrittenAs file ("$\x7b" ++ name ++ "\x7d") ∧ (children = [] ∨ ∃ text, children = [raw text o])
  | host _ o => o.WrittenAs file "<?lua"
  | template .. | tag .. | stack .. | push .. | fragment .. => False

def mark? : Node → Option Mark
  | raw text o => some (.literal text o.line o.site.grammar)
  | echo expr escape o => some (.here (.echo expr escape) o)
  | directive name _ body o => some (.here (.directive name body) o)
  | block name [] o => some (.here (.slot name none) o)
  | block name [raw text _] o => some (.here (.slot name (some text)) o)
  | host code o => some (.here (.host code) o)
  | block .. | template .. | tag .. | stack .. | push .. | fragment .. => none

/-- Constructs that may stand in place of an attribute. -/
def isAttrConstruct : Node → Bool
  | echo .. | directive .. | host .. => true
  | _ => false

end Node

namespace Attr

def WrittenIn (file : String) (a : Attr Node) : Prop :=
  a.origin.WrittenAs file "attr" ∧
    match a.value with
    | .bare | .unquoted _ => True
    | .quoted _ nodes => ∀ n ∈ nodes, n.IsConstruct file
    | .dynamic nodes => a.name = "" ∧ ∃ n, nodes = [n] ∧ n.IsConstruct file ∧
      n.isAttrConstruct = true ∧ n.origin.line = a.origin.line ∧
      n.origin.site.grammar = a.origin.site.grammar

def marks (a : Attr Node) : List Mark :=
  match a.value with
  | .bare => [.here (.attrName a.name) a.origin]
  | .unquoted text => [.here (.attrName a.name) a.origin, .sign (.unquoted text)]
  | .quoted quote nodes =>
    .here (.attrName a.name) a.origin :: .sign (.valueStart quote) ::
      (nodes.filterMap Node.mark? ++ [.sign .valueEnd])
  | .dynamic nodes => nodes.filterMap Node.mark?

end Attr

namespace Node

/-- The trees that stand for a document of one file. -/
inductive WrittenIn (file : String) : Node → Prop
  | construct {n : Node} (single : n.IsConstruct file) : WrittenIn file n
  | element {name : String} {attrs : List (Attr Node)} {children : List Node} {closing : Closing}
      {o : Origin} (site : o.WrittenAs file name) (tagged : ∀ a ∈ attrs, a.WrittenIn file)
      (suits : closing.Suits name children) (inner : ∀ n ∈ children, WrittenIn file n) :
      WrittenIn file (tag name attrs children closing o)

mutual

/-- The marks of a tree in the order of the document. -/
def marks : Node → List Mark
  | tag name attrs children closing o =>
    .here (.tagOpen name) o :: (attrs.flatMap Attr.marks ++ .sign closing.ending ::
      match closing with
      | .pair => marksAll children ++ [.closing name]
      | .selfClosing | .void => [])
  | n => n.mark?.toList

def marksAll : List Node → List Mark
  | [] => []
  | n :: rest => n.marks ++ marksAll rest

end

theorem marksAll_append (first last : List Node) :
    marksAll (first ++ last) = marksAll first ++ marksAll last := by
  induction first with
  | nil => rfl
  | cons n rest ih => rw [List.cons_append, marksAll, marksAll, ih, List.append_assoc]

theorem IsConstruct.marks {file : String} {n : Node} (h : n.IsConstruct file) :
    n.marks = n.mark?.toList := by
  cases n with
  | tag => cases h
  | _ => rfl

theorem IsConstruct.mark? {file : String} {n : Node} (h : n.IsConstruct file) :
    ∃ mark, n.mark? = some mark := by
  cases n with
  | raw | echo | directive | host => exact ⟨_, rfl⟩
  | block =>
    rcases h with ⟨-, rfl | ⟨text, rfl⟩⟩
    · exact ⟨_, rfl⟩
    · exact ⟨_, rfl⟩
  | template | tag | stack | push | fragment => cases h

end Node

namespace Parser

variable {file : String} {token : Token} {n : Node}

theorem originOf_eq {label : String} {o : Origin} (h : o.WrittenAs file label)
    (hl : token.line = o.line) (hg : token.grammar = o.site.grammar) :
    originOf file token label = o := by
  rw [originOf, hl, hg]
  exact h.symm

theorem contentNode?_eq_some_iff :
    contentNode? file token = .ok (some n) ↔ n.IsConstruct file ∧ n.mark? = some token.mark := by
  constructor
  · intro h
    unfold contentNode? at h
    split at h
    · next hk =>
      cases h
      exact ⟨rfl, by rw [Token.mark, hk]; rfl⟩
    · next hk =>
      cases h
      exact ⟨rfl, by rw [Token.mark, hk]; rfl⟩
    · next hk =>
      split at h
      · cases h
      · next hvalues =>
        cases h
        exact ⟨⟨rfl, hvalues⟩, by rw [Token.mark, hk]; rfl⟩
    · next name content hk =>
      cases h
      cases content with
      | none => exact ⟨⟨rfl, .inl rfl⟩, by rw [Token.mark, hk]; rfl⟩
      | some text => exact ⟨⟨rfl, .inr ⟨text, rfl⟩⟩, by rw [Token.mark, hk]; rfl⟩
    · next hk =>
      cases h
      exact ⟨rfl, by rw [Token.mark, hk]; rfl⟩
    · cases h
  · rintro ⟨hn, hmark⟩
    cases n with
    | raw text o =>
      obtain ⟨hk, ht, hl, hg⟩ := Token.mark_eq_literal (Option.some.inj hmark).symm
      simp only [contentNode?, hk, ht, originOf_eq hn hl hg]
    | directive name values body o =>
      obtain ⟨hk, hl, hg⟩ := Token.mark_eq_sited (Option.some.inj hmark).symm
      simp only [contentNode?, hk, hn.2, originOf_eq hn.1 hl hg]
    | echo | host =>
      obtain ⟨hk, hl, hg⟩ := Token.mark_eq_sited (Option.some.inj hmark).symm
      simp only [contentNode?, hk, originOf_eq hn hl hg]
    | block name children o =>
      rcases hn with ⟨ho, rfl | ⟨text, rfl⟩⟩
      · obtain ⟨hk, hl, hg⟩ := Token.mark_eq_sited (Option.some.inj hmark).symm
        simp only [contentNode?, hk, originOf_eq ho hl hg]
        rfl
      · obtain ⟨hk, hl, hg⟩ := Token.mark_eq_sited (Option.some.inj hmark).symm
        simp only [contentNode?, hk, originOf_eq ho hl hg]
        rfl
    | template | tag | stack | push | fragment => cases hn

theorem contentNode?_site (h : contentNode? file token = .ok (some n)) :
    n.isAttrConstruct = isAttrConstruct token.kind ∧ n.origin.line = token.line ∧
      n.origin.site.grammar = token.grammar := by
  unfold contentNode? at h
  split at h
  · next hk =>
    cases h
    exact ⟨by rw [hk]; rfl, rfl, rfl⟩
  · next hk =>
    cases h
    exact ⟨by rw [hk]; rfl, rfl, rfl⟩
  · next hk =>
    split at h
    · cases h
    · cases h
      exact ⟨by rw [hk]; rfl, rfl, rfl⟩
  · next hk =>
    cases h
    exact ⟨by rw [hk]; rfl, rfl, rfl⟩
  · next hk =>
    cases h
    exact ⟨by rw [hk]; rfl, rfl, rfl⟩
  · cases h

end Parser

end Lamina
