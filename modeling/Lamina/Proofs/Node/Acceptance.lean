import Lamina.Proofs.Node.Marks

/-! The parser accepts the marks of trees and nothing else. What it holds at any time has the marks
of the tokens it has read, so no token is lost; and the marks of a tree lead it back to the tree.
Closing tags of void elements that stand among content leave no mark. -/

namespace Lamina

open Lamina.Text

namespace Parser

variable {file : String} {token : Token} {s s' : State} {rest : List Token}

def Opening.WrittenIn (file : String) (opening : Opening) : Prop :=
  ∀ a ∈ opening.attrs, a.WrittenIn file

def Place.WrittenIn (file : String) : Place → Prop
  | content => True
  | tag opening | named opening _ _ => opening.WrittenIn file
  | value opening _ _ _ nodes => opening.WrittenIn file ∧ ∀ n ∈ nodes, n.IsConstruct file

structure State.WrittenIn (file : String) (s : State) : Prop where
  root : ∀ n ∈ s.root, n.WrittenIn file
  stack : ∀ element ∈ s.stack, element.node.WrittenIn file
  place : s.place.WrittenIn file

def Open.marks (element : Open) : List Mark :=
  .here (.tagOpen element.name) element.origin ::
    (element.attrs.flatMap Attr.marks ++ .sign .tagEnd :: Node.marksAll element.children.reverse)

/-- The marks of open elements, the outermost first. -/
def Open.marksAll : List Open → List Mark
  | [] => []
  | element :: outer => marksAll outer ++ element.marks

def Opening.marks (opening : Opening) : List Mark :=
  .sited (.tagOpen opening.name) opening.start.line opening.start.grammar ::
    opening.attrs.reverse.flatMap Attr.marks

def Place.marks : Place → List Mark
  | content => []
  | tag opening => opening.marks
  | named opening name token =>
    opening.marks ++ [.sited (.attrName name) token.line token.grammar]
  | value opening name token quote nodes =>
    opening.marks ++ .sited (.attrName name) token.line token.grammar ::
      .sign (.valueStart quote) :: nodes.reverse.filterMap Node.mark?

def State.base (s : State) : List Mark :=
  Node.marksAll s.root.reverse ++ Open.marksAll s.stack

def State.marks (s : State) : List Mark := s.base ++ s.place.marks

theorem State.base_append (s : State) (n : Node) : (s.append n).base = s.base ++ n.marks := by
  obtain ⟨stack, root, place⟩ := s
  cases stack with
  | nil => simp [State.append, State.base, Open.marksAll, Node.marksAll_append, Node.marksAll]
  | cons element outer =>
    simp [State.append, State.base, Open.marksAll, Open.marks, Node.marksAll_append, Node.marksAll]

theorem Open.marks_node (element : Open) :
    element.node.marks = element.marks ++ [.closing element.name] := by
  simp [Open.node, Node.marks, Open.marks, Closing.ending]

theorem Opening.marks_add (opening : Opening) (name : String) (token : Token)
    (value : AttrValue Node) : (opening.add file name token value).marks =
      opening.marks ++ Attr.marks ⟨name, value, originOf file token "attr"⟩ := by
  simp [Opening.add, Opening.marks]

theorem Place.marks_of_opening? {place : Place} {opening : Opening}
    (h : place.opening? file = some opening) : place.marks = opening.marks := by
  cases place with
  | content | value => cases h
  | tag =>
    cases h
    rfl
  | named opening name token =>
    cases h
    rw [Opening.marks_add]
    rfl

theorem State.base_enter (s : State) (opening : Opening) (closing : Closing) :
    (s.enter file opening closing).base = s.base ++ opening.marks ++ [.sign closing.ending] := by
  cases closing with
  | pair =>
    simp [State.enter, State.base, Open.marksAll, Open.marks, Opening.marks, Node.marksAll,
      Closing.ending]
    rfl
  | selfClosing | void =>
    unfold State.enter
    dsimp only
    rw [State.base_append]
    simp [State.base, Node.marks, Opening.marks, Closing.ending]
    rfl

theorem State.WrittenIn.append (h : s.WrittenIn file) {n : Node} (hn : n.WrittenIn file) :
    (s.append n).WrittenIn file := by
  obtain ⟨stack, root, place⟩ := s
  cases stack with
  | nil => exact ⟨List.forall_mem_cons.mpr ⟨hn, h.root⟩, h.stack, h.place⟩
  | cons element outer =>
    obtain ⟨helement, houter⟩ := List.forall_mem_cons.mp h.stack
    refine ⟨h.root, List.forall_mem_cons.mpr ⟨?_, houter⟩, h.place⟩
    cases helement with
    | construct hc => cases hc
    | element site tagged suits inner =>
      refine .element site tagged suits ?_
      rw [List.reverse_cons]
      exact List.forall_mem_append.mpr ⟨inner, List.forall_mem_singleton.mpr hn⟩

theorem Opening.WrittenIn.add {opening : Opening} (h : opening.WrittenIn file) {name : String}
    {value : AttrValue Node}
    (hv : Attr.WrittenIn file ⟨name, value, originOf file token "attr"⟩) :
    (opening.add file name token value).WrittenIn file :=
  List.forall_mem_cons.mpr ⟨hv, h⟩

theorem Place.WrittenIn.opening {place : Place} {opening : Opening} (h : place.WrittenIn file)
    (ho : place.opening? file = some opening) : opening.WrittenIn file := by
  cases place with
  | content | value => cases ho
  | tag =>
    cases ho
    exact h
  | named =>
    cases ho
    exact Opening.WrittenIn.add h ⟨rfl, trivial⟩

theorem State.WrittenIn.enter (h : s.WrittenIn file) {opening : Opening}
    (ho : opening.WrittenIn file) {closing : Closing} (hc : closing.Suits opening.name []) :
    (s.enter file opening closing).WrittenIn file := by
  have hnode : Node.WrittenIn file (.tag opening.name opening.attrs.reverse [] closing
      (originOf file opening.start opening.name)) :=
    .element rfl (fun a ha => ho a (List.mem_reverse.mp ha)) hc (List.forall_mem_nil _)
  have hs : State.WrittenIn file { s with place := .content } := ⟨h.root, h.stack, trivial⟩
  cases closing with
  | pair => exact ⟨h.root, List.forall_mem_cons.mpr ⟨hnode, h.stack⟩, trivial⟩
  | selfClosing | void => exact hs.append hnode

theorem Moves.writtenIn (h : Moves file token s s') (hs : s.WrittenIn file) :
    s'.WrittenIn file := by
  cases h with
  | construct hp hn => exact hs.append (.construct (contentNode?_eq_some_iff.mp hn).1)
  | opens => exact ⟨hs.root, hs.stack, List.forall_mem_nil _⟩
  | @closes _ _ outer hp hk hstack =>
    have hall := hs.stack
    rw [hstack] at hall
    obtain ⟨helement, houter⟩ := List.forall_mem_cons.mp hall
    have hrest : State.WrittenIn file { s with stack := outer } := ⟨hs.root, houter, hs.place⟩
    exact hrest.append helement
  | stray => exact hs
  | attr hp => exact ⟨hs.root, hs.stack, hs.place.opening hp⟩
  | ends hp =>
    refine hs.enter (hs.place.opening hp) ?_
    split
    · next hv => exact ⟨hv, rfl⟩
    · next hv => exact Bool.eq_false_iff.mpr hv
  | selfCloses hp => exact hs.enter (hs.place.opening hp) rfl
  | inTag hp hk hn =>
    obtain ⟨hattr, hline, hgrammar⟩ := contentNode?_site hn
    have hconstruct := (contentNode?_eq_some_iff.mp hn).1
    exact ⟨hs.root, hs.stack, (hs.place.opening hp).add
      ⟨rfl, rfl, _, rfl, hconstruct, hattr.trans hk, hline, hgrammar⟩⟩
  | unquoted hp =>
    have hplace := hs.place
    rw [hp] at hplace
    exact ⟨hs.root, hs.stack, Opening.WrittenIn.add hplace ⟨rfl, trivial⟩⟩
  | valueStart hp =>
    have hplace := hs.place
    rw [hp] at hplace
    exact ⟨hs.root, hs.stack, hplace, List.forall_mem_nil _⟩
  | inValue hp hn =>
    have hplace := hs.place
    rw [hp] at hplace
    have hconstruct := (contentNode?_eq_some_iff.mp hn).1
    exact ⟨hs.root, hs.stack, hplace.1, List.forall_mem_cons.mpr ⟨hconstruct, hplace.2⟩⟩
  | valueEnd hp =>
    have hplace := hs.place
    rw [hp] at hplace
    exact ⟨hs.root, hs.stack, Opening.WrittenIn.add hplace.1
      ⟨rfl, fun n hn => hplace.2 n (List.mem_reverse.mp hn)⟩⟩

theorem Moves.marks_eq (h : Moves file token s s')
    (hstray : ¬(s.place.phase = .content ∧ token.kind.closesVoid = true)) :
    s'.marks = s.marks ++ [token.mark] := by
  cases h with
  | construct hp hn =>
    obtain ⟨hconstruct, hmark⟩ := contentNode?_eq_some_iff.mp hn
    simp [State.marks, append_place, hp, State.base_append, Place.marks, hconstruct.marks, hmark]
  | opens hp hk =>
    simp [State.marks, State.base, hp, Place.marks, Opening.marks, Token.mark, hk]
  | @closes name element outer hp hk hstack hn =>
    have hbase : s.base = State.base { s with stack := outer } ++ element.marks := by
      simp [State.base, hstack, Open.marksAll]
    rw [State.marks, append_place, State.base_append, State.marks, hbase, Open.marks_node, hp]
    simp [Place.marks, Token.mark, hk, Mark.closing, sameName_iff.mp hn]
  | stray hp hk hv =>
    refine absurd ⟨?_, ?_⟩ hstray
    · rw [hp]
      rfl
    · rw [hk]
      exact hv
  | attr hp hk =>
    rw [State.marks, State.marks, Place.marks_of_opening? hp]
    simp [State.base, Place.marks, Token.mark, hk]
  | ends hp hk =>
    rw [State.marks, enter_place, State.base_enter, State.marks, Place.marks_of_opening? hp]
    split <;> simp [Place.marks, Token.mark, hk, Closing.ending]
  | selfCloses hp hk =>
    rw [State.marks, enter_place, State.base_enter, State.marks, Place.marks_of_opening? hp]
    simp [Place.marks, Token.mark, hk, Closing.ending]
  | inTag hp hk hn =>
    have hmark := (contentNode?_eq_some_iff.mp hn).2
    rw [State.marks, State.marks, Place.marks_of_opening? hp]
    simp [State.base, Place.marks, Opening.marks_add, Attr.marks, hmark]
  | valueStart hp hk => simp [State.marks, State.base, hp, Place.marks, Token.mark, hk]
  | inValue hp hn =>
    have hmark := (contentNode?_eq_some_iff.mp hn).2
    simp [State.marks, State.base, hp, Place.marks, hmark]
  | unquoted hp hk | valueEnd hp hk =>
    simp [State.marks, State.base, hp, Place.marks, Opening.marks_add, Attr.marks, Token.mark, hk]
    rfl

theorem moves_of_stray (hs : s.WrittenIn file)
    (hstray : s.place.phase = .content ∧ token.kind.closesVoid = true) : Moves file token s s := by
  obtain ⟨hphase, hcloses⟩ := hstray
  have hp : s.place = .content := by
    cases h : s.place with
    | content => rfl
    | tag | named | value =>
      rw [h] at hphase
      cases hphase
  obtain ⟨name, hk, hv⟩ : ∃ name, token.kind = .tagClose name ∧ isVoidElement name = true := by
    cases hk : token.kind <;> simp_all [TokenKind.closesVoid]
  refine .stray hp hk hv fun element helement => ?_
  have hopen : isVoidElement element.name = false := by
    cases hs.stack element (List.mem_of_mem_head? helement) with
    | construct hc => cases hc
    | element _ _ suits => exact suits
  by_contra hn
  have hsame := isVoidElement_of_sameName (Bool.not_eq_false _ ▸ hn)
  rw [hopen, hv] at hsame
  cases hsame

theorem marks_of_run {nodes : List Node} {tokens : List Token} (hs : s.WrittenIn file)
    (h : run file s tokens = .ok nodes) : (∀ n ∈ nodes, n.WrittenIn file) ∧
      Node.marksAll nodes =
        s.marks ++ (Token.withoutStrays s.place.phase tokens).map Token.mark := by
  induction tokens generalizing s with
  | nil =>
    obtain ⟨hp, hstack, rfl⟩ := finish_eq_ok h
    refine ⟨fun n hn => hs.root n (List.mem_reverse.mp hn), ?_⟩
    simp [State.marks, State.base, hp, hstack, Place.marks, Open.marksAll, Token.withoutStrays]
  | cons token rest ih =>
    rw [Token.withoutStrays]
    by_cases hstray : s.place.phase = .content ∧ token.kind.closesVoid = true
    · rw [run_of_moves (moves_of_stray hs hstray)] at h
      rw [if_pos hstray]
      exact ih hs h
    · rw [run] at h
      split at h
      · cases h
      · next s' hstep =>
        have hmoves := step_moves hstep
        obtain ⟨hnodes, hmarks⟩ := ih (hmoves.writtenIn hs) h
        refine ⟨hnodes, ?_⟩
        rw [if_neg hstray, hmarks, hmoves.marks_eq hstray, hmoves.phase_eq]
        simp

theorem run_of_run_withoutStrays {nodes : List Node} {tokens : List Token} (hs : s.WrittenIn file)
    (h : run file s (Token.withoutStrays s.place.phase tokens) = .ok nodes) :
    run file s tokens = .ok nodes := by
  induction tokens generalizing s with
  | nil => exact h
  | cons token rest ih =>
    rw [Token.withoutStrays] at h
    by_cases hstray : s.place.phase = .content ∧ token.kind.closesVoid = true
    · rw [if_pos hstray] at h
      rw [run_of_moves (moves_of_stray hs hstray)]
      exact ih hs h
    · rw [if_neg hstray, run] at h
      rw [run]
      split at h
      · cases h
      · next s' hstep =>
        have hmoves := step_moves hstep
        rw [← hmoves.phase_eq] at h
        exact ih (hmoves.writtenIn hs) h

theorem run_value {opening : Opening} {name : String} {named : Token} {quote : Char}
    {nodes more : List Node} (hp : s.place = .value opening name named quote nodes)
    (hm : ∀ n ∈ more, n.IsConstruct file) {tokens : List Token}
    (ht : tokens.map Token.mark = more.filterMap Node.mark?) (rest : List Token) :
    run file s (tokens ++ rest) =
      run file { s with place := .value opening name named quote (more.reverse ++ nodes) } rest := by
  induction more generalizing s nodes tokens with
  | nil =>
    cases List.map_eq_nil_iff.mp ht
    rw [List.reverse_nil, List.nil_append, List.nil_append, ← hp]
  | cons n more ih =>
    obtain ⟨hn, hmore⟩ := List.forall_mem_cons.mp hm
    obtain ⟨mark, hmark⟩ := hn.mark?
    rw [List.filterMap_cons_some hmark] at ht
    obtain ⟨token, tokens, rfl, rfl, htokens⟩ := List.map_eq_cons_iff.mp ht
    have hnode := contentNode?_eq_some_iff.mpr ⟨hn, hmark⟩
    rw [List.cons_append, run_of_moves (.inValue hp hnode), ih rfl hmore htokens]
    simp

theorem run_attr {a : Attr Node} (ha : a.WrittenIn file) {opening : Opening}
    (hp : s.place.opening? file = some opening) {tokens : List Token}
    (ht : tokens.map Token.mark = a.marks) (rest : List Token) :
    ∃ place, place.opening? file = some { opening with attrs := a :: opening.attrs } ∧
      run file s (tokens ++ rest) = run file { s with place } rest := by
  obtain ⟨name, value, o⟩ := a
  obtain ⟨ho, hvalue⟩ := ha
  have hadd {value : AttrValue Node} {token : Token} (hl : token.line = o.line)
      (hg : token.grammar = o.site.grammar) : opening.add file name token value =
        { opening with attrs := ⟨name, value, o⟩ :: opening.attrs } := by
    rw [Opening.add, originOf_eq ho hl hg]
  cases value with
  | bare =>
    obtain ⟨token, _, rfl, hname, ht⟩ := List.map_eq_cons_iff.mp ht
    cases List.map_eq_nil_iff.mp ht
    obtain ⟨hk, hl, hg⟩ := Token.mark_eq_sited hname
    exact ⟨.named opening name token, congrArg some (hadd hl hg), run_of_moves (.attr hp hk)⟩
  | unquoted text =>
    obtain ⟨token, _, rfl, hname, ht⟩ := List.map_eq_cons_iff.mp ht
    obtain ⟨value, _, rfl, htext, ht⟩ := List.map_eq_cons_iff.mp ht
    cases List.map_eq_nil_iff.mp ht
    obtain ⟨hk, hl, hg⟩ := Token.mark_eq_sited hname
    have hv := Token.mark_eq_sign htext (by simp)
    refine ⟨.tag (opening.add file name token (.unquoted text)), congrArg some (hadd hl hg), ?_⟩
    exact (run_of_moves (.attr hp hk)).trans (run_of_moves (.unquoted rfl hv))
  | quoted quote nodes =>
    obtain ⟨token, _, rfl, hname, ht⟩ := List.map_eq_cons_iff.mp ht
    obtain ⟨start, _, rfl, hstart, ht⟩ := List.map_eq_cons_iff.mp ht
    obtain ⟨inner, _, rfl, hinner, ht⟩ := List.map_eq_append_iff.mp ht
    obtain ⟨last, _, rfl, hlast, ht⟩ := List.map_eq_cons_iff.mp ht
    cases List.map_eq_nil_iff.mp ht
    obtain ⟨hk, hl, hg⟩ := Token.mark_eq_sited hname
    have hstart := Token.mark_eq_sign hstart (by simp)
    have hlast := Token.mark_eq_sign hlast (by simp)
    refine ⟨.tag (opening.add file name token (.quoted quote nodes)), congrArg some (hadd hl hg), ?_⟩
    rw [List.cons_append, run_of_moves (.attr hp hk), List.cons_append,
      run_of_moves (.valueStart rfl hstart), List.append_assoc, run_value rfl hvalue hinner,
      List.singleton_append, run_of_moves (.valueEnd rfl hlast)]
    simp
  | dynamic nodes =>
    obtain ⟨rfl, n, rfl, hn, hattr, hline, hgrammar⟩ := hvalue
    obtain ⟨mark, hmark⟩ := hn.mark?
    replace ht : tokens.map Token.mark = [n].filterMap Node.mark? := ht
    rw [List.filterMap_cons_some hmark] at ht
    obtain ⟨token, _, rfl, rfl, hnil⟩ := List.map_eq_cons_iff.mp ht
    cases List.map_eq_nil_iff.mp hnil
    have hnode := contentNode?_eq_some_iff.mpr ⟨hn, hmark⟩
    obtain ⟨hkind, hl, hg⟩ := contentNode?_site hnode
    refine ⟨.tag (opening.add file "" token (.dynamic [n])), congrArg some ?_,
      run_of_moves (.inTag hp (hkind.symm.trans hattr) hnode)⟩
    exact hadd (hl.symm.trans hline) (hg.symm.trans hgrammar)

theorem run_attrs {attrs : List (Attr Node)} (ha : ∀ a ∈ attrs, a.WrittenIn file)
    {opening : Opening} (hp : s.place.opening? file = some opening) {tokens : List Token}
    (ht : tokens.map Token.mark = attrs.flatMap Attr.marks) (rest : List Token) :
    ∃ place,
      place.opening? file = some { opening with attrs := attrs.reverse ++ opening.attrs } ∧
      run file s (tokens ++ rest) = run file { s with place } rest := by
  induction attrs generalizing s opening tokens with
  | nil =>
    cases List.map_eq_nil_iff.mp ht
    exact ⟨s.place, hp, rfl⟩
  | cons a attrs ih =>
    obtain ⟨first, last, rfl, hfirst, hlast⟩ := List.map_eq_append_iff.mp ht
    obtain ⟨hhead, htail⟩ := List.forall_mem_cons.mp ha
    obtain ⟨place, hplace, hrun⟩ := run_attr hhead hp hfirst (last ++ rest)
    obtain ⟨place', hplace', hrun'⟩ := ih (s := { s with place }) htail hplace hlast
    refine ⟨place', ?_, ?_⟩
    · simpa using hplace'
    · rw [List.append_assoc, hrun, hrun']

theorem foldl_append_cons {element : Open} {outer : List Open} {root nodes : List Node} :
    nodes.foldl State.append ⟨element :: outer, root, .content⟩ =
      ⟨{ element with children := nodes.reverse ++ element.children } :: outer, root, .content⟩ := by
  induction nodes generalizing element with
  | nil => rfl
  | cons n nodes ih =>
    rw [List.foldl_cons, State.append]
    dsimp only
    rw [ih]
    simp

theorem foldl_append_nil {root nodes : List Node} :
    nodes.foldl State.append ⟨[], root, .content⟩ = ⟨[], nodes.reverse ++ root, .content⟩ := by
  induction nodes generalizing root with
  | nil => rfl
  | cons n nodes ih =>
    rw [List.foldl_cons, State.append]
    dsimp only
    rw [ih]
    simp

def Read (file : String) (n : Node) : Prop :=
  ∀ (s : State) (tokens rest : List Token), s.place = .content → tokens.map Token.mark = n.marks →
    run file s (tokens ++ rest) = run file (s.append n) rest

theorem run_nodes {nodes : List Node} (hn : ∀ n ∈ nodes, Read file n) (hp : s.place = .content)
    {tokens : List Token} (ht : tokens.map Token.mark = Node.marksAll nodes) (rest : List Token) :
    run file s (tokens ++ rest) = run file (nodes.foldl State.append s) rest := by
  induction nodes generalizing s tokens with
  | nil =>
    cases List.map_eq_nil_iff.mp ht
    rfl
  | cons n nodes ih =>
    obtain ⟨first, last, rfl, hfirst, hlast⟩ := List.map_eq_append_iff.mp ht
    obtain ⟨hhead, htail⟩ := List.forall_mem_cons.mp hn
    rw [List.append_assoc, hhead s first _ hp hfirst, List.foldl_cons]
    exact ih htail ((append_place s n).trans hp) hlast

theorem read_of_writtenIn {n : Node} (h : n.WrittenIn file) : Read file n := by
  -- On the tree: the tokens of an element split into its tag, its children and its closing tag.
  induction h with
  | @construct n hn =>
    intro s tokens rest hp ht
    obtain ⟨mark, hmark⟩ := hn.mark?
    rw [hn.marks, hmark] at ht
    obtain ⟨token, _, rfl, rfl, hnil⟩ := List.map_eq_cons_iff.mp ht
    cases List.map_eq_nil_iff.mp hnil
    exact run_of_moves (.construct hp (contentNode?_eq_some_iff.mpr ⟨hn, hmark⟩))
  | @element name attrs children closing o ho hattrs hsuits _ ih =>
    rintro ⟨stack, root, _⟩ tokens rest rfl ht
    obtain ⟨start, _, rfl, hstart, ht⟩ := List.map_eq_cons_iff.mp ht
    obtain ⟨inner, _, rfl, hinner, ht⟩ := List.map_eq_append_iff.mp ht
    obtain ⟨ending, more, rfl, hending, ht⟩ := List.map_eq_cons_iff.mp ht
    obtain ⟨hk, hl, hg⟩ := Token.mark_eq_sited hstart
    have hend := Token.mark_eq_sign hending (by cases closing <;> simp [Closing.ending])
    have horigin : originOf file start name = o := originOf_eq ho hl hg
    have hopened : ∃ place, place.opening? file = some ⟨name, start, attrs.reverse⟩ ∧
        run file ⟨stack, root, .content⟩ (start :: (inner ++ ending :: more) ++ rest) =
          run file ⟨stack, root, place⟩ (ending :: (more ++ rest)) := by
      have hattrs := run_attrs (s := ⟨stack, root, .tag ⟨name, start, []⟩⟩) hattrs rfl hinner
        (ending :: (more ++ rest))
      obtain ⟨place, hplace, hrun⟩ := hattrs
      refine ⟨place, by simpa using hplace, ?_⟩
      rw [List.cons_append, run_of_moves (.opens rfl hk), List.append_assoc]
      exact hrun
    obtain ⟨place, hplace, hrun⟩ := hopened
    rw [hrun]
    cases closing with
    | selfClosing =>
      cases hsuits
      cases List.map_eq_nil_iff.mp ht
      rw [run_of_moves (.selfCloses hplace hend)]
      simp [State.enter, horigin]
    | void =>
      obtain ⟨hv, rfl⟩ := hsuits
      cases List.map_eq_nil_iff.mp ht
      rw [run_of_moves (.ends hplace hend)]
      simp [State.enter, horigin, hv]
    | pair =>
      replace hsuits : isVoidElement name = false := hsuits
      obtain ⟨content, _, rfl, hcontent, ht⟩ := List.map_eq_append_iff.mp ht
      obtain ⟨close, _, rfl, hclose, ht⟩ := List.map_eq_cons_iff.mp ht
      cases List.map_eq_nil_iff.mp ht
      obtain ⟨name', hk', hsame⟩ := Token.mark_eq_closing hclose
      have henter : State.enter file ⟨stack, root, place⟩ ⟨name, start, attrs.reverse⟩ .pair =
          ⟨⟨name, attrs, [], o⟩ :: stack, root, .content⟩ := by
        simp [State.enter, horigin]
      rw [run_of_moves (.ends hplace hend), if_neg (by simp [hsuits]), henter, List.append_assoc,
        run_nodes ih rfl hcontent, foldl_append_cons, List.singleton_append,
        run_of_moves (.closes rfl hk' rfl hsame)]
      simp [Open.node]

end Parser

namespace Node

/-- Parsing gives the tree whose marks are the marks of the tokens, and it fails if there is none.
Closing tags of void elements have no say where content stands. -/
theorem ofTokens_eq_ok_iff_marks (file source : String) (tokens : List Token) (root : Node) :
    ofTokens file source tokens = .ok root ↔
      ∃ nodes, root = rootOf file nodes ∧ (∀ n ∈ nodes, n.WrittenIn file) ∧
        marksAll nodes = (Token.withoutStrays .content tokens).map Token.mark := by
  have hstart : Parser.State.start.WrittenIn file :=
    ⟨List.forall_mem_nil _, List.forall_mem_nil _, trivial⟩
  constructor
  · intro h
    rw [ofTokens] at h
    split at h
    · cases h
    · next nodes hrun =>
      cases h
      obtain ⟨hnodes, hmarks⟩ := Parser.marks_of_run hstart hrun
      exact ⟨nodes, rfl, hnodes, hmarks⟩
  · rintro ⟨nodes, rfl, hnodes, hmarks⟩
    have hread : ∀ n ∈ nodes, Parser.Read file n := fun n hn =>
      Parser.read_of_writtenIn (hnodes n hn)
    have hrun := Parser.run_nodes (s := .start) hread rfl hmarks.symm []
    rw [List.append_nil, Parser.State.start, Parser.foldl_append_nil, List.append_nil] at hrun
    have hall : Parser.run file .start tokens = .ok nodes := by
      refine Parser.run_of_run_withoutStrays hstart (hrun.trans ?_)
      simp [Parser.run, Parser.finish]
    rw [ofTokens, hall]

def anchor : Node := .tag "a" [] [] .pair (.of "t.stm" 1 .html "a")

/-- The closing tag of a void element inside of an opening tag. -/
def closedInTag : List Token :=
  [⟨.tagOpen "a", "<a", 0, 1, .html⟩, ⟨.tagClose "br", "</br>", 2, 1, .html⟩,
    ⟨.tagEnd, ">", 7, 1, .html⟩, ⟨.tagClose "a", "</a>", 8, 1, .html⟩]

/-- Among the parts of a tag a closing tag is not passed over, whatever element it names. -/
theorem closing_tag_in_tag_is_refused :
    ¬(ofTokens "t.stm" "" closedInTag = .ok (rootOf "t.stm" [anchor]) ↔
      ∃ nodes, rootOf "t.stm" [anchor] = rootOf "t.stm" nodes ∧
        (∀ n ∈ nodes, n.WrittenIn "t.stm") ∧
        marksAll nodes =
          (closedInTag.filter fun token => !token.kind.closesVoid).map Token.mark) := by
  intro h
  have hrefused : (ofTokens "t.stm" "" closedInTag).toOption.isNone = true := by decide +kernel
  have hpair : isVoidElement "a" = false := by decide +kernel
  have hnode : anchor.WrittenIn "t.stm" :=
    .element rfl (List.forall_mem_nil _) hpair (List.forall_mem_nil _)
  have hmarks : marksAll [anchor] =
      (closedInTag.filter fun token => !token.kind.closesVoid).map Token.mark := by
    decide +kernel
  rw [h.mpr ⟨[anchor], rfl, List.forall_mem_singleton.mpr hnode, hmarks⟩] at hrefused
  cases hrefused

end Node

end Lamina
