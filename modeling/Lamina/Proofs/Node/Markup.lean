import Lamina.Proofs.Chunk.Printing
import Lamina.Proofs.Node.Moves
import Lamina.Proofs.Token.Spelling

/-! Markup survives parsing. What the parser holds at any time writes the tokens it has read, so the
tree of a source of markup alone writes the source again, white space and the case of letters
apart. -/

namespace Lamina

open Lamina.Text

def Writes (emitted : Except Failure (List Output)) (t : List Char) : Prop :=
  ∃ pieces : List (String × Origin), emitted = .ok (pieces.map fun p => .text p.1 p.2) ∧
    essence (Printed.joined pieces).toList = t

/-- A closing tag of an element that has none. -/
def TokenKind.closesVoid : TokenKind → Bool
  | tagClose name => isVoidElement name
  | _ => false

def Closing.mark : Closing → List Char
  | pair | void => ['>']
  | selfClosing => ['/', '>']

namespace Node

variable {name text : String} {attrs : List (Attr Node)} {children : List Node} {o : Origin}
  {s t : List Char}

theorem snoc_eq_ok {α : Type} (f : α → Except Failure (List Output))
    (each : List α → Except Failure (List Output)) (hnil : each [] = .ok [])
    (hcons : ∀ x xs, each (x :: xs) = do
      let first ← f x
      let rest ← each xs
      return first ++ rest)
    {xs : List α} {x : α} {a b : List Output} (hxs : each xs = .ok a) (hx : f x = .ok b) :
    each (xs ++ [x]) = .ok (a ++ b) := by
  induction xs generalizing a with
  | nil =>
    cases hnil.symm.trans hxs
    rw [List.nil_append, hcons, hx, hnil, List.nil_append]
    exact congrArg Except.ok (List.append_nil b)
  | cons y xs ih =>
    rw [hcons] at hxs
    obtain ⟨first, hfirst, hxs⟩ := bind_eq_ok.mp hxs
    obtain ⟨rest, hrest, hxs⟩ := bind_eq_ok.mp hxs
    cases hxs
    rw [List.cons_append, hcons, hfirst, ih hrest, List.append_assoc]
    rfl

theorem writes_nil : Writes (emitAll .all []) [] := ⟨[], rfl, rfl⟩

theorem writes_noAttrs : Writes (emitAttrs .all []) [] := ⟨[], rfl, rfl⟩

theorem writes_snoc {nodes : List Node} {n : Node} (h : Writes (emitAll .all nodes) s)
    (hn : Writes (n.emit .all) t) : Writes (emitAll .all (nodes ++ [n])) (s ++ t) := by
  obtain ⟨first, hfirst, rfl⟩ := h
  obtain ⟨last, hlast, rfl⟩ := hn
  refine ⟨first ++ last, ?_, by simp [Printed.joined]⟩
  rw [List.map_append]
  exact snoc_eq_ok (emit .all) (emitAll .all) rfl (fun _ _ => rfl) hfirst hlast

theorem writes_snocAttr {a : Attr Node} (h : Writes (emitAttrs .all attrs) s)
    (ha : Writes (emitAttr .all a) t) : Writes (emitAttrs .all (attrs ++ [a])) (s ++ t) := by
  obtain ⟨first, hfirst, rfl⟩ := h
  obtain ⟨last, hlast, rfl⟩ := ha
  refine ⟨first ++ last, ?_, by simp [Printed.joined]⟩
  rw [List.map_append]
  exact snoc_eq_ok (emitAttr .all) (emitAttrs .all) rfl (fun _ _ => rfl) hfirst hlast

theorem writes_raw : Writes ((raw text o).emit .all) (essence text.toList) :=
  ⟨[(text, o)], rfl, by simp [Printed.joined]⟩

theorem writes_bare : Writes (emitAttr .all ⟨name, .bare, o⟩) (essence name.toList) :=
  ⟨[(" " ++ name, o)], rfl, by simp [Printed.joined]⟩

theorem writes_unquoted : Writes (emitAttr .all ⟨name, .unquoted text, o⟩)
    (essence name.toList ++ essence ('=' :: text.toList)) :=
  ⟨[(" " ++ name ++ "=" ++ text, o)], rfl, by simp [Printed.joined]⟩

theorem writes_quoted {quote : Char} {nodes : List Node} (h : Writes (emitAll .all nodes) t) :
    Writes (emitAttr .all ⟨name, .quoted quote nodes, o⟩)
      (essence name.toList ++ essence ['=', quote] ++ t ++ essence [quote]) := by
  obtain ⟨inner, hinner, rfl⟩ := h
  refine ⟨(" " ++ name ++ "=" ++ String.singleton quote, o) :: inner ++
    [(String.singleton quote, o)], ?_, ?_⟩
  · rw [emitAttr, hinner]
    simp [bind, Except.bind, pure, Except.pure]
  · simp [Printed.joined]

theorem writes_childless (h : Writes (emitAttrs .all attrs) s) {closing : Closing}
    (hc : closing ≠ .pair) : Writes ((tag name attrs [] closing o).emit .all)
      (essence ('<' :: name.toList) ++ s ++ essence closing.mark) := by
  obtain ⟨as, has, rfl⟩ := h
  refine ⟨("<" ++ name, o) :: as ++ [(String.ofList closing.mark, o)], ?_, by simp [Printed.joined]⟩
  rw [emit, has]
  cases closing with
  | pair => exact absurd rfl hc
  | selfClosing | void =>
    simp [bind, Except.bind, pure, Except.pure, Renderers.all]
    rfl

theorem writes_pair (ha : Writes (emitAttrs .all attrs) s) (hc : Writes (emitAll .all children) t) :
    Writes ((tag name attrs children .pair o).emit .all)
      (essence ('<' :: name.toList) ++ s ++ essence ['>'] ++ t ++
        essence ("</".toList ++ name.toList ++ ['>'])) := by
  obtain ⟨as, has, rfl⟩ := ha
  obtain ⟨inner, hinner, rfl⟩ := hc
  refine ⟨("<" ++ name, o) :: as ++ (">", o) :: inner ++ [("</" ++ name ++ ">", o)], ?_, ?_⟩
  · rw [emit, has, hinner]
    simp [bind, Except.bind, pure, Except.pure, Renderers.all]
  · simp [Printed.joined]

end Node

namespace Parser

open Node

def Opening.Writes (opening : Opening) (t : List Char) : Prop :=
  ∃ a, Lamina.Writes (emitAttrs .all opening.attrs.reverse) a ∧
    t = essence ('<' :: opening.name.toList) ++ a

def Open.Writes (element : Open) (t : List Char) : Prop :=
  ∃ a c, Lamina.Writes (emitAttrs .all element.attrs) a ∧
    Lamina.Writes (emitAll .all element.children.reverse) c ∧
    t = essence ('<' :: element.name.toList) ++ a ++ essence ['>'] ++ c

inductive StackWrites : List Open → List Char → Prop
  | nil : StackWrites [] []
  | cons {element : Open} {outer : List Open} {s t : List Char} (below : StackWrites outer s)
      (top : element.Writes t) : StackWrites (element :: outer) (s ++ t)

def Place.Writes : Place → List Char → Prop
  | content, t => t = []
  | tag opening, t => opening.Writes t
  | named opening name _, t => ∃ s, opening.Writes s ∧ t = s ++ essence name.toList
  | value opening name _ quote nodes, t =>
    ∃ s v, opening.Writes s ∧ Lamina.Writes (emitAll .all nodes.reverse) v ∧
      t = s ++ essence name.toList ++ essence ['=', quote] ++ v

def State.Base (s : State) (t : List Char) : Prop :=
  ∃ r k, Lamina.Writes (emitAll .all s.root.reverse) r ∧ StackWrites s.stack k ∧ t = r ++ k

def State.Writes (s : State) (t : List Char) : Prop :=
  ∃ b p, s.Base b ∧ s.place.Writes p ∧ t = b ++ p

def Place.quote? : Place → Option Char
  | value _ _ _ quote _ => some quote
  | content | tag _ | named .. => none

variable {file : String} {s s' : State} {token : Token} {t u : List Char}

theorem State.Base.append (h : s.Base t) {n : Node} (hn : Lamina.Writes (n.emit .all) u) :
    (s.append n).Base (t ++ u) := by
  obtain ⟨stack, root, place⟩ := s
  obtain ⟨r, k, hr, hk, rfl⟩ := h
  cases hk with
  | nil =>
    have hroot := writes_snoc hr hn
    rw [← List.reverse_cons] at hroot
    exact ⟨r ++ u, [], hroot, .nil, by simp⟩
  | cons below top =>
    obtain ⟨a, c, ha, hc, rfl⟩ := top
    have hchildren := writes_snoc hc hn
    rw [← List.reverse_cons] at hchildren
    exact ⟨r, _, hr, .cons below ⟨a, c ++ u, ha, hchildren, rfl⟩, by simp⟩

theorem Opening.Writes.add {opening : Opening} (h : opening.Writes t) {name : String}
    {value : AttrValue Node} {o : Origin} (hv : Lamina.Writes (emitAttr .all ⟨name, value, o⟩) u) :
    Opening.Writes { opening with attrs := ⟨name, value, o⟩ :: opening.attrs } (t ++ u) := by
  obtain ⟨a, ha, rfl⟩ := h
  have hattrs := writes_snocAttr ha hv
  rw [← List.reverse_cons] at hattrs
  exact ⟨a ++ u, hattrs, by simp⟩

theorem State.Base.enter (h : s.Base t) (file : String) {opening : Opening}
    (ho : opening.Writes u) (closing : Closing) :
    (s.enter file opening closing).Writes (t ++ u ++ essence closing.mark) ∧
      (s.enter file opening closing).place = .content := by
  obtain ⟨a, ha, rfl⟩ := ho
  by_cases hpair : closing = .pair
  · subst hpair
    obtain ⟨r, k, hr, hk, rfl⟩ := h
    have htop : Open.Writes ⟨opening.name, opening.attrs.reverse, [],
        originOf file opening.start opening.name⟩ _ := ⟨a, [], ha, writes_nil, rfl⟩
    refine ⟨⟨_, [], ⟨r, _, hr, .cons hk htop, rfl⟩, rfl, ?_⟩, rfl⟩
    simp [Closing.mark]
  · have hbase : State.Base { s with place := .content } t := h
    let node : Node := .tag opening.name opening.attrs.reverse [] closing
      (originOf file opening.start opening.name)
    have hnode : (State.append { s with place := .content } node).Base _ :=
      hbase.append (writes_childless ha hpair)
    have henter : s.enter file opening closing =
        State.append { s with place := .content } node := by
      cases closing with
      | pair => exact absurd rfl hpair
      | selfClosing | void => rfl
    have hplace (n : Node) : (State.append { s with place := .content } n).place = .content := by
      obtain ⟨stack, root, place⟩ := s
      cases stack <;> rfl
    rw [henter]
    refine ⟨⟨_, [], hnode, ?_, by simp⟩, hplace _⟩
    rw [hplace]
    rfl

theorem State.Base.writes (h : s.Base t) (hp : s.place = .content) : s.Writes t :=
  ⟨t, [], h, hp ▸ rfl, by simp⟩

theorem State.Base.close (h : s.Base t) {element : Open} {outer : List Open}
    (hs : s.stack = element :: outer) {name : String} (hn : sameName element.name name = true) :
    State.Base (State.append { s with stack := outer } (.tag element.name element.attrs
      element.children.reverse .pair element.origin))
      (t ++ essence ("</".toList ++ name.toList ++ ['>'])) := by
  obtain ⟨r, k, hr, hk, rfl⟩ := h
  rw [hs] at hk
  cases hk with
  | @cons _ _ below top hbelow htop =>
    obtain ⟨a, c, ha, hc, rfl⟩ := htop
    have houter : State.Base { s with stack := outer } (r ++ below) := ⟨r, below, hr, hbelow, rfl⟩
    have hclosed := houter.append (n := .tag element.name element.attrs element.children.reverse
      .pair element.origin) (writes_pair ha hc)
    rw [essence_append, essence_append, essence_of_sameName hn] at hclosed
    simpa using hclosed

theorem State.Base.opening? {p : List Char} (hp : s.place.Writes p) {opening : Opening}
    (ho : s.place.opening? file = some opening) : opening.Writes p ∧ s.place.quote? = none := by
  cases hplace : s.place with
  | content | value =>
    rw [hplace] at ho
    cases ho
  | tag =>
    rw [hplace] at ho hp
    cases ho
    exact ⟨hp, rfl⟩
  | named =>
    rw [hplace] at ho hp
    cases ho
    obtain ⟨u, hu, rfl⟩ := hp
    exact ⟨hu.add writes_bare, rfl⟩

theorem raw_of_contentNode? (hm : token.kind.isMarkup = true) {n : Node}
    (h : contentNode? file token = .ok (some n)) :
    token.kind = .raw ∧ n = .raw token.text (originOf file token "raw") := by
  unfold contentNode? at h
  cases hk : token.kind with
  | raw =>
    rw [hk] at h
    cases h
    exact ⟨rfl, rfl⟩
  | tagOpen | attrName | valueStart | valueEnd | unquoted | tagEnd | selfClose | tagClose =>
    rw [hk] at h
    cases h
  | echo | directive | slot | host =>
    rw [hk] at hm
    cases hm

/-- A step over markup writes what its token spells, and knows the open quote. -/
theorem Moves.writes (h : Moves file token s s') (hs : s.Writes t)
    (hm : token.kind.isMarkup = true) (hv : token.kind.closesVoid = false) :
    s'.Writes (t ++ essence (token.kind.spelling s.place.quote? token.text.toList)) ∧
      s'.place.quote? = token.kind.quoteAfter s.place.quote? := by
  obtain ⟨b, p, hb, hp, rfl⟩ := hs
  cases h with
  | construct place node =>
    obtain ⟨hk, rfl⟩ := raw_of_contentNode? hm node
    rw [place] at hp
    cases hp
    rw [List.append_nil, hk, append_place, place]
    exact ⟨(hb.append writes_raw).writes ((append_place _ _).trans place), rfl⟩
  | opens place kind =>
    rw [place] at hp
    cases hp
    rw [kind, place]
    exact ⟨⟨b, _, hb, ⟨[], writes_noAttrs, rfl⟩, by simp [TokenKind.spelling]⟩, rfl⟩
  | @closes _ element outer place kind stack same =>
    rw [place] at hp
    cases hp
    have hplace := (append_place { s with stack := outer } element.node).trans place
    rw [List.append_nil, kind]
    exact ⟨(hb.close stack same).writes hplace, by rw [hplace, place]; rfl⟩
  | stray _ kind void =>
    rw [kind] at hv
    cases void.symm.trans hv
  | attr place kind =>
    obtain ⟨ho, hquote⟩ := State.Base.opening? hp place
    rw [kind, hquote]
    exact ⟨⟨b, _, hb, ⟨p, ho, rfl⟩, by simp [TokenKind.spelling]⟩, rfl⟩
  | @ends opening place kind =>
    obtain ⟨ho, hquote⟩ := State.Base.opening? hp place
    obtain ⟨hw, hcontent⟩ := hb.enter file ho (if isVoidElement opening.name then .void else .pair)
    rw [kind, hquote, hcontent]
    refine ⟨?_, rfl⟩
    by_cases hvoid : isVoidElement opening.name = true
    · simpa [hvoid, Closing.mark, TokenKind.spelling] using hw
    · simpa [hvoid, Closing.mark, TokenKind.spelling] using hw
  | selfCloses place kind =>
    obtain ⟨ho, hquote⟩ := State.Base.opening? hp place
    obtain ⟨hw, hcontent⟩ := hb.enter file ho .selfClosing
    rw [kind, hquote, hcontent]
    exact ⟨hw, rfl⟩
  | inTag _ kind node =>
    rw [(raw_of_contentNode? hm node).1] at kind
    cases kind
  | unquoted place kind =>
    rw [place] at hp
    obtain ⟨u, hu, rfl⟩ := hp
    rw [kind, place]
    exact ⟨⟨b, _, hb, hu.add writes_unquoted, by simp [TokenKind.spelling]⟩, rfl⟩
  | valueStart place kind =>
    rw [place] at hp
    obtain ⟨u, hu, rfl⟩ := hp
    rw [kind, place]
    exact ⟨⟨b, _, hb, ⟨u, [], hu, writes_nil, rfl⟩, by simp [TokenKind.spelling]⟩, rfl⟩
  | inValue place node =>
    obtain ⟨hk, rfl⟩ := raw_of_contentNode? hm node
    rw [place] at hp
    obtain ⟨u, v, hu, hvalue, rfl⟩ := hp
    have hmore := writes_snoc hvalue (n := .raw token.text (originOf file token "raw")) writes_raw
    rw [← List.reverse_cons] at hmore
    rw [hk, place]
    exact ⟨⟨b, _, hb, ⟨u, _, hu, hmore, rfl⟩, by simp [TokenKind.spelling]⟩, rfl⟩
  | valueEnd place kind =>
    rw [place] at hp
    obtain ⟨u, v, hu, hvalue, rfl⟩ := hp
    rw [kind, place]
    exact ⟨⟨b, _, hb, hu.add (writes_quoted hvalue), by simp [TokenKind.spelling, Place.quote?]⟩, rfl⟩

theorem run_writes {tokens : List Token} (h : s.Writes t)
    (hm : ∀ token ∈ tokens, token.kind.isMarkup = true)
    (hv : ∀ token ∈ tokens, token.kind.closesVoid = false)
    {nodes : List Node} (hr : run file s tokens = .ok nodes) :
    Lamina.Writes (emitAll .all nodes) (t ++ essence (Token.spelled s.place.quote? tokens)) := by
  induction tokens generalizing s t with
  | nil =>
    obtain ⟨hplace, hstack, rfl⟩ := finish_eq_ok hr
    obtain ⟨b, p, ⟨r, k, hroot, hk, rfl⟩, hp, rfl⟩ := h
    rw [hplace] at hp
    cases hp
    rw [hstack] at hk
    cases hk
    simpa [Token.spelled] using hroot
  | cons token rest ih =>
    obtain ⟨s', hmoves, hr⟩ := run_cons_eq_ok hr
    obtain ⟨hmt, hmr⟩ := List.forall_mem_cons.mp hm
    obtain ⟨hvt, hvr⟩ := List.forall_mem_cons.mp hv
    obtain ⟨hw, hq⟩ := hmoves.writes h hmt hvt
    have hrest := ih hw hmr hvr hr
    rw [Token.spelled, essence_append, ← List.append_assoc, ← hq]
    exact hrest

end Parser

namespace Printed

theorem ofOutput_texts (pieces : List (String × Origin)) :
    ofOutput (pieces.map fun p => .text p.1 p.2) = stretch pieces := by
  induction pieces with
  | nil => rfl
  | cons p pieces ih => rw [List.map_cons, ofOutput, ih, text, stretch_append_stretch]; rfl

theorem content_written (pieces : List (String × Origin)) :
    joined pieces = "" ∧ Output.content ((written pieces).map Prod.fst) = "" ∨
      Output.content ((written pieces).map Prod.fst) =
        "__write(\"" ++ Output.escape (joined pieces) ++ "\")\n" := by
  rw [written]
  cases hfind : pieces.find? (·.1 ≠ "") with
  | none => exact .inl ⟨Output.joined_eq_empty hfind, rfl⟩
  | some first =>
    refine .inr ?_
    dsimp only
    rw [List.map_cons, List.map_nil, Output.content_eq_joinLines (by simp), Program.joinLines_cons]
    simp [Program.joinLines, String.append_assoc]

end Printed

namespace Node

/-- The tree of a source of markup alone compiles to at most one line, and the text that this line
writes is the source, white space and the case of letters apart. -/
theorem markup_survives {source file : String} (hs : Static source.toList)
    (hv : ∀ tokens, Token.lex .html source file = .ok tokens →
      ∀ token ∈ tokens, token.kind.closesVoid = false)
    {root : Node} (h : parse source file = .ok root) (paths : List String) :
    ∃ chunk text, root.compile .all paths = .ok chunk ∧
      essence text.toList = essence source.toList ∧
      (text = "" ∧ chunk.content = "" ∨
        ∃ inside, chunk.content = "__write(\"" ++ inside ++ "\")\n" ∧
          Script.Token.Denotes inside text) := by
  rw [parse] at h
  split at h
  · cases h
  · next tokens hlex =>
    obtain ⟨hessence, hmarkup⟩ := Token.lex_spelled hs hlex
    rw [ofTokens] at h
    split at h
    · cases h
    · next nodes hrun =>
      cases h
      have hstart : Parser.State.start.Writes [] := ⟨[], [], ⟨[], [], writes_nil, .nil, rfl⟩, rfl, rfl⟩
      obtain ⟨pieces, hemit, hjoined⟩ := Parser.run_writes hstart hmarkup (hv tokens hlex) hrun
      have hcompile : (rootOf file nodes).compile .all paths =
          .ok (Chunk.ofOutput paths (pieces.map fun p => .text p.1 p.2)) := by
        rw [compile, rootOf, emit, if_pos (by rfl), hemit]
        rfl
      refine ⟨_, Printed.joined pieces, hcompile, hjoined.trans hessence.symm, ?_⟩
      have hcontent : (Chunk.ofOutput paths (pieces.map fun p => .text p.1 p.2)).content =
          Output.content ((Printed.written pieces).map Prod.fst) := by
        rw [Chunk.ofOutput, Output.lines_eq_print, Printed.ofOutput_texts]
        rfl
      rw [hcontent]
      exact (Printed.content_written pieces).imp_right fun hline =>
        ⟨_, hline, Output.denotes_escape _⟩

/-- A page with attributes of all kinds, a void element, a comment and a raw element. -/
def staticPage : String :=
  "<P Class = 'a b' x=1/2 y>T<br>\n<!-- c --><I/></p >\n<script>if (a </b) x()</SCRIPT>"

set_option maxRecDepth 100000 in
theorem markup_survives_page :
    Static staticPage.toList ∧ ∃ root, parse staticPage "page.stm" = .ok root ∧
      ∃ chunk text, root.compile .all ["page.stm"] = .ok chunk ∧
        essence text.toList = essence staticPage.toList ∧
        (text = "" ∧ chunk.content = "" ∨
          ∃ inside, chunk.content = "__write(\"" ++ inside ++ "\")\n" ∧
            Script.Token.Denotes inside text) := by
  have hs : Static staticPage.toList :=
    ⟨by decide +kernel, by decide +kernel, by decide +kernel, by decide +kernel⟩
  have hclosing : (Token.lex .html staticPage "page.stm").toOption.all
      (List.all · (!·.kind.closesVoid)) = true := by decide +kernel
  have hparse : (parse staticPage "page.stm").toOption.isSome = true := by decide +kernel
  obtain ⟨root, hroot⟩ := Option.isSome_iff_exists.mp hparse
  have hroot := eq_ok_of_toOption hroot
  refine ⟨hs, root, hroot, markup_survives hs (fun tokens hlex token htoken => ?_) hroot _⟩
  rw [hlex] at hclosing
  have hall : tokens.all (!·.kind.closesVoid) = true := hclosing
  simpa using List.all_eq_true.mp hall token htoken

end Node

end Lamina
