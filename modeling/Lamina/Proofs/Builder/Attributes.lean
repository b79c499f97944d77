import Lamina.Proofs.Builder.Carrying
import Lamina.Proofs.Node.Attributes

/-! The attributes of a page. However the text of a quoted attribute came there, it is printed
between the quotes as it is; so it can be read back if it does not look like anything but text. -/

namespace Lamina

open Lamina.Text

theorem Printed.toList_joined_append (a b : List (String × Origin)) :
    (joined (a ++ b)).toList = (joined a).toList ++ (joined b).toList := by
  simp [joined]

namespace Node

def Spells (emitted : Except Failure (List Output)) (text : List Char) : Prop :=
  ∃ pieces : List (String × Origin), emitted = .ok (pieces.map fun p => .text p.1 p.2) ∧
    (Printed.joined pieces).toList = text

theorem spells_emitAll {nodes : List Node}
    (hn : ∀ n ∈ nodes, ∀ text, n.literal? = some text → Spells (n.emit .all) text)
    {text : List Char} (h : literalAll? nodes = some text) : Spells (emitAll .all nodes) text := by
  induction nodes generalizing text with
  | nil =>
    cases h
    exact ⟨[], rfl, rfl⟩
  | cons n nodes ih =>
    obtain ⟨hfirst, hrest⟩ := List.forall_mem_cons.mp hn
    obtain ⟨a, b, ha, hb, rfl⟩ := literalAll?_cons_eq_some h
    obtain ⟨first, hemit, hjoined⟩ := hfirst a ha
    obtain ⟨more, hemits, hmore⟩ := ih hrest hb
    refine ⟨first ++ more, ?_, ?_⟩
    · rw [emitAll, hemit, hemits, List.map_append]
      rfl
    · rw [Printed.toList_joined_append, hjoined, hmore]

theorem spells_emit (n : Node) {text : List Char} (h : n.literal? = some text) :
    Spells (n.emit .all) text := by
  induction n using byParts generalizing text with
  | parts n _ ih =>
    cases n with
    | raw content o =>
      cases h
      exact ⟨[(content, o)], rfl, by simp [Printed.joined]⟩
    | block name children o => exact spells_emitAll (fun c hc text ht => ih c hc ht) h
    | template | tag | directive | echo | host | stack | push | fragment => cases h

theorem spells_emitAttr (name : String) (quote : Char) (o : Origin) {nodes : List Node}
    {text : List Char} (h : literalAll? nodes = some text) :
    Spells (emitAttr .all ⟨name, .quoted quote nodes, o⟩)
      (' ' :: (name.toList ++ '=' :: quote :: (text ++ [quote]))) := by
  obtain ⟨inner, hinner, rfl⟩ := spells_emitAll (fun n _ _ => spells_emit n) h
  refine ⟨(" " ++ name ++ "=" ++ String.singleton quote, o) :: inner ++
    [(String.singleton quote, o)], ?_, ?_⟩
  · rw [emitAttr, hinner]
    simp [bind, Except.bind, pure, Except.pure]
  · simp [Printed.joined]

/-- What an attribute with literal text prints is read back exactly if nothing in it is taken for
anything else. -/
theorem readsAs_emitAttr_iff {a : Attr Node} {quote : Char} {nodes : List Node} {text : List Char}
    (hv : a.value = .quoted quote nodes) (htext : literalAll? nodes = some text)
    (hq : Scan.isQuote quote = true) (hkey : Lexer.IsAttrName a.name.toList)
    (hquote : quote ∉ text) :
    ∃ pieces : List (String × Origin), emitAttr .all a = .ok (pieces.map fun p => .text p.1 p.2) ∧
      (Printed.joined pieces).toList =
        ' ' :: (a.name.toList ++ '=' :: quote :: (text ++ [quote])) ∧
      ∀ element file : String, Lexer.IsElement element.toList →
        (ReadsAs ("<" ++ element ++ Printed.joined pieces ++ "/>") file element a.name text ↔
          ¬ Lexer.StartsDirective a.name.toList ∧ Lexer.Free quote text) := by
  obtain ⟨name, value, o⟩ := a
  cases hv
  obtain ⟨pieces, hemit, hjoined⟩ := spells_emitAttr name quote o htext
  refine ⟨pieces, hemit, hjoined, fun element file he => ?_⟩
  have hsource : "<" ++ element ++ Printed.joined pieces ++ "/>" =
      String.ofList (Lexer.written element.toList name.toList quote text) := by
    rw [← String.toList_inj, String.toList_ofList]
    simp [hjoined, Lexer.written]
  rw [hsource]
  exact readsAs_iff he hkey hq hquote file

def quotedTexts (n : Node) : List (String × Char × List Char) :=
  (n.nodes.flatMap attrs).filterMap fun a =>
    match a.value with
    | .quoted quote nodes => (literalAll? nodes).map (a.name, quote, ·)
    | _ => none

theorem exists_of_mem_quotedTexts {n : Node} {name : String} {quote : Char} {text : List Char}
    (h : (name, quote, text) ∈ n.quotedTexts) : ∃ x ∈ n.nodes, ∃ a ∈ x.attrs, ∃ nodes,
      a.name = name ∧ a.value = .quoted quote nodes ∧ literalAll? nodes = some text := by
  obtain ⟨a, ha, hfound⟩ := List.mem_filterMap.mp h
  obtain ⟨x, hx, ha⟩ := List.mem_flatMap.mp ha
  refine ⟨x, hx, a, ha, ?_⟩
  split at hfound
  · next quote' nodes hvalue =>
    obtain ⟨text', htext, he⟩ := Option.map_eq_some_iff.mp hfound
    cases he
    exact ⟨nodes, rfl, hvalue, htext⟩
  · cases hfound

end Node

theorem Trait.spelled_attaches (o : Origin) : Trait.spelled.Attaches o .spelled :=
  ⟨fun n h => by cases n <;> exact h, fun _ _ _ h => h⟩

theorem Trait.spelled_expands (directives : Directives) :
    Pass.Expands directives .spelled .spelled :=
  ⟨fun _ _ _ _ _ h => h, fun _ h => h, fun _ _ _ => trivial, fun _ _ _ _ => trivial,
    fun _ _ _ _ _ _ _ => trivial⟩

namespace Builder

theorem spelled_of_build {b : Builder} (hb : b.Merges) {directives : Directives}
    {preserve : List Scope → Bool} (hfinalize : b.finalize = Pass.finalize directives preserve)
    {context : Context} {path : String} {page : Page} (h : (b.build context path).1 = .ok page) :
    page.root.Has .spelled :=
  has_of_parsed hb hfinalize Trait.spelled_ofCode Trait.spelled_ofCode
    (Trait.spelled_expands directives) Trait.spelled_attaches
    (fun _ _ _ _ _ hparse => Node.spelled_of_parse hparse) h

/-- A quoted attribute of a page that holds nothing but text is printed between its quotes. In an
element, whatever its name, that is read as the one attribute with the same name and the same text
exactly if the name does not start like a directive and nothing starts in the text: no construct, no
escape, and no slot that is closed. Text that has the quote itself in it is left out. -/
theorem quoted_attrs_keep_bounds (limit : Nat) (directives : Directives)
    (preserve : List Scope → Bool) (strict : Bool) (l : Loader) (context : Context) (path : String)
    (page : Page)
    (h : ((nesting limit directives preserve strict l).build context path).1 = .ok page)
    (n : Node) (hn : n ∈ page.root.nodes) (a : Attr Node) (ha : a ∈ n.attrs) (quote : Char)
    (nodes : List Node) (hv : a.value = .quoted quote nodes) (text : List Char)
    (htext : Node.literalAll? nodes = some text) (hquote : quote ∉ text) :
    ∃ pieces : List (String × Origin),
      Node.emitAttr .all a = .ok (pieces.map fun p => .text p.1 p.2) ∧
      (Printed.joined pieces).toList =
        ' ' :: (a.name.toList ++ '=' :: quote :: (text ++ [quote])) ∧
      ∀ element file : String, Lexer.IsElement element.toList →
        (Node.ReadsAs ("<" ++ element ++ Printed.joined pieces ++ "/>") file element a.name text ↔
          ¬ Lexer.StartsDirective a.name.toList ∧
            ∀ u v, text = u ++ v → ¬ Lexer.Starts (quote :: u).getLast? v) := by
  have hspelled := spelled_of_build (b := nesting limit directives preserve strict l)
    ⟨rfl, strict, rfl⟩ rfl h
  obtain ⟨hq, hkey⟩ := (hspelled n hn).2 a ha quote nodes hv
  exact Node.readsAs_emitAttr_iff hv htext hq hkey hquote

/-- A slot in a value between single quotes, filled from another file with a text that has double
quotes in it. -/
def captions : Templates :=
  [("default:page", "<include:card><block:t>say \"hi\"</block:t></include:card>"),
    ("default:card", "<p title='$\x7bt|it\x7d'/>")]

set_option maxRecDepth 100000 in
theorem quoted_attrs_keep_bounds_captions : ∃ page n a nodes, ∃ pieces : List (String × Origin),
    ((default captions.loader).build .empty "page").1 = .ok page ∧ n ∈ page.root.nodes ∧
      a ∈ n.attrs ∧ a.value = .quoted '\'' nodes ∧
      Node.emitAttr .all a = .ok (pieces.map fun p => .text p.1 p.2) ∧
      Node.ReadsAs ("<" ++ "q" ++ Printed.joined pieces ++ "/>") "b.stm" "q" a.name
        "say \"hi\"".toList := by
  have htexts : ((default captions.loader).build .empty "page").1.toOption.map
      (fun page => page.root.quotedTexts) = some [("title", '\'', "say \"hi\"".toList)] := by
    decide +kernel
  obtain ⟨page, hpage, htexts⟩ := Option.map_eq_some_iff.mp htexts
  have hbuild := eq_ok_of_toOption hpage
  have hmem : ("title", '\'', "say \"hi\"".toList) ∈ page.root.quotedTexts :=
    htexts ▸ List.mem_cons_self
  obtain ⟨n, hn, a, ha, nodes, hname, hv, htext⟩ := Node.exists_of_mem_quotedTexts hmem
  obtain ⟨pieces, hemit, -, hreads⟩ := quoted_attrs_keep_bounds defaultMaxDepth .builtin
    (Pass.preserveIn defaultPreserveTags) false captions.loader .empty "page" page hbuild n hn a ha
    '\'' nodes hv "say \"hi\"".toList htext (by decide)
  have helement : Lexer.IsElement "q".toList := Lexer.isElement_of_all (by decide) (by decide)
  refine ⟨page, n, a, nodes, pieces, hbuild, hn, ha, hv, hemit,
    (hreads "q" "b.stm" helement).mpr ⟨?_, ?_⟩⟩
  · rw [hname]
    rintro ⟨c, rest, hc, -⟩
    cases hc
  · exact Lexer.free_of_plain (by decide)

def escapedAt : Templates := [("default:page", "<p title=\"@@if\"/>")]

set_option maxRecDepth 100000 in
/-- The text is printed without the escape, and is a directive when it is read again. -/
theorem escaped_at_sign_is_lost : ∃ page n a nodes, ∃ pieces : List (String × Origin),
    ((default escapedAt.loader).build .empty "page").1 = .ok page ∧ n ∈ page.root.nodes ∧
      a ∈ n.attrs ∧ a.value = .quoted '"' nodes ∧ Node.literalAll? nodes = some "@if".toList ∧
      Node.emitAttr .all a = .ok (pieces.map fun p => .text p.1 p.2) ∧
      ∀ file, ¬ Node.ReadsAs ("<" ++ "p" ++ Printed.joined pieces ++ "/>") file "p" a.name
        "@if".toList := by
  have htexts : ((default escapedAt.loader).build .empty "page").1.toOption.map
      (fun page => page.root.quotedTexts) = some [("title", '"', "@if".toList)] := by
    decide +kernel
  obtain ⟨page, hpage, htexts⟩ := Option.map_eq_some_iff.mp htexts
  have hmem : ("title", '"', "@if".toList) ∈ page.root.quotedTexts := htexts ▸ List.mem_cons_self
  obtain ⟨n, hn, a, ha, nodes, hname, hv, htext⟩ := Node.exists_of_mem_quotedTexts hmem
  have hkey : Lexer.IsAttrName a.name.toList := by
    rw [hname]
    exact Lexer.isAttrName_of_isTagChar (by decide) (List.all_eq_true.mp (by decide))
  have helement : Lexer.IsElement "p".toList := Lexer.isElement_of_all (by decide) (by decide)
  obtain ⟨pieces, hemit, -, hreads⟩ :=
    Node.readsAs_emitAttr_iff hv htext (by decide) hkey (by decide)
  refine ⟨page, n, a, nodes, pieces, eq_ok_of_toOption hpage, hn, ha, hv, htext, hemit, ?_⟩
  intro file h
  have hfree := ((hreads "p" file helement).mp h).2
  exact hfree [] "@if".toList rfl (.directive (by decide) ⟨'i', ['f'], rfl, by decide⟩)

end Builder

end Lamina
