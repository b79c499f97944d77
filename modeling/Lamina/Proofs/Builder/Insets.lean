import Lamina.Proofs.Builder.Carrying
import Lamina.Proofs.Chunk.Code
import Lamina.Proofs.Directive.Embedding

/-! Where the code of a chunk was written. Every piece of code stands for an inset of a template, and
is mapped to the line of that. The lines below the first are counted in the code, which has lost the
line feeds in front of the text of the inset; so they are mapped that much too high. -/

namespace Lamina

open Lamina.Text

theorem Inset.line_of_inner {text : String} (inset : Inset text) (front : List Char) :
    1 + feeds (inset.before ++ (inset.opening ++ front)) = inset.line + feeds front := by
  rw [feeds_append, feeds_append, inset.encloses.feeds_opening, line]
  omega

/-- A line of the text that is embedded is a line of the chunk, and is mapped to as many lines below
the place of the code as there are line feeds before it in the code. -/
theorem Chunk.line_of_embedding {text : List Char} {code : String} {a b : List Char}
    (e : Embedding text code.toList) (hcore : e.core = a ++ b) (hb : b ≠ []) (paths : List String)
    (front back : List Output) (o : Origin) :
    let chunk := ofOutput paths (front ++ .code code o :: back)
    (lines text)[feeds (e.lead ++ a)]? = some (lineAround (e.lead ++ a) (b ++ e.trail)) ∧
      lineAt? chunk.content ((Output.lines front).length + feeds a + 1) =
        some (String.ofList (lineAround (e.pre ++ a) (b ++ e.post))) ∧
      chunk.sourceMap.find? ((Output.lines front).length + feeds a + 1) =
        some (o.down (feeds a)) := by
  have htext : text = (e.lead ++ a) ++ (b ++ e.trail) := by simp [e.text_eq, hcore]
  have hcode : code.toList = (e.pre ++ a) ++ (b ++ e.post) := by simp [e.code_eq, hcore]
  have hfeeds : feeds (e.pre ++ a) = feeds a := by rw [feeds_append, e.feeds_pre, Nat.zero_add]
  have hplace := line_of_code paths front back o hcode
    (List.append_ne_nil_of_left_ne_nil hb e.post)
  rw [hfeeds] at hplace
  have hline := getElem?_lines (e.lead ++ a) (List.append_ne_nil_of_left_ne_nil hb e.trail)
  rw [← htext] at hline
  exact ⟨hline, hplace⟩

namespace Builder

def Stands (b : Builder) (context : Context) (kind : TokenKind) (o : Origin) : Prop :=
  ∃ view text tokens, (∃ path, b.loader.locate path = .ok view) ∧ b.text context view = .ok text ∧
    Token.lex .html text view.filename = .ok tokens ∧ ∃ t ∈ tokens, t.kind = kind ∧
      o.path = view.filename ∧ o.line = t.line ∧
      ∃ inset : Inset text, inset.kind = kind ∧ t.StartsAfter inset.before

def Writes (b : Builder) (context : Context) : Node → Prop
  | .host code o => b.Stands context (.host code) o
  | .echo expr escape o => b.Stands context (.echo expr escape) o
  | .directive name values body o =>
    body.elim (.ok []) Arguments.split = .ok values ∧ b.Stands context (.directive name body) o
  | _ => True

def Runs (b : Builder) (context : Context) (directives : Directives) : Node → Prop
  | .host code o => ∃ kind, b.Stands context kind o ∧ directives.Yields o kind code
  | _ => True

variable {b : Builder} {context : Context} {directives : Directives}

def writing (b : Builder) (context : Context) : Trait :=
  .plain (b.Writes context) (fun {n} _ _ h => by cases n <;> exact h) (fun _ _ => trivial)

def running (b : Builder) (context : Context) (directives : Directives) : Trait :=
  .plain (b.Runs context directives) (fun {n} _ _ h => by cases n <;> exact h) (fun _ _ => trivial)

theorem writes_of_not_code {n : Node} (h : n.isAttrConstruct = false) : b.Writes context n := by
  cases n with
  | echo | directive | host => cases h
  | _ => trivial

theorem writing_ofCode : (b.writing context).OfCode := by
  intro n hn
  cases n with
  | tag | echo | directive | host => cases hn
  | _ => trivial

theorem running_ofCode : (b.running context directives).OfCode := by
  intro n hn
  cases n with
  | tag | echo | directive | host => cases hn
  | _ => trivial

theorem writing_attaches (o : Origin) : (b.writing context).Attaches o (b.writing context) :=
  ⟨fun n h => by cases n <;> exact h, fun _ _ _ _ => trivial⟩

theorem writing_expands :
    Pass.Expands directives (b.writing context) (b.running context directives) :=
  ⟨fun _ _ _ _ _ _ => trivial, fun _ _ => trivial, fun _ _ h => ⟨_, h, rfl⟩,
    fun _ _ _ h => ⟨_, h, rfl⟩, fun _ values _ _ _ h he => ⟨_, h.2, values, h.1, he⟩⟩

theorem writes_of_contentNode? {view : View} {text : String} {tokens : List Token} {t : Token}
    {n : Node} (hl : ∃ path, b.loader.locate path = .ok view)
    (htext : b.text context view = .ok text)
    (hlex : Token.lex .html text view.filename = .ok tokens) (ht : t ∈ tokens)
    (h : Parser.contentNode? view.filename t = .ok (some n)) : b.Writes context n := by
  have hstands {kind : TokenKind} (hkind : t.kind = kind)
      (hcode : Parser.isAttrConstruct kind = true) (label : String) :
      b.Stands context kind (Parser.originOf view.filename t label) := by
    obtain ⟨inset, hinset, hstarts⟩ := Token.exists_inset_of_lex hlex ht (hkind ▸ hcode)
    exact ⟨view, text, tokens, hl, htext, hlex, t, ht, hkind, rfl, rfl, inset, hinset.trans hkind,
      hstarts⟩
  unfold Parser.contentNode? at h
  split at h
  · cases h
    trivial
  · next hkind =>
    cases h
    exact hstands hkind rfl _
  · next hkind =>
    split at h
    · cases h
    · next hvalues =>
      cases h
      exact ⟨hvalues, hstands hkind rfl _⟩
  · cases h
    trivial
  · next hkind =>
    cases h
    exact hstands hkind rfl _
  · cases h

theorem writing_of_parse {view : View} {text : String} {root : Node}
    (hl : ∃ path, b.loader.locate path = .ok view) (htext : b.text context view = .ok text)
    (h : Node.parse text view.filename = .ok root) : root.Has (b.writing context) := by
  obtain ⟨tokens, hlex, hread⟩ := Node.readFrom_of_parse h
  intro x hx
  refine ⟨?_, fun _ _ => trivial⟩
  cases hcode : x.isAttrConstruct with
  | true =>
    obtain ⟨t, ht, hnode⟩ := hread x hx hcode
    exact writes_of_contentNode? hl htext hlex ht hnode
  | false => exact writes_of_not_code hcode

theorem running_of_build (hb : b.Merges) {preserve : List Scope → Bool}
    (hfinalize : b.finalize = Pass.finalize directives preserve) {path : String} {page : Page}
    (h : (b.build context path).1 = .ok page) : page.root.Has (b.running context directives) :=
  has_of_parsed hb hfinalize writing_ofCode running_ofCode writing_expands writing_attaches
    (fun _ _ _ => writing_of_parse) h

theorem runs_of_emit {page : Page} {output : List Output}
    (h : page.root.Has (b.running context directives))
    (he : page.root.emit b.renderers = .ok output) {code : String} {o : Origin}
    (hmem : .code code o ∈ output) :
    b.Runs context directives (.host code o) := by
  have hall := Node.Has.emit (T := b.running context directives)
    (Q := fun | .code code o => b.Runs context directives (.host code o) | .text _ _ => True)
    (fun _ _ _ => trivial) (fun _ _ _ => trivial) (fun _ _ h => h) page.root h he
  exact hall _ hmem

/-- Every piece of code in a chunk stands for an inset of a template, at the offset of the token that
was read there. Whichever inset of its line it is the code of, a line that carries a line of the text
inside is mapped to where that was written, less the line feeds in front of what the code has of the
text. A block of script code has all of it, and so is mapped right; an echo and the directives of the
library have it trimmed, and are mapped right exactly if there is no line feed among the blanks it
starts with. -/
theorem code_is_mapped_up_to_lost_feeds (limit : Nat) (directives : Directives)
    (preserve : List Scope → Bool) (strict : Bool) (l : Loader) (context : Context) (path : String)
    (chunk : Chunk)
    (h : ((nesting limit directives preserve strict l).compile context path).1 = .ok chunk) :
    ∃ page output, ((nesting limit directives preserve strict l).build context path).1 = .ok page ∧
      page.root.emit .all = .ok output ∧ chunk = .ofOutput page.paths output ∧
      ∀ front code o back, output = front ++ .code code o :: back →
        (∃ view text tokens, (∃ p, l.locate p = .ok view) ∧
          (nesting limit directives preserve strict l).text context view = .ok text ∧
          Token.lex .html text view.filename = .ok tokens ∧ ∃ t ∈ tokens, ∃ inset : Inset text,
            inset.kind = t.kind ∧ t.StartsAfter inset.before ∧ o.path = view.filename ∧
            o.line = inset.line ∧ directives.Yields o inset.kind code) ∧
        ∀ text (inset : Inset text), o.line = inset.line → directives.Yields o inset.kind code →
          ((∀ name body, inset.kind = .directive name body →
              directives.providers ⊆ Directives.builtin.providers) →
            ∀ lead core, inset.kind.core? inset.inner = some (lead, core) →
              Embeds inset.inner code.toList lead core) ∧
          ∀ (e : Embedding inset.inner code.toList) (a b : List Char), e.core = a ++ b → b ≠ [] →
            let k := feeds (e.lead ++ a)
            let n := (Output.lines front).length + feeds a + 1
            inset.line + k = 1 + feeds (inset.before ++ (inset.opening ++ (e.lead ++ a))) ∧
            (lines inset.inner)[k]? = some (lineAround (e.lead ++ a) (b ++ e.trail)) ∧
            lineAt? chunk.content n =
              some (String.ofList (lineAround (e.pre ++ a) (b ++ e.post))) ∧
            ∃ origin, chunk.sourceMap.find? n = some origin ∧ origin.path = o.path ∧
              origin.line + feeds e.lead = inset.line + k := by
  obtain ⟨page, hbuild, hpage⟩ := compile_eq_ok h
  obtain ⟨output, hemit, rfl⟩ := map_eq_ok.mp hpage
  have hbuild := congrArg Prod.fst hbuild
  have hrunning := running_of_build (b := nesting limit directives preserve strict l)
    ⟨rfl, strict, rfl⟩ rfl hbuild
  refine ⟨page, output, hbuild, hemit, rfl, fun front code o back houtput => ⟨?_, ?_⟩⟩
  · have hmem : .code code o ∈ output := houtput ▸ List.mem_append_right _ (.head _)
    obtain ⟨kind, ⟨view, text, tokens, hview, htext, hlex, t, ht, hkind, hpath, hline, inset, rfl,
      hstarts⟩, hyields⟩ := runs_of_emit hrunning hemit hmem
    exact ⟨view, text, tokens, hview, htext, hlex, t, ht, inset, hkind.symm, hstarts, hpath,
      hline.trans hstarts.line, hyields⟩
  · intro text inset hline hyields
    refine ⟨fun hd lead core hcore => inset.encloses.embeds hyields hd hcore, ?_⟩
    intro e a b hcore hb
    have hplace := Chunk.line_of_embedding e hcore hb page.paths front back o
    rw [← houtput] at hplace
    obtain ⟨hinner, hcontent, hmap⟩ := hplace
    refine ⟨(inset.line_of_inner _).symm, hinner, hcontent, _, hmap, rfl, ?_⟩
    show o.line + feeds a + feeds e.lead = inset.line + feeds (e.lead ++ a)
    rw [feeds_append, hline]
    omega

/-- A block of code over two lines, and an echo with its expression on the line below. -/
def insets : Templates :=
  [("default:page", "x\n<?lua a()\nb() ?>\x7b\x7b\n c \x7d\x7d")]

set_option maxRecDepth 100000 in
theorem code_is_mapped_up_to_lost_feeds_insets : ∃ chunk,
    ((default insets.loader).compile .empty "page").1 = .ok chunk ∧
      chunk.content = "__write(\"x\\n\")\n a()\nb() \n__write(__escape(c))\n" ∧
      ∃ text, ∃ inset : Inset text, inset.line = 3 ∧
        ∀ (e : Embedding inset.inner "__write(__escape(c))".toList) (a b : List Char),
          e.core = a ++ b → b ≠ [] →
            ∃ origin, chunk.sourceMap.find? (3 + feeds a + 1) = some origin ∧
            origin.line + feeds e.lead = 3 + feeds (e.lead ++ a) := by
  have hcontent : ((default insets.loader).compile .empty "page").1.toOption.map (·.content) =
      some "__write(\"x\\n\")\n a()\nb() \n__write(__escape(c))\n" := by decide +kernel
  have hpieces : ((default insets.loader).build .empty "page").1.toOption.bind
        (fun page => (page.root.emit .all).toOption) =
      some [.text "x\n" (.of "default/page.stm" 1 .html "raw"),
        .code " a()\nb() " (.of "default/page.stm" 2 .host "<?lua"),
        .code "__write(__escape(c))" (.of "default/page.stm" 3 .dynamic "\x7b\x7b")] := by
    decide +kernel
  obtain ⟨chunk, hchunk, hcontent⟩ := Option.map_eq_some_iff.mp hcontent
  have hcompile := eq_ok_of_toOption hchunk
  obtain ⟨page, output, hbuild, hemit, -, hcode⟩ := code_is_mapped_up_to_lost_feeds defaultMaxDepth
    .builtin (Pass.preserveIn defaultPreserveTags) false insets.loader .empty "page" chunk hcompile
  rw [show ((default insets.loader).build .empty "page").1 = .ok page from hbuild] at hpieces
  have houtput := Option.some.inj ((congrArg Except.toOption hemit).symm.trans hpieces)
  obtain ⟨⟨view, text, tokens, -, -, -, t, -, inset, -, -, -, hline, hyields⟩, hall⟩ :=
    hcode [_, _] _ _ [] houtput
  refine ⟨chunk, hcompile, hcontent, text, inset, hline.symm, fun e a b hcore hb => ?_⟩
  obtain ⟨-, -, -, origin, horigin, -, hat⟩ := (hall text inset hline hyields).2 e a b hcore hb
  exact ⟨origin, horigin, hat.trans (congrArg (· + _) hline.symm)⟩

/-- An echo with its expression on the second line. -/
def echoBelow : Templates := [("default:page", "\x7b\x7b\n a \x7d\x7d")]

set_option maxRecDepth 100000 in
/-- The expression is mapped to the first line, where the echo starts. -/
theorem expression_below_is_mapped_above :
    ((default echoBelow.loader).compile .empty "page").1.toOption.map
        (fun chunk => (chunk.content, chunk.sourceMap.find? 1)) =
      some ("__write(__escape(a))\n", some (.of "default/page.stm" 1 .dynamic "\x7b\x7b")) := by
  decide +kernel

end Builder

end Lamina
