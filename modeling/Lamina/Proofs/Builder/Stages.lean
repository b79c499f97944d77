import Lamina.Proofs.Builder.Bodies
import Lamina.Proofs.Builder.Keeping
import Lamina.Proofs.Chunk.Printing

/-! A page that is built has been through every stage: none of its constructs is left for a later
one, wherever it came from, and so the page can always be written. -/

namespace Lamina

/-- The fragments a session remembers have their references resolved. -/
def Session.Merged (s : Session) : Prop := ∀ entry ∈ s.fragments, entry.2.Has .merged

theorem Node.Finished.printable {n : Node} (h : n.Finished) : n.Printable := by
  cases n with
  | directive | echo | fragment => exact h
  | _ => trivial

namespace Builder

variable {b : Builder} {context : Context} {s : Session}

structure Merges (b : Builder) : Prop where
  prepare : b.prepare = Pass.prepare
  transform : ∃ strict, b.transform = Pass.transform strict

theorem parse_refined (hb : b.Merges) {T₀ R₀ T₁ R₁ T : Trait}
    {h₀ : ∀ a, T₀.attr a → T₁.attr a} {h₁ : ∀ a, T₁.attr a → T.attr a} {r : Resolver} {view : View}
    (hprepare : ((Lockstep.remembering T).withState fun _ _ => True).Visitors
      (.refining T₀ R₀ T₁ h₀) (Pass.prepare.map fun pass => pass r)
      (Pass.prepare.map fun pass => pass r))
    (htransform : ∀ strict, ((Lockstep.remembering T).withState fun _ _ => True).Visitors
      (.refining T₁ R₁ T h₁) ((Pass.transform strict).map fun pass => pass r)
      ((Pass.transform strict).map fun pass => pass r))
    (htop : ∀ children o, T₁.node (.template children o) ∧ T.node (.template children o))
    (hroot : ∀ text root, b.text context view = .ok text →
      Node.parse text view.filename = .ok root → root.Has T₀) :
    (Lockstep.remembering T).holds s (b.parse context r view) (b.parse context r view)
      fun _ n => n.Has T := by
  intro hs n s' hrun
  obtain ⟨strict, hstrict⟩ := hb.transform
  obtain ⟨body, text, htext, hparse⟩ := exists_body_of_parse_run hrun
  rw [HasBody.parse_run ⟨text, htext, hparse⟩, hb.prepare, hstrict] at hrun
  have hprepared := run_refined (s := s.noteRead view.identity) hprepare rfl trivial
    (fun children o => (htop children o).1) (hroot text _ htext hparse)
  have hstages := Lockstep.ofBind _ hprepared fun s₁ root _ hroot' => run_refined (s := s₁)
    (htransform strict) rfl trivial (fun children o => (htop children o).2) hroot'
  obtain ⟨hle, hs', hn, -⟩ := hstages hs n s' hrun
  exact ⟨hle, hs', hn, False.elim⟩

theorem parse_merging (hb : b.Merges) {r : Resolver}
    (hr : Pass.Gives (.remembering .merged) .merged r) (view : View) :
    (Lockstep.remembering .merged).holds s (b.parse context r view) (b.parse context r view)
      fun _ n => n.Has .merged :=
  parse_refined hb (Pass.prepare_visitors _ r) (fun strict => Pass.transform_visitors _ strict hr)
    (fun _ _ => ⟨trivial, trivial⟩) fun _ root _ _ => root.has_anything

theorem loadAt_merging (hb : b.Merges) (budget : Nat) (chain : List String) (path : String)
    (reference : Option Origin) : (Lockstep.remembering .merged).holds s
      (b.loadAt context budget chain path reference) (b.loadAt context budget chain path reference)
      fun _ n => n.Has .merged :=
  loadAt_remembering (fun _ view _ _ hr => parse_merging hb hr view) budget chain path reference

theorem finished_of_build {directives : Directives} {preserve : List Scope → Bool}
    (hb : b.Merges) (hfinalize : b.finalize = Pass.finalize directives preserve) {path : String}
    {page : Page} (h : (b.build context path).1 = .ok page) : page.root.Has .finished :=
  has_of_build hfinalize (Pass.merged_finishes directives)
    (fun _ view _ _ hr => parse_merging hb hr view) h

/-- A page built with the passes of the library has no reference, directive, echo or contribution
left in it, and no reserved element, at any depth and in any attribute value; whatever files it is
said to be made from, it compiles. -/
theorem build_is_finished (limit : Nat) (directives : Directives) (preserve : List Scope → Bool)
    (strict : Bool) (l : Loader) (context : Context) (path : String) (page : Page)
    (h : ((nesting limit directives preserve strict l).build context path).1 = .ok page) :
    (∀ x ∈ page.root.nodes, x.Finished) ∧
      ∀ paths, ∃ chunk, page.root.compile .all paths = .ok chunk := by
  have hfinished := finished_of_build (b := nesting limit directives preserve strict l)
    ⟨rfl, strict, rfl⟩ rfl h
  have hall : ∀ x ∈ page.root.nodes, x.Finished := fun x hx => (hfinished x hx).1
  refine ⟨hall, fun paths => ?_⟩
  have hprintable : page.root.Everywhere Node.Printable := fun x hx => (hall x hx).printable
  obtain ⟨output, hok, -⟩ := Node.prints_emit page.root hprintable
  exact ⟨Chunk.ofOutput paths output, map_eq_ok.mpr ⟨output, hok, rfl⟩⟩

/-- A page that extends a layout and uses a card, which has a note to leave out, an echo in an
attribute value and a contribution to the layout. -/
def gallery : Templates :=
  [("default:card", "<hidden>n</hidden><p id=\"\x7b\x7b a \x7d\x7d\">$\x7btitle\x7d</p>" ++
      "<stack:push name=\"s\">x</stack:push>"),
    ("default:layout", "<i><stack:collect name=\"s\"/></i><block:main/>"),
    ("default:page", "<extends:layout/><block:main><use path=\"card\"/><card title=\"t\"/>" ++
      "</block:main>")]

set_option maxRecDepth 100000 in
theorem build_is_finished_gallery : ∃ page chunk,
    ((default gallery.loader).build .empty "page").1 = .ok page ∧
      (∀ x ∈ page.root.nodes, x.Finished) ∧ page.root.compile .all page.paths = .ok chunk ∧
      chunk.content = "__write(\"<i>x</i><p id=\\\"\")\n__write(__escape(a))\n" ++
        "__write(\"\\\">t</p>\")\n" := by
  have hcontent : ((default gallery.loader).compile .empty "page").1.toOption.map (·.content) =
      some ("__write(\"<i>x</i><p id=\\\"\")\n__write(__escape(a))\n" ++
        "__write(\"\\\">t</p>\")\n") := by decide +kernel
  obtain ⟨chunk, hchunk, hcontent⟩ := Option.map_eq_some_iff.mp hcontent
  obtain ⟨page, hbuild, hcompile⟩ := compile_eq_ok (eq_ok_of_toOption hchunk)
  have hpage := congrArg Prod.fst hbuild
  have hfinished := build_is_finished defaultMaxDepth .builtin (Pass.preserveIn defaultPreserveTags)
    false gallery.loader .empty "page" page hpage
  exact ⟨page, chunk, hpage, hfinished.1, hcompile, hcontent⟩

end Builder

end Lamina
