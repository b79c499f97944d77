import Lamina.Proofs.Loader

/-! The files of a chunk are all it depends on: it comes out the same from any templates that agree
on them, whatever else changes. -/

namespace Lamina

namespace Builder

variable {b : Builder} {context : Context} {path : String} {chunk : Chunk}

theorem standard_regular (l : Loader) (directives : Directives) (preserve : List Scope → Bool)
    (strict : Bool) : (standard l directives preserve strict).Regular := by
  refine ⟨Pass.prepare_steady, Pass.transform_steady strict, fun pass hp => ?_⟩
  refine ⟨Pass.finalize_steady directives preserve pass hp, ?_⟩
  simp only [standard, Pass.finalize, List.mem_cons, List.not_mem_nil, or_false] at hp
  rcases hp with rfl | rfl | rfl <;> exact fun _ _ => rfl

theorem compile_eq_ok (h : (b.compile context path).1 = .ok chunk) :
    ∃ page, b.build context path = (.ok page, (b.compile context path).2) ∧
      page.root.compile b.renderers page.paths = .ok chunk := by
  simp only [compile] at h ⊢
  rcases hbuild : b.build context path with ⟨result, session⟩
  rw [hbuild] at h
  cases result with
  | error failure => cases h
  | ok page => exact ⟨page, rfl, h⟩

theorem compile_of_build {page : Page} {session : Session}
    (hb : b.build context path = (.ok page, session))
    (hp : page.root.compile b.renderers page.paths = .ok chunk) :
    b.compile context path = (.ok chunk, session) := by
  simp only [compile, hb]
  exact congrArg (·, session) hp

theorem paths_of_compile {r : Renderers} {root : Node} {paths : List String}
    (h : root.compile r paths = .ok chunk) : chunk.paths = paths := by
  obtain ⟨output, -, rfl⟩ := map_eq_ok.mp h
  rfl

theorem built_of_build (hb : b.Regular) (hcoherent : b.loader.Coherent) {avoid : String → Prop}
    (hg : ∀ view, b.loader.locate path = .ok view → b.loader.Guards avoid [view.identity])
    {page : Page} {session : Session} (h : b.build context path = (.ok page, session)) :
    session.Sound b.loader avoid ∧ b.Built avoid path session page := by
  obtain ⟨-, hs, hpage, -⟩ :=
    buildM_lockstep (l := b.loader) hb hcoherent context path hg (.empty _ _) page session h
  exact ⟨hs, hpage⟩

theorem guards_none (l : Loader) (chain : List String) : l.Guards (fun _ => False) chain :=
  fun _ _ _ h => h.elim

theorem built_of_compile (hb : b.Regular) (hcoherent : b.loader.Coherent)
    (h : (b.compile context path).1 = .ok chunk) :
    (b.compile context path).2.Sound b.loader (fun _ => False) ∧
      chunk.paths = (b.compile context path).2.paths ∧
      ∃ view, b.loader.locate path = .ok view ∧ [view.filename] <+: chunk.paths := by
  obtain ⟨page, hbuild, hpage⟩ := compile_eq_ok h
  obtain ⟨hs, hpaths, view, hl, hfirst, -⟩ :=
    built_of_build hb hcoherent (fun _ _ => guards_none _ _) hbuild
  have hchunk := (paths_of_compile hpage).trans hpaths
  exact ⟨hs, hchunk, view, hl, hchunk ▸ hfirst⟩

theorem compile_of_agreeOn (hb : b.Regular) (hcoherent : b.loader.Coherent)
    (h : (b.compile context path).1 = .ok chunk) {l : Loader}
    (hl : b.loader.AgreeOn l chunk.paths) :
    (b.withLoader l).compile context path = b.compile context path := by
  obtain ⟨page, hbuild, hpage⟩ := compile_eq_ok h
  obtain ⟨-, -, ⟨hpaths, -⟩, hsame⟩ := buildM_lockstep (l := l) hb hcoherent context path
    (fun _ _ => guards_none _ _) (.empty _ _) page _ hbuild
  rw [paths_of_compile hpage, hpaths] at hl
  rw [compile_of_build (b := b.withLoader l) (hsame hl) hpage, compile_of_build hbuild hpage]

/-- The builder with the passes of the library, for references that nest up to `limit`. -/
def nesting (limit : Nat) (directives : Directives) (preserve : List Scope → Bool) (strict : Bool)
    (l : Loader) : Builder :=
  { standard l directives preserve strict with maxDepth := limit }

example (l : Loader) : default l =
    nesting defaultMaxDepth .builtin (Pass.preserveIn defaultPreserveTags) false l :=
  rfl

theorem nesting_regular (limit : Nat) (directives : Directives) (preserve : List Scope → Bool)
    (strict : Bool) (l : Loader) : (nesting limit directives preserve strict l).Regular := by
  have h := standard_regular l directives preserve strict
  exact ⟨h.prepare, h.transform, h.finalize⟩

/-- A chunk depends on its files and on no other template: another template set with the same
sources in them gives the same chunk by the same reads. The files are named once each, the one that
was asked for first, and everything that was read lies in one of them. -/
theorem compile_depends_on_its_paths (limit : Nat) (directives : Directives)
    (preserve : List Scope → Bool) (strict : Bool) (t t' : Templates) (context : Context)
    (path : String) (chunk : Chunk)
    (h : ((nesting limit directives preserve strict t.loader).compile context path).1 = .ok chunk)
    (hsame : ∀ spelled r source, r = Reference.parse spelled defaultExtension →
      r.file ∈ chunk.paths → t.get? r.identity = some source → t'.get? r.identity = some source) :
    (nesting limit directives preserve strict t'.loader).compile context path =
        (nesting limit directives preserve strict t.loader).compile context path ∧
      chunk.paths.Nodup ∧
      (∃ view, t.locate path = .ok view ∧ chunk.paths.head? = some view.filename) ∧
      ∀ identity ∈ ((nesting limit directives preserve strict t.loader).compile context path).2.reads,
        ∃ spelled view, t.locate spelled = .ok view ∧ view.identity = identity ∧
          view.filename ∈ chunk.paths := by
  have hb := nesting_regular limit directives preserve strict t.loader
  have hcoherent : (nesting limit directives preserve strict t.loader).loader.Coherent := t.coherent
  have hlocate : (nesting limit directives preserve strict t.loader).loader.locate = t.locate :=
    t.loader_locate
  obtain ⟨hs, hpaths, view, hl, hfirst⟩ := built_of_compile hb hcoherent h
  rw [hlocate] at hl
  have hagree : t.loader.AgreeOn t'.loader chunk.paths := Templates.agreeOn hsame
  refine ⟨compile_of_agreeOn hb hcoherent h hagree, hpaths ▸ hs.nodup, ⟨view, hl, ?_⟩, ?_⟩
  · obtain ⟨rest, hrest⟩ := hfirst
    rw [← hrest]
    rfl
  · intro identity hi
    obtain ⟨spelled, view', hl', he, hv⟩ := hs.reads identity hi
    rw [hlocate] at hl'
    exact ⟨spelled, view', hl', he, hpaths ▸ hv⟩

/-- A page with a card, and a template that neither of them mentions. -/
def cards (other : String) : Templates :=
  [("default:card", "<b>$\x7btitle\x7d</b>"), ("default:other", other),
    ("default:page", "<include:card title=\"x\"/>")]

def cardChunk : Chunk :=
  let paths := ["default/page.stm", "default/card.stm"]
  let origin : Origin := ⟨⟨"default/card.stm", 1, .html, "b"⟩,
    [⟨"default/page.stm", 1, .html, "include:card"⟩]⟩
  ⟨"__write(\"<b>x</b>\")\n", paths, ⟨paths, .single 1 origin⟩⟩

def cardReferences : List Reference :=
  [⟨"default", "card"⟩, ⟨"default", "other"⟩, ⟨"default", "page"⟩]

theorem reference_of_cards {other spelled : String} {r : Reference}
    (hr : r = Reference.parse spelled defaultExtension)
    (hc : (cards other).contains r.identity = true) :
    r ∈ cardReferences := by
  have hspace := hr ▸ Reference.colon_not_mem_space spelled defaultExtension
  obtain ⟨source, hs⟩ := Table.contains_iff.mp hc
  have hmem := Table.mem_of_mem_ofPairs (Table.mem_of_get? hs)
  simp only [List.mem_cons, Prod.mk.injEq, List.not_mem_nil, or_false] at hmem
  have hknown : ∀ identity ∈ ["default:card", "default:other", "default:page"],
      ∃ r' ∈ cardReferences, ':' ∉ r'.space.toList ∧ identity = r'.identity := by decide
  obtain ⟨r', hr', hspace', hi⟩ := hknown r.identity (by
    rcases hmem with ⟨hi, -⟩ | ⟨hi, -⟩ | ⟨hi, -⟩ <;> simp [hi])
  exact Reference.eq_of_identity_eq hspace hspace' hi ▸ hr'

theorem cards_same (spelled : String) (r : Reference) (source : String)
    (hr : r = Reference.parse spelled defaultExtension) (hf : r.file ∈ cardChunk.paths)
    (hs : (cards "z").get? r.identity = some source) :
    (cards "w").get? r.identity = some source := by
  -- the template that differs lies in none of the files
  have hsame : ∀ r ∈ cardReferences, r.file ∈ cardChunk.paths →
      (cards "z").get? r.identity = (cards "w").get? r.identity := by decide
  exact hsame r (reference_of_cards hr (Table.contains_iff.mpr ⟨source, hs⟩)) hf ▸ hs

set_option maxRecDepth 100000 in
theorem compile_depends_on_its_paths_card :
    ((default (cards "z").loader).compile .empty "page").1 = .ok cardChunk ∧
      (default (cards "w").loader).compile .empty "page" =
        (default (cards "z").loader).compile .empty "page" ∧
      cardChunk.paths.Nodup := by
  have h : ((default (cards "z").loader).compile .empty "page").1 = .ok cardChunk :=
    eq_ok_of_toOption (by decide +kernel)
  have hall := compile_depends_on_its_paths defaultMaxDepth .builtin
    (Pass.preserveIn defaultPreserveTags) false (cards "z") (cards "w") .empty "page" cardChunk h
    cards_same
  exact ⟨h, hall.1, hall.2.1⟩

end Builder

end Lamina
