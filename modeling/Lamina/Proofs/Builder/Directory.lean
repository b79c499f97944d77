import Lamina.Proofs.Builder.Dependencies
import Lamina.Proofs.Loader.Directory

/-! Chunks of templates in directories as the files change. A chunk comes out the same as long as
its files read the same, under whatever spelling of its template. -/

namespace Lamina

open Disk

namespace Builder

/-- Builders over loaders that differ in nothing else, with the passes of the library. -/
structure Uniform (builder : Loader → Builder) : Prop where
  regular : ∀ l, (builder l).Regular
  loader : ∀ l, (builder l).loader = l
  withLoader : ∀ l l', builder l' = (builder l).withLoader l'

theorem compile_of_locate {b : Builder} {path path' : String} {view : View}
    (h : b.loader.locate path = .ok view) (h' : b.loader.locate path' = .ok view)
    (context : Context) : b.compile context path' = b.compile context path := by
  have hload : b.load context path' none = b.load context path none := by
    unfold load loadAt
    rw [locate_eq h, locate_eq h']
  rw [compile, compile, build, build, buildM, buildM, hload]

namespace Uniform

variable {builder : Loader → Builder} {t : Directories} {d d' : Disk} {context : Context}
  {path path' : String} {chunk : Chunk} {view view' : View} (hb : Uniform builder)

include hb

theorem readable (h : ((builder (t.loader d)).compile context path).1 = .ok chunk) :
    ∀ file ∈ chunk.paths, ∃ source, d.readFile file = .ok source := by
  intro file hfile
  have hcoherent : (builder (t.loader d)).loader.Coherent := (hb.loader _).symm ▸ t.coherent d
  obtain ⟨hs, hpaths, -⟩ := built_of_compile (hb.regular _) hcoherent h
  obtain ⟨spelled, view, source, -, rfl, hr⟩ := hs.readable file (hpaths ▸ hfile)
  rw [hb.loader] at hr
  exact ⟨source, Directories.read_eq_ok hr⟩

theorem compile_later (hd : d.Home) (hl : d.Later d')
    (h : ((builder (t.loader d)).compile context path).1 = .ok chunk)
    (hsame : ∀ file ∈ chunk.paths, d'.readFile file = d.readFile file) :
    ((builder (t.loader d')).compile context path).1 = .ok chunk ∧
      t.locate d' path = t.locate d path := by
  have hcoherent : (builder (t.loader d)).loader.Coherent := (hb.loader _).symm ▸ t.coherent d
  have hagree : (builder (t.loader d)).loader.AgreeOn (t.loader d') chunk.paths := by
    rw [hb.loader]
    refine Directories.agreeOn hd hl fun file hfile => ?_
    obtain ⟨source, hread⟩ := hb.readable h file hfile
    exact ⟨source, hread, (hsame file hfile).trans hread⟩
  obtain ⟨-, -, view, hview, hfirst⟩ := built_of_compile (hb.regular _) hcoherent h
  obtain ⟨hview', -⟩ := hagree path view hview (hfirst.subset List.mem_cons_self)
  rw [hb.loader, Directories.loader_locate] at hview
  rw [Directories.loader_locate] at hview'
  refine ⟨?_, hview'.trans hview.symm⟩
  rw [hb.withLoader (t.loader d), compile_of_agreeOn (hb.regular _) hcoherent h hagree, h]

theorem compile_of_reference (h : ((builder (t.loader d)).compile context path).1 = .ok chunk)
    (hl : t.locate d path = .ok view) (hl' : t.locate d path' = .ok view')
    (hr : view'.reference = view.reference) :
    ((builder (t.loader d)).compile context path').1 = .ok chunk := by
  obtain rfl := Directories.locate_later (.refl d) hl hl' hr
  rw [← t.loader_locate d] at hl hl'
  rw [← hb.loader (t.loader d)] at hl hl'
  rw [compile_of_locate hl hl', h]

end Uniform

end Builder

end Lamina
