import Lamina.Proofs.Builder.Dependencies
import Lamina.Proofs.SourceMap

/-! Origins of a page lead to the file that was asked for. Whatever template a construct was written
in, its chain of references ends in that file, and so do the frames of every chunk line. -/

namespace Lamina

namespace Origin

/-- The chain ends in `file`, is empty just for constructs of that file, and goes through `files`
only. -/
structure LeadsTo (files : List String) (file : String) (o : Origin) : Prop where
  ends : o.last.path = file
  here : o.via = [] ↔ o.path = file
  known : ∀ site ∈ o.sites, site.path ∈ files

variable {files : List String} {file : String} {o : Origin}

theorem Within.leadsTo (h : o.Within files (· = file) file) : o.LeadsTo files file :=
  ⟨h.ends, h.via_eq_nil_iff, h.known⟩

theorem LeadsTo.down (h : o.LeadsTo files file) (n : Nat) : (o.down n).LeadsTo files file := by
  obtain ⟨site, via⟩ := o
  refine ⟨?_, h.here, ?_⟩
  · cases via with
    | nil => exact h.ends
    | cons s via => exact h.ends
  · have hk := List.forall_mem_cons.mp h.known
    exact List.forall_mem_cons.mpr ⟨hk.1, hk.2⟩

theorem LeadsTo.exists_site (h : o.LeadsTo files file) : ∃ site ∈ o.sites, site.path = file :=
  ⟨o.last, List.getLast_mem _, h.ends⟩

end Origin

theorem SourceMap.frames_of_leadsTo {m : SourceMap} {line : Nat} {o : Origin} {files : List String}
    {root : String} (hf : m.find? line = some o) (ho : o.LeadsTo files root) :
    (m.frames line root).head? = some ⟨o.path, o.line, o.site.label⟩ ∧
      ∃ frame, (m.frames line root).getLast? = some frame ∧ frame.file = root := by
  simp only [frames, hf]
  exact ⟨head?_framesUntil root o.site o.via, getLast?_framesUntil ho.exists_site⟩

namespace Builder

variable {b : Builder} {context : Context} {path : String}

theorem leadsTo_of_build (hb : b.Regular) (hcoherent : b.loader.Coherent)
    (hdistinct : ∀ p p' view view', b.loader.locate p = .ok view →
      b.loader.locate p' = .ok view' → view.filename = view'.filename →
      view.identity = view'.identity)
    {page : Page} {session : Session} (h : b.build context path = (.ok page, session)) :
    ∃ view, b.loader.locate path = .ok view ∧
      page.root.Sited (Origin.LeadsTo page.paths view.filename) := by
  obtain ⟨-, -, view, hl, -⟩ := built_of_build hb hcoherent (fun _ _ => guards_none _ _) h
  have hg : ∀ view', b.loader.locate path = .ok view' →
      b.loader.Guards (· = view.filename) [view'.identity] := by
    intro view' hl' p v hv (he : v.filename = view.filename)
    obtain rfl : view = view' := Except.ok.inj (hl.symm.trans hl')
    exact List.mem_singleton.mpr (hdistinct p path v view hv hl he)
  obtain ⟨-, hpaths, view', hl', -, hsited⟩ := built_of_build hb hcoherent hg h
  obtain rfl : view = view' := Except.ok.inj (hl.symm.trans hl')
  exact ⟨view, hl, hsited.imp fun o ho => hpaths ▸ ho.leadsTo⟩

/-- In a page of the library's passes, over a template set in which no two templates share a file,
every origin in the tree and every origin in the source map has a chain that ends in the file that
was asked for, is empty just there, and runs through the files of the chunk. The frames of a line
therefore lead from where its construct was written to the file that was asked for. -/
theorem origins_lead_to_requested_file (limit : Nat) (directives : Directives)
    (preserve : List Scope → Bool) (strict : Bool) (library : Library) (d : Disk)
    (context : Context) (path : String) (chunk : Chunk)
    (hdistinct : ∀ p p' view view', (library.loader d).locate p = .ok view →
      (library.loader d).locate p' = .ok view' → view.filename = view'.filename →
      view.identity = view'.identity)
    (h : ((nesting limit directives preserve strict (library.loader d)).compile context path).1 =
      .ok chunk) :
    ∃ page view,
      ((nesting limit directives preserve strict (library.loader d)).build context path).1 =
          .ok page ∧
        (library.loader d).locate path = .ok view ∧ page.paths = chunk.paths ∧
        (∀ o ∈ page.root.origins, o.LeadsTo chunk.paths view.filename) ∧
        (∀ line o, (line, o) ∈ chunk.sourceMap.lines →
          o.LeadsTo chunk.paths view.filename ∧ chunk.sourceMap.find? line = some o) ∧
        ∀ line o, chunk.sourceMap.find? line = some o →
          (chunk.sourceMap.frames line view.filename).head? =
              some ⟨o.path, o.line, o.site.label⟩ ∧
            ∃ frame, (chunk.sourceMap.frames line view.filename).getLast? = some frame ∧
              frame.file = view.filename := by
  have hb := nesting_regular limit directives preserve strict (library.loader d)
  obtain ⟨page, hbuild, hpage⟩ := compile_eq_ok h
  obtain ⟨view, hl, hsited⟩ := leadsTo_of_build hb (library.coherent d) hdistinct hbuild
  obtain ⟨output, hemit, rfl⟩ := map_eq_ok.mp hpage
  have hmapped : ∀ line o, (line, o) ∈ (Chunk.ofOutput page.paths output).sourceMap.lines →
      o.LeadsTo page.paths view.filename := by
    intro line o hm
    obtain ⟨o', n, ho', rfl⟩ := Chunk.below_of_mem (Node.emit_sited page.root hsited hemit) hm
    exact ho'.down n
  refine ⟨page, view, by rw [hbuild], hl, rfl, hsited, ?_, ?_⟩
  · exact fun line o hm => ⟨hmapped line o hm, SourceMap.find?_of_mem hm⟩
  · intro line o hf
    obtain ⟨k, hm⟩ := SourceMap.mem_of_find? hf
    exact SourceMap.frames_of_leadsTo hf (hmapped k o hm)

theorem cards_distinct (other : String) : ∀ p p' view view',
    (cards other).loader.locate p = .ok view → (cards other).loader.locate p' = .ok view' →
      view.filename = view'.filename → view.identity = view'.identity := by
  intro p p' view view' h h' hf
  rw [Templates.loader_locate] at h h'
  obtain ⟨r, hr, -, hc, rfl⟩ := Templates.locate_eq_ok.mp h
  obtain ⟨r', hr', -, hc', rfl⟩ := Templates.locate_eq_ok.mp h'
  have hfiles : ∀ r ∈ cardReferences, ∀ r' ∈ cardReferences, r.file = r'.file →
      r.identity = r'.identity := by decide
  exact hfiles r (reference_of_cards hr hc) r' (reference_of_cards hr' hc') hf

set_option maxRecDepth 100000 in
theorem origins_lead_to_requested_file_card : ∃ page view,
    ((default (cards "z").loader).build .empty "page").1 = .ok page ∧
      (cards "z").loader.locate "page" = .ok view ∧
      (∀ o ∈ page.root.origins, o.LeadsTo cardChunk.paths view.filename) ∧
      ∃ frame, (cardChunk.sourceMap.frames 1 view.filename).getLast? = some frame ∧
        frame.file = view.filename := by
  have h : ((default (cards "z").loader).compile .empty "page").1 = .ok cardChunk :=
    eq_ok_of_toOption (by decide +kernel)
  obtain ⟨page, view, hpage, hl, -, ho, hm, hf⟩ := origins_lead_to_requested_file defaultMaxDepth
    .builtin (Pass.preserveIn defaultPreserveTags) false (.memory (cards "z"))
    (Disk.empty "") .empty "page" cardChunk (cards_distinct "z") h
  exact ⟨page, view, hpage, hl, ho, (hf 1 _ (hm 1 _ (.head _)).2).2⟩

end Builder

end Lamina
