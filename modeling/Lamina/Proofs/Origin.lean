import Lamina.Proofs.Node.Parser

/-! Chains of origins. A chain that is pulled in by a reference goes on with the chain of the
reference, so it ends where that one ends. -/

namespace Lamina

namespace Origin

/-- The place of the outermost reference, or of the construct itself. -/
def last (o : Origin) : Site := o.sites.getLast (List.cons_ne_nil _ _)

theorem sites_attach (o reference : Origin) :
    (o.attach reference).sites = o.sites ++ reference.sites := by
  simp [attach, sites]

/-- A chain in `file` through `files`: it ends in `file`, every site on it lies in one of `files`,
and none but the last may lie in a file to avoid. -/
structure Within (files : List String) (avoid : String → Prop) (file : String) (o : Origin) :
    Prop where
  ends : o.last.path = file
  known : ∀ site ∈ o.sites, site.path ∈ files
  clear : ∀ site ∈ o.sites.dropLast, ¬ avoid site.path

variable {files files' : List String} {avoid : String → Prop} {file file' : String}
  {o reference : Origin}

theorem Within.mono (h : o.Within files avoid file) (hf : files ⊆ files') :
    o.Within files' avoid file :=
  ⟨h.ends, fun site hs => hf (h.known site hs), h.clear⟩

theorem WrittenIn.within (h : o.WrittenIn file) (hf : file ∈ files) : o.Within files avoid file := by
  obtain ⟨⟨path, line, grammar, label⟩, via⟩ := o
  obtain ⟨rfl, rfl⟩ := h
  exact ⟨rfl, List.forall_mem_singleton.mpr hf, List.forall_mem_nil _⟩

theorem Within.attach (h : o.Within files avoid file') (hfile : ¬ avoid file')
    (hr : reference.Within files avoid file) : (o.attach reference).Within files avoid file := by
  have hne : reference.sites ≠ [] := List.cons_ne_nil _ _
  refine ⟨?_, ?_, ?_⟩
  · rw [← hr.ends, last, last]
    simp only [sites_attach, List.getLast_append_of_ne_nil _ hne]
  · rw [sites_attach]
    exact List.forall_mem_append.mpr ⟨h.known, hr.known⟩
  · rw [sites_attach, List.dropLast_append_of_ne_nil hne]
    refine List.forall_mem_append.mpr ⟨fun site hs => ?_, hr.clear⟩
    have hne' : o.sites ≠ [] := List.cons_ne_nil _ _
    rw [← List.dropLast_concat_getLast hne'] at hs
    rcases List.mem_append.mp hs with hs | hs
    · exact h.clear site hs
    · rw [List.mem_singleton.mp hs]
      exact h.ends ▸ hfile

theorem Within.via_eq_nil_iff (h : o.Within files (· = file) file) : o.via = [] ↔ o.path = file := by
  obtain ⟨site, via⟩ := o
  cases via with
  | nil => exact iff_of_true rfl h.ends
  | cons s via => exact iff_of_false nofun (h.clear site (.head _))

end Origin

end Lamina
