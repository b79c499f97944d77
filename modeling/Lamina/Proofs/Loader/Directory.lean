import Lamina.Proofs.Disk.Paths
import Lamina.Proofs.Loader

/-! Templates in directories as files change. While directories and links stay, a template is found
where it was found before, as long as the file there can be read. -/

namespace Lamina.Directories

open Disk

variable {t : Directories} {d d' : Disk} {path : String} {files : List String}

theorem reached_of_found (hd : d.Home) (f : t.Found d path) :
    d.Real f.place ∧ ∃ content time, d.item? f.place = some (.file content time) := by
  obtain ⟨p, content, time, hp, hitem⟩ := isFile_eq_true.mp f.isFile
  have hplace := find?_eq_some.mp f.found
  obtain rfl := Except.ok.inj (hp.symm.trans hplace)
  exact ⟨(resolve_reached hd hp).1, content, time, hitem⟩

theorem place_of_readFile (hd : d.Home) (f : t.Found d path) (h : d.Later d') {source : String}
    (hr : d'.readFile (d.text f.place) = .ok source) :
    ∃ time, d'.item? f.place = some (.file (.text source) time) := by
  obtain ⟨hreal, content, time, hitem⟩ := reached_of_found hd f
  rw [← h.text] at hr
  obtain ⟨p, time', hp, hitem'⟩ := readFile_eq_ok.mp hr
  have hl : ∀ target, d'.item? f.place ≠ some (.link target) := by
    intro target hlink
    rw [h.links, hitem] at hlink
    cases hlink
  obtain rfl := eq_of_resolve_text (h.real hreal) hl hp
  exact ⟨time', hitem'⟩

theorem agreeOn (hd : d.Home) (h : d.Later d')
    (hsame : ∀ file ∈ files, ∃ source, d.readFile file = .ok source ∧ d'.readFile file = .ok source) :
    (t.loader d).AgreeOn (t.loader d') files := by
  intro path view hl hv
  rw [loader_locate] at hl ⊢
  obtain ⟨f, rfl⟩ := found_of_locate hl
  obtain ⟨source, hr, hr'⟩ := hsame _ hv
  obtain ⟨time, hitem⟩ := place_of_readFile hd f h hr'
  have hplace := find?_eq_some.mp f.found
  have hbase := find?_eq_some.mp f.foundBase
  have hstays : d.StaysFile d' f.place := fun _ _ _ => ⟨_, _, hitem⟩
  have hplace' := h.resolve hstays hplace
  have hstays' : d.StaysFile d' f.base := by
    intro content time' hfile
    obtain ⟨rest, hrest⟩ := List.isPrefixOf_iff_prefix.mp f.inside
    cases rest with
    | nil =>
      rw [List.append_nil] at hrest
      exact ⟨_, _, hrest ▸ hitem⟩
    | cons name rest =>
      have hdir := (reached_of_found hd f).1.above f.base name rest hrest.symm
      exact absurd (hfile.symm.trans hdir) nofun
  let found : t.Found d' path :=
    ⟨f.reference, f.dir, f.place, f.base, f.spelled, f.checked, f.space,
      isFile_eq_true.mpr ⟨_, _, _, hplace', hitem⟩, find?_eq_some.mpr hplace',
      find?_eq_some.mpr (h.resolve hstays' hbase), f.inside⟩
  have hlocate := locate_of_found found
  rw [h.text] at hlocate
  refine ⟨hlocate, ?_⟩
  simp only [loader, read, hr, hr']

theorem read_eq_ok {view : View} {source : String} (h : (t.loader d).read view = .ok source) :
    d.readFile view.filename = .ok source := by
  simp only [loader, read] at h
  cases hr : d.readFile view.filename with
  | ok source' =>
    rw [hr] at h
    exact congrArg _ (Except.ok.inj h)
  | error fault =>
    rw [hr] at h
    cases h

theorem locate_later {path' : String} {view view' : View} (h : d.Later d')
    (hl : t.locate d path = .ok view) (hl' : t.locate d' path' = .ok view')
    (hr : view'.reference = view.reference) : view' = view := by
  obtain ⟨f, rfl⟩ := found_of_locate hl
  obtain ⟨f', rfl⟩ := found_of_locate hl'
  have hreference : f'.reference = f.reference := hr
  have hdir : f'.dir = f.dir :=
    Option.some.inj (f'.space.symm.trans (hreference ▸ f.space))
  have hplace := find?_eq_some.mp f.found
  have hplace' := find?_eq_some.mp f'.found
  obtain ⟨p, content, time, hp, hitem⟩ := isFile_eq_true.mp f.isFile
  obtain rfl := Except.ok.inj (hp.symm.trans hplace)
  rw [hreference, hdir] at hplace'
  rw [h.eq_of_resolve hplace hitem hplace', h.text, hreference]

end Lamina.Directories
