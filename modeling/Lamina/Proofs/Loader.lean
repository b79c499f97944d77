import Lamina.Loader.Directory
import Lamina.Proofs.Builder.Loading

/-! What references and loaders can be relied upon for: an identity tells the reference it was made
from, and so the file. -/

namespace Lamina

namespace Reference

theorem colon_not_mem_space (path extension : String) :
    ':' ∉ (parse path extension).space.toList := by
  have hdefault : ':' ∉ defaultNamespace.toList := by decide
  unfold parse
  dsimp only
  split
  · next space name hsplit =>
    split
    · exact hdefault
    · obtain ⟨⟨before, after⟩, hcut, he⟩ := Option.map_eq_some_iff.mp hsplit
      cases he
      simpa using Text.not_mem_of_cut hcut
  · exact hdefault

theorem eq_of_identity_eq {r r' : Reference} (h : ':' ∉ r.space.toList)
    (h' : ':' ∉ r'.space.toList) (hi : r.identity = r'.identity) : r = r' := by
  obtain ⟨space, name⟩ := r
  obtain ⟨space', name'⟩ := r'
  have hlist : space.toList ++ ':' :: name.toList = space'.toList ++ ':' :: name'.toList := by
    simpa [identity] using congrArg String.toList hi
  obtain ⟨hspace, hname⟩ := Text.eq_of_append_sep h h' hlist
  obtain rfl : space = space' := String.toList_inj.mp hspace
  obtain rfl : name = name' := String.toList_inj.mp hname
  rfl

def file (r : Reference) : String := r.space ++ "/" ++ r.name ++ "." ++ defaultExtension

end Reference

namespace Templates

theorem locate_eq_ok {t : Templates} {path : String} {view : View} :
    t.locate path = .ok view ↔ ∃ r, r = Reference.parse path defaultExtension ∧
      r.check path = .ok () ∧ t.contains r.identity = true ∧ view = ⟨r.file, r⟩ := by
  unfold locate
  generalize Reference.parse path defaultExtension = r
  dsimp only
  split
  · next hcheck => simp [hcheck]
  · next hcheck =>
    by_cases hc : t.contains r.identity = true
    · simp [hcheck, hc, Reference.file, eq_comm]
    · simp [hcheck, hc]

theorem loader_locate (t : Templates) : t.loader.locate = t.locate := by
  simp only [loader]

theorem loader_read (t : Templates) : t.loader.read = t.read := by
  simp only [loader]

theorem faithful (t : Templates) : t.loader.Faithful := by
  intro path path' view view' h h' hi
  rw [loader_locate] at h h'
  obtain ⟨r, hr, -, -, rfl⟩ := locate_eq_ok.mp h
  obtain ⟨r', hr', -, -, rfl⟩ := locate_eq_ok.mp h'
  have hspace := Reference.colon_not_mem_space path defaultExtension
  have hspace' := Reference.colon_not_mem_space path' defaultExtension
  rw [← hr] at hspace
  rw [← hr'] at hspace'
  have he : r = r' := Reference.eq_of_identity_eq hspace hspace' hi
  rw [he]

theorem coherent (t : Templates) : t.loader.Coherent := t.faithful.coherent

theorem agreeOn {t t' : Templates} {files : List String}
    (h : ∀ path r source, r = Reference.parse path defaultExtension → r.file ∈ files →
      t.get? r.identity = some source → t'.get? r.identity = some source) :
    t.loader.AgreeOn t'.loader files := by
  intro path view hl hv
  rw [loader_locate] at hl
  obtain ⟨r, hr, hcheck, hc, rfl⟩ := locate_eq_ok.mp hl
  obtain ⟨source, hsource⟩ := Table.contains_iff.mp hc
  have hsource' := h path r source hr hv hsource
  have hc' := Table.contains_iff.mpr ⟨source, hsource'⟩
  refine ⟨?_, ?_⟩
  · rw [loader_locate]
    exact locate_eq_ok.mpr ⟨r, hr, hcheck, hc', rfl⟩
  · rw [loader_read, loader_read]
    simp only [read, View.identity, hsource, hsource']

end Templates

namespace Directories

/-- How a template is found: its file below the directory of its namespace, and where the two lie
once links are followed. -/
structure Found (t : Directories) (d : Disk) (path : String) where
  reference : Reference
  dir : String
  place : Path
  base : Path
  spelled : reference = Reference.parse path t.extension
  checked : reference.check path = .ok ()
  space : t.spaces.get? reference.space = some dir
  isFile : d.isFile (joinPath dir (reference.name ++ "." ++ t.extension)) = true
  found : d.find? (joinPath dir (reference.name ++ "." ++ t.extension)) = some place
  foundBase : d.find? dir = some base
  inside : base.isPrefixOf place = true

theorem locate_of_found {t : Directories} {d : Disk} {path : String} (f : t.Found d path) :
    t.locate d path = .ok ⟨d.text f.place, f.reference⟩ := by
  unfold locate
  rw [← f.spelled]
  simp only [f.checked, f.space, f.isFile, f.found, f.foundBase, f.inside, if_true]

theorem found_of_locate {t : Directories} {d : Disk} {path : String} {view : View}
    (h : t.locate d path = .ok view) :
    ∃ f : t.Found d path, view = ⟨d.text f.place, f.reference⟩ := by
  unfold locate at h
  generalize hr : Reference.parse path t.extension = r at h
  dsimp only at h
  split at h
  · cases h
  · next hcheck =>
    split at h
    · cases h
    · next dir hspace =>
      split at h
      · next hfile =>
        split at h
        · next p q hp hq =>
          split at h
          · next hpq =>
            cases h
            exact ⟨⟨r, dir, p, q, hr.symm, hcheck, hspace, hfile, hp, hq, hpq⟩, rfl⟩
          · cases h
        · cases h
      · cases h

theorem loader_locate (t : Directories) (d : Disk) : (t.loader d).locate = t.locate d := by
  simp only [loader]

theorem faithful (t : Directories) (d : Disk) : (t.loader d).Faithful := by
  intro path path' view view' h h' hi
  rw [loader_locate] at h h'
  obtain ⟨f, rfl⟩ := found_of_locate h
  obtain ⟨f', rfl⟩ := found_of_locate h'
  have hspace := f.spelled ▸ Reference.colon_not_mem_space path t.extension
  have hspace' := f'.spelled ▸ Reference.colon_not_mem_space path' t.extension
  have hr : f.reference = f'.reference := Reference.eq_of_identity_eq hspace hspace' hi
  have hdir : f.dir = f'.dir := Option.some.inj (f.space.symm.trans (hr ▸ f'.space))
  have hplace : f.place = f'.place := by
    have hfound := f.found
    rw [hr, hdir, f'.found] at hfound
    exact (Option.some.inj hfound).symm
  rw [hplace, hr]

theorem coherent (t : Directories) (d : Disk) : (t.loader d).Coherent := (t.faithful d).coherent

end Directories

theorem Library.faithful (l : Library) (d : Disk) : (l.loader d).Faithful := by
  cases l with
  | memory t => exact t.faithful
  | directories t => exact t.faithful d

theorem Library.coherent (l : Library) (d : Disk) : (l.loader d).Coherent :=
  (l.faithful d).coherent

end Lamina
