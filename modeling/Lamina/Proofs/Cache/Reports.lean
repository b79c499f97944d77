import Lamina.Proofs.Cache
import Lamina.Proofs.Cache.ReadBack
import Lamina.Proofs.Disk.Ways

/-! What a cache reports is so. After a removal that succeeds there is no entry under the key, and
after a write that succeeds there is the one written, if it fits. The directory may be in any state
before, and files of it in any disorder. -/

namespace Lamina

namespace Disk

variable {d d' d'' : Disk} {dir name x : String} {p q here : Path} {way : List String} {links : Nat}

structure KeepsDirs (d d' : Disk) : Prop where
  root : d'.root = d.root
  workdir : d'.workdir = d.workdir
  dirs : ∀ p, d.item? p = some .dir → d'.item? p = some .dir

theorem KeepsDirs.refl (d : Disk) : d.KeepsDirs d := ⟨rfl, rfl, fun _ => id⟩

theorem KeepsDirs.trans (h : d.KeepsDirs d') (h' : d'.KeepsDirs d'') : d.KeepsDirs d'' :=
  ⟨h'.root.trans h.root, h'.workdir.trans h.workdir, fun p hp => h'.dirs p (h.dirs p hp)⟩

theorem KeepsDirs.home (h : d.KeepsDirs d') (hd : d.Home) : d'.Home := by
  refine ⟨fun here hhere => ?_, h.root ▸ hd.root⟩
  obtain ⟨hr, hdir⟩ := hd.workdir here (h.workdir ▸ hhere)
  have hr' : d'.Real here :=
    ⟨hr.steps, hr.proper, fun q name rest he => h.dirs q (hr.above q name rest he)⟩
  exact ⟨hr', h.dirs here hdir⟩

theorem change?_keepsDirs {change : Change} (h : d.change? change = some d') : d.KeepsDirs d' := by
  cases change with
  | makeDir dir =>
    have hgrown := change?_makeDir h
    exact ⟨hgrown.root, hgrown.workdir, fun p hp => hgrown.item? hp⟩
  | replace dir name text =>
    obtain ⟨p, hp, hdir, rfl⟩ := change?_replace h
    refine ⟨rfl, rfl, fun q hq => ?_⟩
    have hne : q ≠ p := fun he => hdir (he ▸ hq)
    rw [item?_set (ne_nil_of_place? hp), if_neg hne, hq]
  | remove dir name =>
    obtain ⟨p, item, hp, hitem, hdir, rfl⟩ := change?_remove.mp h
    refine ⟨rfl, rfl, fun q hq => ?_⟩
    have hne : q ≠ p := fun he => hdir (Option.some.inj (hitem.symm.trans (he ▸ hq)))
    rw [item?_erase (ne_nil_of_place? hp), if_neg hne, hq]

theorem changeAll_keepsDirs {changes : List Change} (h : d.changeAll changes = (true, d')) :
    d.KeepsDirs d' := by
  induction changes generalizing d with
  | nil =>
    cases h
    exact .refl _
  | cons change changes ih =>
    obtain ⟨d₁, hchange, hrest⟩ := Cache.changeAll_cons h
    exact (change?_keepsDirs hchange).trans (ih hrest)

structure Fewer (d d' : Disk) : Prop extends KeepsDirs d d' where
  items : ∀ p item, d'.item? p = some item → d.item? p = some item

theorem Fewer.refl (d : Disk) : d.Fewer d := ⟨.refl d, fun _ _ => id⟩

theorem Fewer.trans (h : d.Fewer d') (h' : d'.Fewer d'') : d.Fewer d'' :=
  ⟨h.toKeepsDirs.trans h'.toKeepsDirs, fun p item hp => h.items p item (h'.items p item hp)⟩

theorem Fewer.start? (h : d.Fewer d') (from? : Option Path) (text : String) :
    d'.start? from? text = d.start? from? text := by
  unfold Disk.start?
  rw [h.root]

theorem Fewer.leads (h : d.Fewer d') (hl : d'.Leads links here way p) :
    d.Leads links here way p := by
  induction hl with
  | done => exact .done
  | stay _ ih => exact .stay ih
  | up _ ih => exact .up ih
  | dir hname hitem _ ih => exact .dir hname (h.items _ _ hitem) ih
  | file hname hitem => exact .file hname (h.items _ _ hitem)
  | link hname hitem hstart _ ih =>
    exact .link hname (h.items _ _ hitem) ((h.start? _ _).symm.trans hstart) ih

theorem Fewer.resolve (h : d.Fewer d') (hx : d'.resolve x = .ok p) : d.resolve x = .ok p := by
  obtain ⟨hshort, here, way, hstart, hleads⟩ := resolve_eq_ok.mp hx
  rw [h.start?, h.workdir] at hstart
  exact resolve_eq_ok.mpr ⟨hshort, here, way, hstart, h.leads hleads⟩

theorem change?_remove_fewer (h : d.change? (.remove dir name) = some d') : d.Fewer d' := by
  have hdirs := change?_keepsDirs h
  obtain ⟨p, item, hp, -, -, rfl⟩ := change?_remove.mp h
  refine ⟨hdirs, fun q item' hq => ?_⟩
  rw [item?_erase (ne_nil_of_place? hp)] at hq
  split at hq
  · cases hq
  · exact hq

theorem remove_later {content : Content} {time : Time}
    (hp : d.place? dir name = some p) (hitem : d.item? p = some (.file content time))
    (h : d.change? (.remove dir name) = some d') : d.Later d' := by
  have hfewer := change?_remove_fewer h
  refine ⟨hfewer.root, hfewer.workdir, hfewer.dirs, fun x target =>
    ⟨hfewer.items x _, fun hlink => ?_⟩⟩
  obtain ⟨p', item, hp', -, -, rfl⟩ := change?_remove.mp h
  cases hp.symm.trans hp'
  have hne : x ≠ p := fun he => by cases (he ▸ hlink).symm.trans hitem
  rw [item?_erase (ne_nil_of_place? hp), if_neg hne, hlink]

/-- What is not there below a directory is not found by a text with its name. -/
theorem not_resolve_joinPath (hd : d.Home) (hs : IsStep name) (hn : Proper name)
    (h : d.Fewer d') (hdir : d.find? dir = some q) (hgone : d'.item? (q ++ [name]) = none)
    (hroot : joinPath dir name ≠ d.root) : d'.resolve (joinPath dir name) ≠ .ok p := by
  intro hp
  obtain ⟨-, here, way, hstart, -⟩ := resolve_eq_ok.mp (find?_eq_some.mp hdir)
  rw [← h.start?, ← h.workdir] at hstart
  obtain ⟨q', links, hq', hlast⟩ :=
    found_of_resolve_joinPath (h.home hd) hs hstart (h.root ▸ hroot) hp
  cases hdir.symm.trans (find?_eq_some.mpr (h.resolve (find?_eq_some.mp hq'.found)))
  cases hlast with
  | stay => exact hn.ne_here rfl
  | up => exact hn.ne_up rfl
  | dir _ hitem => cases hgone.symm.trans hitem
  | file _ hitem => cases hgone.symm.trans hitem
  | link _ hitem => cases hgone.symm.trans hitem

end Disk

namespace Cache

open Disk

variable {c c' : Cache} {d d' : Disk} {dir key name : String} {e en : Entry} {q : Path}

theorem removeFiles_cons {names : List String} (h : removeFiles dir d (name :: names) = (true, d')) :
    ∃ d₁, removeFiles dir d₁ names = (true, d') ∧
      (d.pathExists (joinPath dir name) = false ∧ d₁ = d ∨
        d.change? (.remove dir name) = some d₁) := by
  rw [removeFiles] at h
  split at h
  · split at h
    · next d₁ hchange => exact ⟨d₁, h, .inr hchange⟩
    · cases h
  · next hexists => exact ⟨d, h, .inl ⟨by simpa using hexists, rfl⟩⟩

theorem removeFiles_fewer {names : List String} (h : removeFiles dir d names = (true, d')) :
    d.Fewer d' := by
  induction names generalizing d with
  | nil =>
    cases h
    exact .refl _
  | cons name names ih =>
    obtain ⟨d₁, hrest, ⟨-, rfl⟩ | hchange⟩ := removeFiles_cons h
    · exact ih hrest
    · exact (change?_remove_fewer hchange).trans (ih hrest)

theorem not_readFile_of_removeFiles {names : List String} (hd : d.Home) (hn : IsEntryName name)
    (h : removeFiles dir d (name :: names) = (true, d')) (text : String) :
    d'.readFile (joinPath dir name) ≠ .ok text := by
  intro hread
  obtain ⟨p, time, hp, hitem⟩ := readFile_eq_ok.mp hread
  have hfewer := removeFiles_fewer h
  obtain ⟨d₁, hrest, ⟨hexists, rfl⟩ | hchange⟩ := removeFiles_cons h
  · rw [pathExists, find?_eq_some.mpr (hfewer.resolve hp)] at hexists
    cases hexists
  · obtain ⟨p', item, hp', -, -, rfl⟩ := change?_remove.mp hchange
    have hgone := (item?_erase (d := d) (ne_nil_of_place? hp') p').trans (if_pos rfl)
    obtain ⟨q, hdir, -, -, -, -, rfl⟩ := place?_eq_some.mp hp'
    have hgone' : d'.item? (q ++ [name]) = Option.none := by
      cases hitem' : d'.item? (q ++ [name]) with
      | none => rfl
      | some item => cases hgone.symm.trans ((removeFiles_fewer hrest).items _ _ hitem')
    have hroot : joinPath dir name ≠ d.root := by
      intro hroot
      rw [hroot, ← hfewer.root] at hp
      obtain rfl := resolve_root hp
      cases d'.item?_nil.symm.trans hitem
    exact not_resolve_joinPath hd hn.isStep hn.proper hfewer hdir hgone' hroot hp

/-- The files of a key can be found in the directory, and none of them is a link. -/
structure Clear (dir key : String) (d : Disk) : Prop where
  home : d.Home
  reachable : ∀ name ∈ [metadataFile key, sourceFile key], Reachable dir name d
  plain : ∀ name ∈ [metadataFile key, sourceFile key], ∀ q target,
    d.item? (q ++ [name]) ≠ some (.link target)

theorem Clear.fewer (h : Clear dir key d) (hf : d.Fewer d') : Clear dir key d' := by
  refine ⟨hf.home h.home, fun name hn => ?_, fun name hn q target hlink => ?_⟩
  · rw [Reachable, hf.root]
    exact h.reachable name hn
  · exact h.plain name hn q target (hf.items _ _ hlink)

theorem Clear.later (h : Clear dir key d) (hl : d.Later d') : Clear dir key d' := by
  refine ⟨hl.home h.home, fun name hn => ?_, fun name hn q target hlink => ?_⟩
  · rw [Reachable, hl.root]
    exact h.reachable name hn
  · exact h.plain name hn q target ((hl.links _ _).mp hlink)

theorem Clear.readFile (h : Clear dir key d) (hk : IsKey key)
    (hn : name ∈ [metadataFile key, sourceFile key]) (hdir : d.find? dir = some q)
    (hq : d.item? q = some .dir) {text : String} {time : Time}
    (hitem : d.item? (q ++ [name]) = some (.file (.text text) time)) :
    d.readFile (joinPath dir name) = .ok text := by
  have hname := isEntryName_of_mem hk name hn
  obtain ⟨hshort, hroot⟩ := h.reachable name hn
  have hresolve := resolve_joinPath h.home hname.isStep hname.proper hname.isPathText hdir hq hitem
    hshort hroot
  exact readFile_eq_ok.mpr ⟨_, time, hresolve, hitem⟩

theorem Clear.write (h : Clear dir e.key d) (hk : IsKey e.key)
    (hw : d.changeAll (writeChanges dir e) = (true, d')) :
    d'.readFile (joinPath dir (metadataFile e.key)) = .ok (Metadata.ofEntry e).compact ∧
      d'.readFile (joinPath dir (sourceFile e.key)) = .ok e.source := by
  obtain ⟨d₁, hmake, hw⟩ := changeAll_cons hw
  obtain ⟨d₂, hsource, hw⟩ := changeAll_cons hw
  obtain ⟨d₃, hmetadata, hw⟩ := changeAll_cons hw
  cases hw
  have h₁ := h.later (change?_makeDir hmake).later
  obtain ⟨q, hdir, hq, hlater₂, hitem₂, -⟩ :=
    replace_later (fun q _ => h₁.plain _ (by simp) q) hsource
  have h₂ := h₁.later hlater₂
  obtain ⟨q', hdir', -, hlater₃, hitem₃, hother⟩ :=
    replace_later (fun q _ => h₂.plain _ (by simp) q) hmetadata
  have h₃ := h₂.later hlater₃
  have hsame : q' = q := Option.some.inj (hdir'.symm.trans (hlater₂.find? hdir hq))
  subst hsame
  have hdir₃ := hlater₃.find? hdir' (hlater₂.dirs _ hq)
  have hq₃ := hlater₃.dirs _ (hlater₂.dirs _ hq)
  have hne : q' ++ [sourceFile e.key] ≠ q' ++ [metadataFile e.key] := by
    intro he
    have hname := (List.cons.inj (List.append_cancel_left he)).1
    exact absurd (fileName_inj hk hk hname).2 (by decide)
  exact ⟨h₃.readFile hk (by simp) hdir₃ hq₃ hitem₃,
    h₃.readFile hk (by simp) hdir₃ hq₃ ((hother _ hne).trans hitem₂)⟩

theorem isFresh_iff :
    (c.isFresh d key).1 = true ↔ ∃ en, Holds c d key en ∧ en.isFresh d = true := by
  unfold isFresh Holds
  rcases c.read d key with ⟨found, c'⟩
  match found with
  | .error fault => exact ⟨nofun, nofun⟩
  | .ok Option.none => exact ⟨nofun, nofun⟩
  | .ok (some entry) =>
    constructor
    · intro h
      exact ⟨entry, rfl, h⟩
    · rintro ⟨en, hen, h⟩
      cases hen
      exact h

theorem delete_fewer (h : c.delete d key = (.ok (), c', d')) : d.Fewer d' := by
  cases c with
  | none =>
    cases h
    exact .refl d
  | memory capacity entries =>
    cases h
    exact .refl d
  | directory dir =>
    exact removeFiles_fewer (delete_directory_eq_ok.mp h).2

theorem write_keepsDirs (h : c.write d e = (.ok (), c', d')) : d.KeepsDirs d' := by
  cases c with
  | none =>
    cases h
    exact .refl d
  | memory capacity entries =>
    cases h
    exact .refl d
  | directory dir =>
    exact changeAll_keepsDirs (write_directory_eq_ok.mp h).2

theorem not_holds_of_delete (hd : ∀ dir, c.directory? = some dir → d.Home) (hk : IsKey key)
    (h : c.delete d key = (.ok (), c', d')) : ¬ Holds c' d' key en := by
  intro hen
  cases c with
  | none =>
    cases h
    cases hen
  | memory capacity entries =>
    cases h
    rw [holds_memory] at hen
    have hmem := List.mem_of_find?_eq_some hen
    have hkey := List.find?_some hen
    simp_all
  | directory dir =>
    obtain ⟨rfl, hremove⟩ := delete_directory_eq_ok.mp h
    obtain ⟨metadata, source, hmetadata, -⟩ := readDirectory_eq_some.mp (holds_directory.mp hen)
    exact not_readFile_of_removeFiles (hd dir rfl) (isEntryName_metadata hk) hremove metadata
      hmetadata

theorem not_isFresh_of_delete (hd : ∀ dir, c.directory? = some dir → d.Home) (hk : IsKey key)
    (h : c.delete d key = (.ok (), c', d')) : (c'.isFresh d' key).1 = false := by
  rw [Bool.eq_false_iff, ne_eq, isFresh_iff]
  rintro ⟨en, hen, -⟩
  exact not_holds_of_delete hd hk h hen

theorem exists_decode?_iff :
    (∃ en, decode? (Metadata.ofEntry e).compact e.source = some en) ↔ e.Fits := by
  rw [← Metadata.isSome_readPart_iff, ← Option.isSome_iff_exists, decode?, Option.isSome_map]

theorem holds_of_readFile {metadata source : String}
    (hmetadata : d.readFile (joinPath dir (metadataFile key)) = .ok metadata)
    (hsource : d.readFile (joinPath dir (sourceFile key)) = .ok source) :
    Holds (directory dir) d key en ↔ decode? metadata source = some en := by
  rw [holds_directory, readDirectory_eq_some]
  constructor
  · rintro ⟨metadata', source', hmetadata', hsource', h⟩
    obtain rfl := Except.ok.inj (hmetadata.symm.trans hmetadata')
    obtain rfl := Except.ok.inj (hsource.symm.trans hsource')
    exact h
  · intro h
    exact ⟨metadata, source, hmetadata, hsource, h⟩

/-- After a write that succeeds there is a fresh entry under the key just if the one written is
fresh and, in a directory, fits. -/
theorem isFresh_of_write (hc : c.Keeps) (hk : IsKey e.key)
    (hclear : ∀ dir, c.directory? = some dir → Clear dir e.key d)
    (hw : c.write d e = (.ok (), c', d')) :
    (c'.isFresh d' e.key).1 = true ↔
      e.isFresh d' = true ∧ (c.directory?.isSome = true → e.Fits) := by
  rw [isFresh_iff]
  cases c with
  | none => exact absurd hc id
  | memory capacity entries =>
    cases hw
    obtain ⟨room, rfl⟩ := Nat.exists_eq_add_one_of_ne_zero (Nat.ne_of_gt hc)
    have hfind (en : Entry) : Holds (memory (room + 1)
        ((e :: entries.filter (·.key != e.key)).take (room + 1))) d e.key en ↔ en = e := by
      rw [holds_memory, List.take_succ_cons, List.find?_cons_of_pos (by simp)]
      exact ⟨fun h => (Option.some.inj h).symm, fun h => h ▸ rfl⟩
    simp only [hfind, exists_eq_left]
    exact ⟨fun h => ⟨h, nofun⟩, fun h => h.1⟩
  | directory dir =>
    obtain ⟨rfl, hchange⟩ := write_directory_eq_ok.mp hw
    obtain ⟨hmetadata, hsource⟩ := (hclear dir rfl).write hk hchange
    simp only [holds_of_readFile hmetadata hsource]
    constructor
    · rintro ⟨en, hen, hfresh⟩
      refine ⟨?_, fun _ => exists_decode?_iff.mp ⟨en, hen⟩⟩
      rwa [Entry.isFresh, ← (alike_of_decode? hen).dependencies]
    · rintro ⟨hfresh, hfits⟩
      obtain ⟨en, hen⟩ := exists_decode?_iff.mpr (hfits rfl)
      refine ⟨en, hen, ?_⟩
      rwa [Entry.isFresh, (alike_of_decode? hen).dependencies]

structure Open (dir key : String) (q : Path) (d : Disk) : Prop where
  found : d.find? dir = some q
  isDir : d.item? q = some .dir
  files : ∀ name ∈ [metadataFile key, sourceFile key], ∀ item, d.item? (q ++ [name]) = some item →
    ∃ content time, item = .file content time

theorem Open.later (h : Open dir key q d) (hl : d.Later d')
    (hitem : ∀ name ∈ [metadataFile key, sourceFile key], ∀ item,
      d'.item? (q ++ [name]) = some item →
        d.item? (q ++ [name]) = some item ∨ ∃ content time, item = .file content time) :
    Open dir key q d' := by
  refine ⟨hl.find? h.found h.isDir, hl.dirs q h.isDir, fun name hn item hi => ?_⟩
  rcases hitem name hn item hi with hi | hfile
  · exact h.files name hn item hi
  · exact hfile

theorem Open.place? (h : Open dir key q d) (hc : Clear dir key d) (hk : IsKey key)
    (hn : name ∈ [metadataFile key, sourceFile key]) : d.place? dir name = some (q ++ [name]) := by
  have hname := isEntryName_of_mem hk name hn
  exact place?_eq_some.mpr
    ⟨q, h.found, h.isDir, hname.proper.short, (hc.reachable name hn).1, hname.isPathText, rfl⟩

theorem Open.replace (h : Open dir key q d) (hc : Clear dir key d) (hk : IsKey key)
    (hn : name ∈ [metadataFile key, sourceFile key]) (text : String) :
    ∃ d', d.change? (.replace dir name text) = some d' ∧ d.Later d' ∧ Open dir key q d' := by
  have hne : d.item? (q ++ [name]) ≠ some .dir := by
    intro hdir
    obtain ⟨content, time, hfile⟩ := h.files name hn _ hdir
    cases hfile
  have hchange : d.change? (.replace dir name text) =
      some { d with items := d.items.set (q ++ [name]) (.file (.text text) d.clock) } := by
    simp only [Disk.change?, h.place? hc hk hn, bind, Option.bind_some]
  obtain ⟨q', hdir', -, hlater, hitem, hother⟩ :=
    replace_later (fun q _ => hc.plain name hn q) hchange
  obtain rfl := Option.some.inj (hdir'.symm.trans h.found)
  refine ⟨_, hchange, hlater, h.later hlater fun other _ item hi => ?_⟩
  by_cases he : q' ++ [other] = q' ++ [name]
  · rw [he, hitem] at hi
    exact .inr ⟨_, _, (Option.some.inj hi).symm⟩
  · exact .inl ((hother _ he).symm.trans hi)

theorem Open.write (h : Open dir e.key q d) (hc : Clear dir e.key d) (hk : IsKey e.key)
    (hmake : d.change? (.makeDir dir) = some d) :
    ∃ d', d.changeAll (writeChanges dir e) = (true, d') ∧ Clear dir e.key d' ∧
      Open dir e.key q d' := by
  have hs : sourceFile e.key ∈ [metadataFile e.key, sourceFile e.key] := by simp
  have hm : metadataFile e.key ∈ [metadataFile e.key, sourceFile e.key] := by simp
  obtain ⟨d₁, hsource, hlater₁, h₁⟩ := h.replace hc hk hs e.source
  have hc₁ := hc.later hlater₁
  obtain ⟨d₂, hmetadata, hlater₂, h₂⟩ :=
    h₁.replace hc₁ hk hm (Metadata.ofEntry e).compact
  refine ⟨d₂, ?_, hc₁.later hlater₂, h₂⟩
  simp only [writeChanges, changeAll, hmake, hsource, hmetadata]

theorem Open.removeFiles (h : Open dir key q d) (hc : Clear dir key d) (hk : IsKey key)
    {names : List String} (hn : names ⊆ [metadataFile key, sourceFile key]) :
    ∃ d', Cache.removeFiles dir d names = (true, d') := by
  induction names generalizing d with
  | nil => exact ⟨d, rfl⟩
  | cons name names ih =>
    obtain ⟨hname, hrest⟩ := List.cons_subset.mp hn
    rw [Cache.removeFiles]
    split
    · next hexists =>
      have hentry := isEntryName_of_mem hk name hname
      obtain ⟨p, hp⟩ := Option.isSome_iff_exists.mp hexists
      cases hitem : d.item? (q ++ [name]) with
      | none =>
        exact absurd (find?_eq_some.mp hp) (not_resolve_joinPath hc.home hentry.isStep hentry.proper
          (.refl d) h.found hitem (hc.reachable name hname).2)
      | some item =>
        obtain ⟨content, time, rfl⟩ := h.files name hname item hitem
        have hfile : Item.file content time ≠ .dir := Item.noConfusion
        have hchange := change?_remove.mpr ⟨_, _, h.place? hc hk hname, hitem, hfile, rfl⟩
        rw [hchange]
        have hfewer := change?_remove_fewer hchange
        have hlater := remove_later (h.place? hc hk hname) hitem hchange
        exact ih (h.later hlater fun other _ item hi => .inl (hfewer.items _ _ hi))
          (hc.fewer hfewer) hrest
    · exact ih h hc hrest

end Cache

end Lamina
