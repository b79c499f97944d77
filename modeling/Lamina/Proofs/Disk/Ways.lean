import Lamina.Proofs.Disk.Change

/-! Ways through directories. A directory that is there is not made again, and what the text of a
name below it leads to is what is there under the name. -/

namespace Lamina.Disk

variable {d d' : Disk} {dir name x : String} {p q here : Path} {way : List String} {links : Nat}
  {content : Content}

theorem Leads.mono {more : Nat} (h : d.Leads links here way p) (hle : links ≤ more) :
    d.Leads more here way p := by
  induction h generalizing more with
  | done => exact .done
  | stay _ ih => exact .stay (ih hle)
  | up _ ih => exact .up (ih hle)
  | dir hname hitem _ ih => exact .dir hname hitem (ih hle)
  | file hname hitem => exact .file hname hitem
  | link hname hitem hstart _ ih =>
    obtain ⟨more, rfl⟩ := Nat.exists_eq_succ_of_ne_zero (Nat.ne_zero_of_lt hle)
    exact .link hname hitem hstart (ih (Nat.le_of_succ_le_succ hle))

theorem Leads.inside (h : d.Leads links here way q) (hd : d.Inside here)
    (hq : d.item? q = some .dir) : d.Inside q := by
  induction h with
  | done => exact hd
  | stay _ ih => exact ih hd hq
  | up _ ih => exact ih (hd.of_prefix (List.dropLast_prefix _)) hq
  | dir _ hitem _ ih => exact ih (hd.concat hitem) hq
  | file _ hitem => exact absurd (hitem.symm.trans hq) nofun
  | link _ _ hstart _ ih => exact ih (hd.start hstart) hq

/-- A way that leads to a directory is not made again. -/
theorem Leads.makeWay (h : d.Leads links here way q) (hle : links ≤ 40) (hd : d.Inside here)
    (hq : d.item? q = some .dir) : d.makeWay here way = some d := by
  induction way generalizing here links with
  | nil =>
    rw [Disk.makeWay, hd here (List.prefix_refl here)]
    rfl
  | cons step rest ih =>
    rw [← List.singleton_append] at h
    obtain ⟨q', links', hle', hfirst, hrest, hdir⟩ := h.split
    have hdir' : d.item? q' = some .dir := by
      rcases hdir hd with hdir | rfl
      · exact hdir
      · cases hrest
        exact hq
    rw [Disk.makeWay, (hfirst.mono hle).follow]
    simp only [hdir', beq_self_eq_true, if_true]
    exact ih hrest (Nat.le_trans hle' hle) (hfirst.inside hd hdir')

theorem exists_leads_of_resolve (hd : d.Home) (h : d.resolve x = .ok p) :
    ∃ here way, x.utf8ByteSize ≤ maxPath ∧ d.start? d.workdir x = some (here, way) ∧
      d.Leads 40 here way p ∧ d.Inside here := by
  obtain ⟨hshort, here, way, hstart, hleads⟩ := resolve_eq_ok.mp h
  refine ⟨here, way, hshort, hstart, hleads, ?_⟩
  rcases (start?_spec hstart).1 with rfl | hhere
  · exact inside_nil d
  · exact (hd.workdir here hhere).1.inside (hd.workdir here hhere).2

/-- The text leads to a directory. -/
structure Found (dir : String) (q : Path) (d : Disk) : Prop where
  home : d.Home
  found : d.find? dir = some q
  isDir : d.item? q = some .dir

theorem Found.inj {q' : Path} (h : Found dir q d) (h' : Found dir q' d) : q' = q :=
  Option.some.inj (h'.found.symm.trans h.found)

/-- Making a directory that is there changes nothing. -/
theorem Found.makeDir (h : Found dir q d) : d.change? (.makeDir dir) = some d := by
  obtain ⟨here, way, hshort, hstart, hleads, hd⟩ :=
    exists_leads_of_resolve h.home (find?_eq_some.mp h.found)
  have hmake := hleads.makeWay (Nat.le_refl 40) hd h.isDir
  simp only [change?, hstart, bind, Option.bind_some, if_neg (Nat.not_lt.mpr hshort), hmake]

theorem Later.find? (h : d.Later d') (hdir : d.find? dir = some q) (hq : d.item? q = some .dir) :
    d'.find? dir = some q := by
  refine find?_eq_some.mpr (h.resolve (fun content time hfile => ?_) (find?_eq_some.mp hdir))
  exact absurd (hfile.symm.trans hq) nofun

def content? (d : Disk) (x : String) : Option Content :=
  match d.itemAt? x with
  | some (.file content _) => some content
  | _ => none

theorem content?_eq_some : d.content? x = some content ↔
    ∃ p time, d.resolve x = .ok p ∧ d.item? p = some (.file content time) := by
  unfold content?
  split
  · next content' time h =>
    obtain ⟨p, hp, hitem⟩ := itemAt?_eq_some.mp h
    constructor
    · rintro ⟨⟩
      exact ⟨p, time, hp, hitem⟩
    · rintro ⟨p', time', hp', hitem'⟩
      cases hp.symm.trans hp'
      cases hitem.symm.trans hitem'
      rfl
  · next h =>
    refine ⟨nofun, ?_⟩
    rintro ⟨p, time, hp, hitem⟩
    exact absurd (itemAt?_eq_some.mpr ⟨p, hp, hitem⟩) (h content time)

theorem isFile_eq (d : Disk) (x : String) : d.isFile x = (d.content? x).isSome := by
  unfold isFile content?
  rcases d.itemAt? x with _ | ⟨_ | _ | _⟩ <;> rfl

theorem readFile_eq_ok_iff {text : String} :
    d.readFile x = .ok text ↔ d.content? x = some (.text text) := by
  rw [readFile_eq_ok, content?_eq_some]

theorem content?_of_not_pathExists (h : d.pathExists x = false) : d.content? x = none := by
  refine Option.eq_none_iff_forall_ne_some.mpr fun content hcontent => ?_
  obtain ⟨p, time, hp, -⟩ := content?_eq_some.mp hcontent
  rw [pathExists, find?_eq_some.mpr hp] at h
  cases h

theorem Found.later (h : Found dir q d) (hl : d.Later d') : Found dir q d' :=
  ⟨hl.home h.home, hl.find? h.found h.isDir, hl.dirs q h.isDir⟩

theorem Leads.concat_dot (h : d.Leads links here way q) (hq : d.item? q = some .dir) :
    d.Leads links here (way ++ ["."]) q := by
  induction h with
  | done => exact .stay .done
  | stay _ ih => exact .stay (ih hq)
  | up _ ih => exact .up (ih hq)
  | dir hname hitem _ ih => exact .dir hname hitem (ih hq)
  | file _ hitem => exact absurd (hitem.symm.trans hq) nofun
  | link hname hitem hstart _ ih =>
    exact .link hname hitem hstart (List.append_assoc .. ▸ ih hq)

theorem utf8ByteSize_le_joinPath (dir name : String) (hs : IsStep name) :
    dir.utf8ByteSize ≤ (joinPath dir name).utf8ByteSize := by
  have hslash : Text.startsWith "/" name = false := by
    rw [Bool.eq_false_iff, ne_eq, Text.startsWith_iff]
    exact fun h => hs.2 (h.subset (by simp))
  unfold joinPath
  rw [hslash, Bool.false_or]
  split
  · next hempty => simp [String.isEmpty_iff.mp hempty]
  · split <;> simp only [String.utf8ByteSize_append] <;> omega

theorem isPathText_of_joinPath (hs : IsStep name) (h : isPathText (joinPath dir name) = true) :
    isPathText name = true := by
  have hzero : '\x00' ∉ (joinPath dir name).toList := by simpa [isPathText] using h
  rcases toList_joinPath dir hs with ⟨-, hx⟩ | ⟨base, hx, -⟩
  · exact hx ▸ h
  · have hname : '\x00' ∉ name.toList := fun hm =>
      hzero (hx ▸ List.mem_append_right _ (List.mem_cons_of_mem _ hm))
    simpa [isPathText] using hname

/-- What the text of a name below a directory leads to is found in the directory. -/
theorem found_of_resolve_joinPath (hd : d.Home) (hs : IsStep name)
    (hdir : d.start? d.workdir dir = some (here, way)) (hroot : joinPath dir name ≠ d.root)
    (hp : d.resolve (joinPath dir name) = .ok p) :
    ∃ q links, Found dir q d ∧ d.Leads links q [name] p := by
  obtain ⟨here', way', hshort, hstart, hleads, hinside⟩ := exists_leads_of_resolve hd hp
  have htext := isPathText_of_joinPath hs (start?_eq_some.mp hstart).2.1
  obtain ⟨w, hstart', hway⟩ := start?_joinPath_of_dir hd hs htext hdir hroot
  cases hstart.symm.trans hstart'
  obtain ⟨q, links, -, hq, hlast, hqdir⟩ := hleads.split
  have hqdir := (hqdir hinside).resolve_right (List.cons_ne_nil name [])
  have hwhole : d.Leads 40 here way q := by
    rcases hway with rfl | rfl
    · exact hq
    · exact hq.concat_dot hqdir
  have hfind := resolve_eq_ok.mpr
    ⟨Nat.le_trans (utf8ByteSize_le_joinPath dir name hs) hshort, here, way, hdir, hwhole⟩
  exact ⟨q, links, ⟨hd, find?_eq_some.mpr hfind, hqdir⟩, hlast⟩

/-- The content of a file in a directory: it is what is there under the name, unless that or the
text that leads there is none for a file. -/
theorem Found.content? (h : Found dir q d) (hs : IsStep name) (hn : name ≠ "." ∧ name ≠ "..")
    (hl : ∀ target, d.item? (q ++ [name]) ≠ some (.link target))
    (hroot : joinPath dir name ≠ d.root) :
    d.content? (joinPath dir name) = some content ↔
      (name.utf8ByteSize ≤ maxName ∧ isPathText name = true ∧
        (joinPath dir name).utf8ByteSize ≤ maxPath) ∧
        ∃ time, d.item? (q ++ [name]) = some (.file content time) := by
  obtain ⟨-, here, way, hdir, -⟩ := resolve_eq_ok.mp (find?_eq_some.mp h.found)
  rw [content?_eq_some]
  constructor
  · rintro ⟨p, time, hp, hitem⟩
    obtain ⟨hshort, _, _, hstart, -⟩ := resolve_eq_ok.mp hp
    have htext := isPathText_of_joinPath hs (start?_eq_some.mp hstart).2.1
    obtain ⟨q', links, hq', hlast⟩ := found_of_resolve_joinPath h.home hs hdir hroot hp
    obtain rfl := h.inj hq'
    cases hlast with
    | stay => exact absurd rfl hn.1
    | up => exact absurd rfl hn.2
    | dir _ hitem' hrest =>
      cases hrest
      cases hitem'.symm.trans hitem
    | file hname => exact ⟨⟨hname.short, htext, hshort⟩, time, hitem⟩
    | link _ hitem' => exact absurd hitem' (hl _)
  · rintro ⟨⟨hshort, htext, hpath⟩, time, hitem⟩
    have hresolve := resolve_joinPath h.home hs ⟨hn.1, hn.2, hshort⟩ htext h.found h.isDir hitem
      hpath hroot
    exact ⟨_, time, hresolve, hitem⟩

end Lamina.Disk
