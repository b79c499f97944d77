import Lamina.Proofs.Cache.Stems

/-! Writes that fail. An entry is put in two files, one after the other. If the second one cannot be
put, the metadata of the entry before stands beside the new chunk, and both are read as an entry
that was never written. -/

namespace Lamina

namespace Disk

variable {d d' : Disk} {dir name text x : String} {p q here : Path} {way : List String}
  {links : Nat} {content : Content} {time : Time}

/-- Some of the changes were made and the next one was not. -/
def Interrupted (changes : List Change) (d d' : Disk) : Prop :=
  ∃ n, n < changes.length ∧ d.changeAll (changes.take n) = (true, d')

theorem interrupted_of_changeAll {changes : List Change} (h : d.changeAll changes = (false, d')) :
    Interrupted changes d d' := by
  induction changes generalizing d with
  | nil => cases h
  | cons change changes ih =>
    rw [changeAll] at h
    split at h
    · next d₁ hchange =>
      obtain ⟨n, hn, hrest⟩ := ih h
      refine ⟨n + 1, Nat.succ_lt_succ hn, ?_⟩
      rw [List.take_succ_cons, changeAll, hchange]
      exact hrest
    · cases h
      exact ⟨0, Nat.succ_pos _, rfl⟩

theorem Grown.readFile (h : d.Grown d') (hx : d.readFile x = .ok text) :
    d'.readFile x = .ok text := by
  obtain ⟨p, time, hp, hitem⟩ := readFile_eq_ok.mp hx
  have hstays : d.StaysFile d' p := fun content time hfile => ⟨content, time, h.item? hfile⟩
  exact readFile_eq_ok.mpr ⟨p, time, h.later.resolve hstays hp, h.item? hitem⟩

theorem Leads.of_set (hp : p ≠ [])
    (h : Leads { d with items := d.items.set p (.file content time) } links here way q) :
    q = p ∨ Leads { d with items := d.items.erase p } links here way q := by
  have hkept {x : Path} {item : Item} (hitem : Disk.item?
      { d with items := d.items.set p (.file content time) } x = some item) (hx : x ≠ p) :
      Disk.item? { d with items := d.items.erase p } x = some item := by
    rw [item?_set hp, if_neg hx] at hitem
    rw [item?_erase hp, if_neg hx, hitem]
  have hother {x : Path} {item : Item} (hitem : Disk.item?
      { d with items := d.items.set p (.file content time) } x = some item)
      (hne : item ≠ .file content time) : x ≠ p := fun he => by
    rw [item?_set hp, if_pos he] at hitem
    exact hne (Option.some.inj hitem).symm
  induction h with
  | done => exact .inr .done
  | stay _ ih => exact ih.imp_right .stay
  | up _ ih => exact ih.imp_right .up
  | dir hname hitem _ ih => exact ih.imp_right (.dir hname (hkept hitem (hother hitem (by simp))))
  | @file _ here name _ _ hname hitem =>
    by_cases hx : here ++ [name] = p
    · exact .inl hx
    · exact .inr (.file hname (hkept hitem hx))
  | link hname hitem hstart _ ih =>
    exact ih.imp_right (.link hname (hkept hitem (hother hitem (by simp))) hstart)

theorem resolve_of_set (hp : p ≠ [])
    (h : resolve { d with items := d.items.set p (.file content time) } x = .ok q) :
    q = p ∨ resolve { d with items := d.items.erase p } x = .ok q := by
  obtain ⟨hshort, here, way, hstart, hleads⟩ := resolve_eq_ok.mp h
  exact (hleads.of_set hp).imp_right fun hl => resolve_eq_ok.mpr ⟨hshort, here, way, hstart, hl⟩

theorem erase_fewer (hp : p ≠ []) (hdir : d.item? p ≠ some .dir) :
    d.Fewer { d with items := d.items.erase p } := by
  refine ⟨⟨rfl, rfl, fun x hx => ?_⟩, fun x item hx => ?_⟩
  · have hne : x ≠ p := fun he => hdir (he ▸ hx)
    rw [item?_erase hp, if_neg hne, hx]
  · rw [item?_erase hp] at hx
    split at hx
    · cases hx
    · exact hx

theorem readFile_of_replace {text' : String} (h : d.change? (.replace dir name text) = some d')
    (hx : d'.readFile x = .ok text') :
    text' = text ∨ ∃ p y time, d.place? dir name = some p ∧ d.item? p ≠ some .dir ∧
      resolve { d with items := d.items.erase p } x = .ok y ∧
      d.item? y = some (.file (.text text') time) := by
  obtain ⟨p, hp, hdir, rfl⟩ := change?_replace h
  have hne := ne_nil_of_place? hp
  obtain ⟨y, time, hy, hitem⟩ := readFile_eq_ok.mp hx
  rw [item?_set hne] at hitem
  split at hitem
  · cases hitem
    exact .inl rfl
  · next hother =>
    exact .inr ⟨p, y, time, hp, hdir, (resolve_of_set hne hy).resolve_left hother, hitem⟩

theorem readFile_before_replace {text' : String} (h : d.change? (.replace dir name text) = some d')
    (hx : d'.readFile x = .ok text') : text' = text ∨ d.readFile x = .ok text' := by
  refine (readFile_of_replace h hx).imp_right fun ⟨p, y, time, hp, hdir, hy, hitem⟩ => ?_
  have hfewer := erase_fewer (ne_nil_of_place? hp) hdir
  exact readFile_eq_ok.mpr ⟨y, time, hfewer.resolve hy, hitem⟩

theorem readFile_replaced {text' : String} (hd : d.Home) (hs : IsStep name)
    (hn : name ≠ "." ∧ name ≠ "..") (h : d.change? (.replace dir name text) = some d')
    (hx : d'.readFile (joinPath dir name) = .ok text') : text' = text := by
  refine (readFile_of_replace h hx).resolve_right fun ⟨p, y, time, hp, hdir, hy, hitem⟩ => ?_
  have hfewer := erase_fewer (ne_nil_of_place? hp) hdir
  have hgone := (item?_erase (d := d) (ne_nil_of_place? hp) p).trans (if_pos rfl)
  obtain ⟨q, hq, -, hshort, -, -, rfl⟩ := place?_eq_some.mp hp
  have hroot : joinPath dir name ≠ d.root := fun hroot => by
    rw [hroot] at hy
    obtain rfl := resolve_root (hfewer.resolve hy)
    cases d.item?_nil.symm.trans hitem
  exact not_resolve_joinPath hd hs ⟨hn.1, hn.2, hshort⟩ hfewer hq hgone hroot hy

end Disk

namespace Cache

open Disk

variable {d d' : Disk} {dir : String} {q : Path} {e en old : Entry}

/-- The file system in which a directory is there, if it can be made. -/
def made (dir : String) (d : Disk) : Disk := (d.change? (.makeDir dir)).getD d

theorem made_of_isDir (hd : d.Home) (h : d.isDir dir = true) : made dir d = d := by
  obtain ⟨q, hq, hdir⟩ := itemAt?_eq_some.mp (eq_of_beq h)
  rw [made, Found.makeDir ⟨hd, find?_eq_some.mpr hq, hdir⟩]
  rfl

theorem grown_made (dir : String) (d : Disk) : d.Grown (made dir d) := by
  rw [made]
  cases hmake : d.change? (.makeDir dir) with
  | none => exact .refl d
  | some d₁ => exact change?_makeDir hmake

/-- An entry of which one part is the new chunk and the other part the metadata that was there. -/
def Mixed (dir : String) (d : Disk) (e en : Entry) : Prop :=
  ∃ metadata, decode? metadata e.source = some en ∧
    (metadata = e.source ∨ d.readFile (joinPath dir (metadataFile e.key)) = .ok metadata)

/-- The chunk of an entry is written, and its metadata is not. -/
def Torn (dir : String) (e : Entry) (d d' : Disk) : Prop :=
  d.changeAll ((writeChanges dir e).take 2) = (true, d')

theorem interrupted_writeChanges (h : Interrupted (writeChanges dir e) d d') :
    d' = d ∨ d' = made dir d ∨ Torn dir e d d' := by
  obtain ⟨n, hn, h⟩ := h
  rcases n with _ | _ | _ | n
  · cases h
    exact .inl rfl
  · obtain ⟨d₁, hmake, hrest⟩ := changeAll_cons h
    cases hrest
    rw [made, hmake]
    exact .inr (.inl rfl)
  · exact .inr (.inr h)
  · exact absurd hn (Nat.not_lt.mpr (Nat.le_add_left 3 n))

theorem changeAll_of_write_error {fault : CacheFault} {c' : Cache}
    (h : (directory dir).write d e = (.error fault, c', d')) :
    d.changeAll (writeChanges dir e) = (false, d') := by
  rw [write] at h
  generalize d.changeAll (writeChanges dir e) = result at h ⊢
  obtain ⟨_ | _, after⟩ := result
  · cases h
    rfl
  · cases h

theorem readDirectory_of_grown (h : d.Grown d')
    (hen : readDirectory dir d e.key = .ok (some en)) :
    readDirectory dir d' e.key = .ok (some en) := by
  obtain ⟨metadata, source, hmetadata, hsource, hdecode⟩ := readDirectory_eq_some.mp hen
  exact readDirectory_eq_some.mpr
    ⟨metadata, source, h.readFile hmetadata, h.readFile hsource, hdecode⟩

theorem Torn.replace (h : Torn dir e d d') :
    (made dir d).change? (.replace dir (sourceFile e.key) e.source) = some d' := by
  obtain ⟨d₁, hmake, h⟩ := changeAll_cons h
  obtain ⟨d₂, hsource, h⟩ := changeAll_cons h
  cases h
  rw [made, hmake]
  exact hsource

theorem Torn.mixed (h : Torn dir e d d') (hd : d.Home)
    (hen : readDirectory dir d' e.key = .ok (some en)) : Mixed dir (made dir d) e en := by
  obtain ⟨metadata, source, hmetadata, hsource, hdecode⟩ := readDirectory_eq_some.mp hen
  have hname := isFileName_source e.key
  obtain rfl := readFile_replaced ((grown_made dir d).later.home hd) hname.isStep hname.ne_dots
    h.replace hsource
  exact ⟨metadata, hdecode, readFile_before_replace h.replace hmetadata⟩

theorem Torn.read (h : Torn dir e d d') (hs : Shelf dir q (made dir d))
    (hold : readDirectory dir (made dir d) e.key = .ok (some old)) :
    readDirectory dir d' e.key = .ok (some { old with source := e.source }) := by
  obtain ⟨-, hsource, hspares⟩ := hs.replace (isFileName_source e.key) h.replace
  have hne : metadataFile e.key ∉ [sourceFile e.key] := fun hmem =>
    metadataFile_ne_sourceFile e.key e.key (List.mem_singleton.mp hmem)
  obtain ⟨metadata, source, hmetadata, -, hdecode⟩ := readDirectory_eq_some.mp hold
  have hmetadata' := (hspares _ (isFileName_metadata e.key) hne).trans
    (readFile_eq_ok_iff.mp hmetadata)
  refine readDirectory_eq_some.mpr ⟨metadata, e.source, readFile_eq_ok_iff.mpr hmetadata',
    readFile_eq_ok_iff.mpr hsource, ?_⟩
  obtain ⟨entry, hentry, rfl⟩ := Option.map_eq_some_iff.mp hdecode
  exact Option.map_eq_some_iff.mpr ⟨entry, hentry, rfl⟩

/-- A write that fails leaves under its key what was there, unless the chunk was written and the
metadata was not: then what was there is read with the new chunk. -/
theorem failed_write_mixes_at_most_chunk (hd : d.Home) (dir : String) (e : Entry) (d' : Disk) :
    (d.isDir dir = true → made dir d = d) ∧
      (∀ fault c', (directory dir).write d e = (.error fault, c', d') →
        Interrupted (writeChanges dir e) d d') ∧
      (Interrupted (writeChanges dir e) d d' → ∀ en, readDirectory dir d' e.key = .ok (some en) →
        readDirectory dir (made dir d) e.key = .ok (some en) ∨
          Torn dir e d d' ∧ Mixed dir (made dir d) e en) ∧
      (Torn dir e d d' → Interrupted (writeChanges dir e) d d' ∧
        ∀ q old, Shelf dir q (made dir d) →
          readDirectory dir (made dir d) e.key = .ok (some old) →
          readDirectory dir d' e.key = .ok (some { old with source := e.source })) := by
  refine ⟨made_of_isDir hd, fun fault c' h => ?_, fun h en hen => ?_, fun h => ?_⟩
  · exact interrupted_of_changeAll (changeAll_of_write_error h)
  · rcases interrupted_writeChanges h with rfl | rfl | h
    · exact .inl (readDirectory_of_grown (grown_made dir d') hen)
    · exact .inl hen
    · exact .inr ⟨h, h.mixed hd hen⟩
  · exact ⟨⟨2, by simp [writeChanges], h⟩, fun q old => h.read⟩

/-- An entry for a key that has one, with another template and another chunk. -/
def rewritten : Entry := { slip "k" "return 2" with template := "u" }

theorem failed_write_mixes_at_most_chunk_slip : ∃ d d',
    d.Home ∧ readDirectory "/r/c" d "k" = .ok (some (slip "k" "return 1")) ∧
      Interrupted (writeChanges "/r/c" rewritten) d d' ∧
      readDirectory "/r/c" d' "k" =
        .ok (some { slip "k" "return 1" with source := rewritten.source }) := by
  have hempty : Unmade "/r/c" (Disk.empty "/r") :=
    .of_empty (by decide) (by decide) (by decide +kernel)
  let written := (Disk.empty "/r").changeAll (writeChanges "/r/c" (slip "k" "return 1"))
  have hwritten : written = (true, written.2) := Prod.ext (by decide +kernel) rfl
  obtain ⟨q, hshelf, hread⟩ := (Ready.missing hempty).write hwritten (by decide +kernel)
  let torn := written.2.changeAll ((writeChanges "/r/c" rewritten).take 2)
  have htorn : Torn "/r/c" rewritten written.2 torn.2 := Prod.ext (by decide +kernel) rfl
  obtain ⟨hmade, -, -, hmixed⟩ :=
    failed_write_mixes_at_most_chunk hshelf.home "/r/c" rewritten torn.2
  have hmade := hmade (by decide +kernel)
  obtain ⟨hinterrupted, hmixed⟩ := hmixed htorn
  refine ⟨written.2, torn.2, hshelf.home, hread "k", hinterrupted, ?_⟩
  exact hmixed q (slip "k" "return 1") (hmade.symm ▸ hshelf) (hmade.symm ▸ hread "k")

/-- A write that stops after the chunk leaves an entry that was never written. -/
theorem torn_entry_is_read : ∃ d d',
    Interrupted (writeChanges "/r/c" rewritten) d d' ∧
      readDirectory "/r/c" d "k" = .ok (some (slip "k" "return 1")) ∧
      readDirectory "/r/c" d' "k" = .ok (some (slip "k" "return 2")) ∧
      slip "k" "return 2" ∉ [slip "k" "return 1", rewritten] := by
  let written := (Disk.empty "/r").changeAll (writeChanges "/r/c" (slip "k" "return 1"))
  let torn := written.2.changeAll ((writeChanges "/r/c" rewritten).take 2)
  have htorn : torn = (true, torn.2) := Prod.ext (by decide +kernel) rfl
  exact ⟨written.2, torn.2, ⟨2, by decide, htorn⟩, by decide +kernel, by decide +kernel,
    by decide +kernel⟩

end Cache

end Lamina
