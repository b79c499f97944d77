import Lamina.Proofs.Cache.Reports

/-! A directory of entries as a map. What it holds under a key is told by the last of the orders
that were carried out under the key's stem. Keys with one stem share their files, so what is ordered
under one of them is ordered under all. -/

namespace Lamina.Cache

open Disk

/-- What the names of a key's files start with. -/
def stem (key : String) : String := String.ofList (key.toList.map safeChar)

inductive Order
  | write (e : Entry)
  | delete (key : String)
  deriving DecidableEq, Repr

def Order.key : Order → String
  | write e => e.key
  | delete key => key

/-- What is to be found under the key from then on. -/
def Order.entry? : Order → Option Entry
  | write e => some e
  | delete _ => Option.none

/-- The file system after something was done, if it did not fail. -/
def done? (result : Except CacheFault Unit × Cache × Disk) : Option Disk :=
  result.1.toOption.map fun _ => result.2.2

def Order.carryOut? (dir : String) (d : Disk) : Order → Option Disk
  | write e => done? ((directory dir).write d e)
  | delete key => done? ((directory dir).delete d key)

/-- The file system after orders one by one, if nothing fails. -/
def carryOutAll? (dir : String) (d : Disk) : List Order → Option Disk
  | [] => some d
  | o :: rest => (o.carryOut? dir d).bind (carryOutAll? dir · rest)

/-- The last of the orders under the keys with one stem. -/
def lastOrder? (key : String) (orders : List Order) : Option Order :=
  orders.reverse.find? fun o => stem o.key == stem key

variable {d d' d'' : Disk} {dir name text key key' : String} {q : Path} {e : Entry}
  {o : Order} {orders : List Order}

theorem fileName_eq (key suffix : String) : fileName key suffix = stem key ++ suffix := rfl

def IsFileName (name : String) : Prop := ∃ key, name = metadataFile key ∨ name = sourceFile key

theorem isFileName_metadata (key : String) : IsFileName (metadataFile key) := ⟨key, .inl rfl⟩

theorem isFileName_source (key : String) : IsFileName (sourceFile key) := ⟨key, .inr rfl⟩

theorem safeChar_ne_slash (c : Char) : safeChar c ≠ '/' := by
  unfold safeChar
  split
  · decide
  · next h =>
    rintro rfl
    exact h (by decide)

theorem IsFileName.eq_append (h : IsFileName name) : ∃ (key : String) (suffix : List Char),
    name.toList = key.toList.map safeChar ++ suffix ∧ 4 ≤ suffix.length ∧ '/' ∉ suffix := by
  obtain ⟨key, rfl | rfl⟩ := h
  · exact ⟨key, ".meta.json".toList, by simp [metadataFile, fileName], by decide, by decide⟩
  · exact ⟨key, ".lua".toList, by simp [sourceFile, fileName], by decide, by decide⟩

theorem IsFileName.isStep (h : IsFileName name) : IsStep name := by
  obtain ⟨key, suffix, hname, hlength, hslash⟩ := h.eq_append
  constructor
  · rintro rfl
    have hnil := (List.append_eq_nil_iff.mp hname.symm).2
    rw [hnil] at hlength
    cases hlength
  · rw [hname, List.mem_append, List.mem_map]
    rintro (⟨c, -, hc⟩ | hs)
    · exact safeChar_ne_slash c hc
    · exact hslash hs

theorem IsFileName.ne_dots (h : IsFileName name) : name ≠ "." ∧ name ≠ ".." := by
  obtain ⟨key, suffix, hname, hlength, -⟩ := h.eq_append
  have hfour : 4 ≤ name.toList.length := by
    rw [hname, List.length_append]
    omega
  constructor <;> rintro rfl <;> exact absurd hfour (by decide)

theorem metadataFile_inj : metadataFile key = metadataFile key' ↔ stem key = stem key' := by
  rw [metadataFile, metadataFile, fileName_eq, fileName_eq]
  exact String.append_left_inj _

theorem sourceFile_inj : sourceFile key = sourceFile key' ↔ stem key = stem key' := by
  rw [sourceFile, sourceFile, fileName_eq, fileName_eq]
  exact String.append_left_inj _

theorem metadataFile_ne_sourceFile (key key' : String) : metadataFile key ≠ sourceFile key' := by
  intro h
  have hlast := congrArg (fun s => s.toList.getLast?) h
  simp [metadataFile, sourceFile, fileName] at hlast

def entryIn : Option Content → Option Content → Except CacheFault (Option Entry)
  | some (.text metadata), some source =>
    match (Json.readPart Metadata.schema metadata).bind (Metadata.read? · ""), source with
    | Option.none, _ => .error .metadata
    | some entry, .text source => .ok (some { entry with source })
    | some _, .bytes _ => .error .input
  | some (.bytes _), some _ => .error .input
  | _, _ => .ok Option.none

theorem readFile_of_bytes {x : String} {bytes : List UInt8}
    (h : d.content? x = some (.bytes bytes)) : ∃ fault, d.readFile x = .error fault := by
  cases hread : d.readFile x with
  | error fault => exact ⟨fault, rfl⟩
  | ok text => cases h.symm.trans (readFile_eq_ok_iff.mp hread)

theorem readDirectory_eq_entryIn (dir : String) (d : Disk) (key : String) :
    readDirectory dir d key = entryIn (d.content? (joinPath dir (metadataFile key)))
      (d.content? (joinPath dir (sourceFile key))) := by
  unfold readDirectory entryIn
  dsimp only
  rw [isFile_eq, isFile_eq]
  cases hm : d.content? (joinPath dir (metadataFile key)) with
  | none => rfl
  | some metadata =>
    cases hs : d.content? (joinPath dir (sourceFile key)) with
    | none => cases metadata <;> rfl
    | some source =>
      cases metadata with
      | bytes bytes =>
        obtain ⟨fault, hfault⟩ := readFile_of_bytes hm
        rw [hfault]
        rfl
      | text metadata =>
        rw [readFile_eq_ok_iff.mpr hm]
        dsimp only
        cases source with
        | text source =>
          rw [readFile_eq_ok_iff.mpr hs]
          cases (Json.readPart Metadata.schema metadata).bind (Metadata.read? · "") <;> rfl
        | bytes bytes =>
          obtain ⟨fault, hfault⟩ := readFile_of_bytes hs
          rw [hfault]
          cases (Json.readPart Metadata.schema metadata).bind (Metadata.read? · "") <;> rfl

theorem readDirectory_of_stem (h : stem key = stem key') :
    readDirectory dir d key = readDirectory dir d key' := by
  rw [readDirectory_eq_entryIn, readDirectory_eq_entryIn, metadataFile_inj.mpr h,
    sourceFile_inj.mpr h]

def Spares (dir : String) (names : List String) (d d' : Disk) : Prop :=
  ∀ name, IsFileName name → name ∉ names →
    d'.content? (joinPath dir name) = d.content? (joinPath dir name)

theorem Spares.trans {names names' : List String} (h : Spares dir names d d')
    (h' : Spares dir names' d' d'') : Spares dir (names ++ names') d d'' := fun name hn hmem => by
  rw [h' name hn fun hm => hmem (List.mem_append_right _ hm),
    h name hn fun hm => hmem (List.mem_append_left _ hm)]

theorem Spares.read_eq {names : List String} (h : Spares dir names d d') (key : String)
    (hnames : ∀ name ∈ names, name = metadataFile key ∨ name = sourceFile key)
    (hne : stem key' ≠ stem key) : readDirectory dir d' key' = readDirectory dir d key' := by
  have hmetadata : metadataFile key' ∉ names := fun hm => by
    rcases hnames _ hm with he | he
    · exact hne (metadataFile_inj.mp he)
    · exact metadataFile_ne_sourceFile key' key he
  have hsource : sourceFile key' ∉ names := fun hm => by
    rcases hnames _ hm with he | he
    · exact metadataFile_ne_sourceFile key key' he.symm
    · exact hne (sourceFile_inj.mp he)
  rw [readDirectory_eq_entryIn, readDirectory_eq_entryIn, h _ (isFileName_metadata key') hmetadata,
    h _ (isFileName_source key') hsource]

/-- The directory of a cache: it is there, and no file of an entry in it is a link. -/
structure Shelf (dir : String) (q : Path) (d : Disk) : Prop extends Found dir q d where
  plain : ∀ name target, IsFileName name → d.item? (q ++ [name]) ≠ some (.link target)
  apart : ∀ name, IsFileName name → joinPath dir name ≠ d.root

namespace Shelf

theorem later (h : Shelf dir q d) (hl : d.Later d') : Shelf dir q d' := by
  refine ⟨h.toFound.later hl, fun name target hn hlink => ?_, fun name hn => ?_⟩
  · exact h.plain name target hn ((hl.links _ _).mp hlink)
  · rw [hl.root]
    exact h.apart name hn

theorem content?_eq_some (h : Shelf dir q d) (hn : IsFileName name) {content : Content} :
    d.content? (joinPath dir name) = some content ↔
      (name.utf8ByteSize ≤ maxName ∧ isPathText name = true ∧
        (joinPath dir name).utf8ByteSize ≤ maxPath) ∧
        ∃ time, d.item? (q ++ [name]) = some (.file content time) :=
  h.toFound.content? hn.isStep hn.ne_dots (h.plain name · hn) (h.apart name hn)

theorem content?_congr (h : Shelf dir q d) (h' : Shelf dir q d') (hn : IsFileName name)
    (hitem : d'.item? (q ++ [name]) = d.item? (q ++ [name])) :
    d'.content? (joinPath dir name) = d.content? (joinPath dir name) := by
  refine Option.ext fun content => ?_
  rw [h'.content?_eq_some hn, h.content?_eq_some hn, hitem]

theorem spares (h : Shelf dir q d) (h' : Shelf dir q d')
    (hother : ∀ p, p ≠ q ++ [name] → d'.item? p = d.item? p) : Spares dir [name] d d' := by
  intro other ho hmem
  refine h.content?_congr h' ho (hother _ fun he => hmem ?_)
  exact List.mem_singleton.mpr (List.cons.inj (List.append_cancel_left he)).1

theorem replace (h : Shelf dir q d) (hn : IsFileName name)
    (hc : d.change? (.replace dir name text) = some d') :
    Shelf dir q d' ∧ d'.content? (joinPath dir name) = some (.text text) ∧
      Spares dir [name] d d' := by
  obtain ⟨p, hp, -⟩ := change?_replace hc
  obtain ⟨-, -, -, hshort, hpath, htext, -⟩ := place?_eq_some.mp hp
  have hplain : ∀ q', d.find? dir = some q' →
      ∀ target, d.item? (q' ++ [name]) ≠ some (.link target) := by
    rintro q' hq' target
    cases h.found.symm.trans hq'
    exact h.plain name target hn
  obtain ⟨q', hq', -, hlater, hitem, hother⟩ := replace_later hplain hc
  cases h.found.symm.trans hq'
  have h' := h.later hlater
  exact ⟨h', (h'.content?_eq_some hn).mpr ⟨⟨hshort, htext, hpath⟩, _, hitem⟩, h.spares h' hother⟩

theorem remove (h : Shelf dir q d) (hn : IsFileName name)
    (hc : d.change? (.remove dir name) = some d') :
    Shelf dir q d' ∧ d'.content? (joinPath dir name) = Option.none ∧ Spares dir [name] d d' := by
  obtain ⟨p, item, hp, hitem, hdir, he⟩ := change?_remove.mp hc
  have herase := item?_erase (d := d) (ne_nil_of_place? hp)
  rw [← he] at herase
  obtain ⟨q', hq', -, -, -, -, rfl⟩ := place?_eq_some.mp hp
  cases h.found.symm.trans hq'
  have hlater : d.Later d' := by
    cases item with
    | dir => exact absurd rfl hdir
    | link target => exact absurd hitem (h.plain name target hn)
    | file content time => exact remove_later hp hitem hc
  have h' := h.later hlater
  refine ⟨h', Option.eq_none_iff_forall_ne_some.mpr fun content hcontent => ?_,
    h.spares h' fun p hne => (herase p).trans (if_neg hne)⟩
  obtain ⟨-, time, hfile⟩ := (h'.content?_eq_some hn).mp hcontent
  cases ((herase _).trans (if_pos rfl)).symm.trans hfile

theorem write (h : Shelf dir q d) (hw : d.changeAll (writeChanges dir e) = (true, d')) :
    Shelf dir q d' ∧
      d'.content? (joinPath dir (metadataFile e.key)) = some (.text (Metadata.ofEntry e).compact) ∧
      d'.content? (joinPath dir (sourceFile e.key)) = some (.text e.source) ∧
      Spares dir [sourceFile e.key, metadataFile e.key] d d' := by
  obtain ⟨d₁, hmake, hw⟩ := changeAll_cons hw
  obtain ⟨d₂, hsource, hw⟩ := changeAll_cons hw
  obtain ⟨d₃, hmetadata, hw⟩ := changeAll_cons hw
  cases hw
  cases hmake.symm.trans h.makeDir
  obtain ⟨h₂, hs, hspares⟩ := h.replace (isFileName_source e.key) hsource
  obtain ⟨h₃, hm, hspares'⟩ := h₂.replace (isFileName_metadata e.key) hmetadata
  have hne : sourceFile e.key ∉ [metadataFile e.key] := fun hmem =>
    metadataFile_ne_sourceFile e.key e.key (List.mem_singleton.mp hmem).symm
  exact ⟨h₃, hm, (hspares' _ (isFileName_source e.key) hne).trans hs, hspares.trans hspares'⟩

theorem removeFiles {names : List String} (h : Shelf dir q d)
    (hn : ∀ name ∈ names, IsFileName name) (hr : removeFiles dir d names = (true, d')) :
    Shelf dir q d' ∧ (∀ name ∈ names, d'.content? (joinPath dir name) = Option.none) ∧
      Spares dir names d d' := by
  induction names generalizing d with
  | nil =>
    cases hr
    exact ⟨h, List.forall_mem_nil _, fun _ _ _ => rfl⟩
  | cons name names ih =>
    obtain ⟨hname, hn⟩ := List.forall_mem_cons.mp hn
    obtain ⟨d₁, hrest, hfirst⟩ := removeFiles_cons hr
    obtain ⟨h₁, hgone, hspares⟩ : Shelf dir q d₁ ∧
        d₁.content? (joinPath dir name) = Option.none ∧ Spares dir [name] d d₁ := by
      rcases hfirst with ⟨hexists, rfl⟩ | hchange
      · exact ⟨h, content?_of_not_pathExists hexists, fun _ _ _ => rfl⟩
      · exact h.remove hname hchange
    obtain ⟨h', hgone', hspares'⟩ := ih h₁ hn hrest
    refine ⟨h', List.forall_mem_cons.mpr ⟨?_, hgone'⟩, hspares.trans hspares'⟩
    by_cases hmem : name ∈ names
    · exact hgone' name hmem
    · exact (hspares' name hname hmem).trans hgone

end Shelf

/-- The directory of a cache is not there yet, and where it is going to be made no file of an entry
waits for it. -/
structure Unmade (dir : String) (d : Disk) : Prop where
  home : d.Home
  apart : ∀ name, IsFileName name → joinPath dir name ≠ d.root
  missing : d.isDir dir = false
  bare : ∀ d₁ q, d.change? (.makeDir dir) = some d₁ → d₁.find? dir = some q →
    ∀ name item, IsFileName name → d.item? (q ++ [name]) = some item → item = .dir

namespace Unmade

theorem not_found (h : Unmade dir d) : ¬ Found dir q d := by
  intro hf
  have hitem : d.itemAt? dir = some .dir :=
    itemAt?_eq_some.mpr ⟨q, find?_eq_some.mp hf.found, hf.isDir⟩
  have hmissing := h.missing
  rw [isDir, hitem] at hmissing
  cases hmissing

theorem removeFiles {names : List String} (h : Unmade dir d)
    (hr : removeFiles dir d names = (true, d')) :
    d' = d ∧ ∀ name ∈ names, d.content? (joinPath dir name) = Option.none := by
  induction names with
  | nil =>
    cases hr
    exact ⟨rfl, List.forall_mem_nil _⟩
  | cons name names ih =>
    obtain ⟨d₁, hrest, ⟨hexists, rfl⟩ | hchange⟩ := removeFiles_cons hr
    · obtain ⟨hsame, hgone⟩ := ih hrest
      exact ⟨hsame, List.forall_mem_cons.mpr ⟨content?_of_not_pathExists hexists, hgone⟩⟩
    · obtain ⟨p, item, hp, -⟩ := change?_remove.mp hchange
      obtain ⟨q, hq, hdir, -⟩ := place?_eq_some.mp hp
      exact absurd ⟨h.home, hq, hdir⟩ h.not_found

theorem makeDir {d₁ : Disk} (h : Unmade dir d) (hmake : d.change? (.makeDir dir) = some d₁)
    (hq : d₁.find? dir = some q) (hdir : d₁.item? q = some .dir) :
    Shelf dir q d₁ ∧ Spares dir [] d d₁ := by
  have hgrown := change?_makeDir hmake
  have hbare := h.bare d₁ q hmake hq
  have hshelf : Shelf dir q d₁ := by
    refine ⟨⟨hgrown.later.home h.home, hq, hdir⟩, fun name target hn hlink => ?_, fun name hn => ?_⟩
    · cases hbare name _ hn ((hgrown.later.links _ _).mp hlink)
    · rw [hgrown.root]
      exact h.apart name hn
  refine ⟨hshelf, fun name hn _ => ?_⟩
  have hafter : d₁.content? (joinPath dir name) = Option.none := by
    refine Option.eq_none_iff_forall_ne_some.mpr fun content hcontent => ?_
    obtain ⟨-, time, hfile⟩ := (hshelf.content?_eq_some hn).mp hcontent
    cases hbare name _ hn (hgrown.file_iff.mp hfile)
  have hbefore : d.content? (joinPath dir name) = Option.none := by
    refine Option.eq_none_iff_forall_ne_some.mpr fun content hcontent => ?_
    obtain ⟨p, time, hp, -⟩ := content?_eq_some.mp hcontent
    obtain ⟨⟨here, way⟩, hstart, -⟩ := Option.bind_eq_some_iff.mp hmake
    obtain ⟨q', -, hf, -⟩ := found_of_resolve_joinPath h.home hn.isStep hstart (h.apart name hn) hp
    exact h.not_found hf
  rw [hafter, hbefore]

theorem of_empty {root : String} (hroot : root.toList.getLast? ≠ some '/')
    (hsize : root.utf8ByteSize < dir.utf8ByteSize)
    (hmissing : (Disk.empty root).isDir dir = false) : Unmade dir (Disk.empty root) := by
  refine ⟨⟨fun here hhere => (by cases hhere), hroot⟩, fun name hn he => ?_, hmissing,
    fun _ q _ _ name item _ hitem => ?_⟩
  · have hle := utf8ByteSize_le_joinPath dir name hn.isStep
    rw [he] at hle
    exact absurd hsize (Nat.not_lt.mpr hle)
  · cases q <;> cases hitem

end Unmade

/-- The directory of a cache before an order, be it there or not. -/
inductive Ready (dir : String) (d : Disk) : Prop
  | there (q : Path) (h : Shelf dir q d)
  | missing (h : Unmade dir d)

theorem exists_of_done? {result : Except CacheFault Unit × Cache × Disk}
    (h : done? result = some d') : ∃ c', result = (.ok (), c', d') := by
  obtain ⟨_ | _, c', after⟩ := result
  · cases h
  · cases h
    exact ⟨c', rfl⟩

theorem Shelf.read_write (h : Shelf dir q d) (hw : d.changeAll (writeChanges dir e) = (true, d'))
    (hback : decode? (Metadata.ofEntry e).compact e.source = some e) (key : String) :
    readDirectory dir d' key =
      if stem e.key = stem key then .ok (some e) else readDirectory dir d key := by
  obtain ⟨-, hmetadata, hsource, hspares⟩ := h.write hw
  split
  · next hstem =>
    rw [← readDirectory_of_stem hstem]
    exact readDirectory_eq_some.mpr ⟨_, _, readFile_eq_ok_iff.mpr hmetadata,
      readFile_eq_ok_iff.mpr hsource, hback⟩
  · next hstem => exact hspares.read_eq e.key (by simp) (Ne.symm hstem)

theorem readDirectory_of_no_metadata
    (h : d.content? (joinPath dir (metadataFile key)) = Option.none) :
    readDirectory dir d key = .ok Option.none := by
  rw [readDirectory_eq_entryIn, h]
  rfl

theorem Spares.read_delete (h : Spares dir [metadataFile key, sourceFile key] d d')
    (hgone : d'.content? (joinPath dir (metadataFile key)) = Option.none) (key' : String) :
    readDirectory dir d' key' =
      if stem key = stem key' then .ok Option.none else readDirectory dir d key' := by
  split
  · next hstem =>
    rw [← readDirectory_of_stem hstem]
    exact readDirectory_of_no_metadata hgone
  · next hstem => exact h.read_eq key (by simp) (Ne.symm hstem)

theorem Ready.write (h : Ready dir d) (hw : d.changeAll (writeChanges dir e) = (true, d'))
    (hback : decode? (Metadata.ofEntry e).compact e.source = some e) :
    ∃ q, Shelf dir q d' ∧ ∀ key, readDirectory dir d' key =
      if stem e.key = stem key then .ok (some e) else readDirectory dir d key := by
  cases h with
  | there q h => exact ⟨q, (h.write hw).1, h.read_write hw hback⟩
  | missing h =>
    -- the directory is made, and from there on the write is one into a directory
    obtain ⟨d₁, hmake, hrest⟩ := changeAll_cons hw
    obtain ⟨d₂, hsource, -⟩ := changeAll_cons hrest
    obtain ⟨p, hp, -⟩ := change?_replace hsource
    obtain ⟨q, hq, hdir, -⟩ := place?_eq_some.mp hp
    obtain ⟨hshelf, hspares⟩ := h.makeDir hmake hq hdir
    have hw' : d₁.changeAll (writeChanges dir e) = (true, d') := by
      rw [writeChanges, changeAll, hshelf.makeDir]
      exact hrest
    refine ⟨q, (hshelf.write hw').1, fun key => ?_⟩
    have hsame : readDirectory dir d₁ key = readDirectory dir d key := by
      rw [readDirectory_eq_entryIn, readDirectory_eq_entryIn,
        hspares _ (isFileName_metadata key) List.not_mem_nil,
        hspares _ (isFileName_source key) List.not_mem_nil]
    rw [← hsame]
    exact hshelf.read_write hw' hback key

theorem Ready.delete (h : Ready dir d)
    (hr : removeFiles dir d [metadataFile key, sourceFile key] = (true, d')) :
    Ready dir d' ∧ ∀ key', readDirectory dir d' key' =
      if stem key = stem key' then .ok Option.none else readDirectory dir d key' := by
  cases h with
  | there q h =>
    have hnames : ∀ name ∈ [metadataFile key, sourceFile key], IsFileName name := by
      simp [isFileName_metadata, isFileName_source]
    obtain ⟨h', hgone, hspares⟩ := h.removeFiles hnames hr
    exact ⟨.there q h', hspares.read_delete (hgone _ List.mem_cons_self)⟩
  | missing h =>
    obtain ⟨rfl, hgone⟩ := h.removeFiles hr
    exact ⟨.missing h, Spares.read_delete (fun _ _ _ => rfl) (hgone _ List.mem_cons_self)⟩

/-- An order that is carried out settles what is held under the keys with its stem, and leaves what
is held under others. -/
theorem Ready.carryOut (h : Ready dir d) (ho : o.carryOut? dir d = some d')
    (hback : ∀ e ∈ o.entry?, decode? (Metadata.ofEntry e).compact e.source = some e) :
    Ready dir d' ∧ ∀ key, readDirectory dir d' key =
      if stem o.key = stem key then .ok o.entry? else readDirectory dir d key := by
  cases o with
  | write e =>
    obtain ⟨c', ho⟩ := exists_of_done? ho
    obtain ⟨q, hshelf, hread⟩ := h.write (write_directory_eq_ok.mp ho).2 (hback e rfl)
    exact ⟨.there q hshelf, hread⟩
  | delete key =>
    obtain ⟨c', ho⟩ := exists_of_done? ho
    exact h.delete (delete_directory_eq_ok.mp ho).2

theorem lastOrder?_cons (key : String) (o : Order) (orders : List Order) :
    lastOrder? key (o :: orders) =
      (lastOrder? key orders).or (if stem o.key = stem key then some o else Option.none) := by
  rw [lastOrder?, List.reverse_cons, List.find?_append, ← lastOrder?]
  by_cases h : stem o.key = stem key <;> simp [h]

theorem lastOrder?_of_apart (h : ∀ o ∈ orders, o.key ≠ key → stem o.key ≠ stem key) :
    lastOrder? key orders = orders.reverse.find? (·.key == key) := by
  rw [lastOrder?, ← List.head?_filter, ← List.head?_filter]
  refine congrArg List.head? (List.filter_congr fun o ho => ?_)
  by_cases hkey : o.key = key
  · simp [hkey]
  · simp [hkey, h o (List.mem_reverse.mp ho) hkey]

/-- What is held under a key, given what was held before and the last order since. -/
def held (before : Except CacheFault (Option Entry)) :
    Option Order → Except CacheFault (Option Entry)
  | Option.none => before
  | some o => .ok o.entry?

theorem Ready.carryOutAll (h : Ready dir d)
    (hback : ∀ o ∈ orders, ∀ e ∈ o.entry?, decode? (Metadata.ofEntry e).compact e.source = some e)
    (hrun : carryOutAll? dir d orders = some d') (key : String) :
    readDirectory dir d' key = held (readDirectory dir d key) (lastOrder? key orders) := by
  induction orders generalizing d with
  | nil =>
    cases hrun
    simp only [lastOrder?, List.reverse_nil, List.find?_nil, held]
  | cons o orders ih =>
    obtain ⟨d₁, ho, hrest⟩ := Option.bind_eq_some_iff.mp hrun
    obtain ⟨h₁, hread⟩ := h.carryOut ho (List.forall_mem_cons.mp hback).1
    rw [ih h₁ (List.forall_mem_cons.mp hback).2 hrest, lastOrder?_cons, hread key]
    cases lastOrder? key orders with
    | some last => simp only [Option.some_or, held]
    | none =>
      by_cases hstem : stem o.key = stem key
      · simp only [if_pos hstem, Option.none_or, held]
      · simp only [if_neg hstem, Option.none_or, held]

/-- A directory of entries is a map from stems: after orders without a failure it holds under a key
what the last of them under the key's stem says, and what it held before if there is none. It is a
map from keys where their stems tell them apart. -/
theorem directory_after_orders (h : Ready dir d)
    (hback : ∀ o ∈ orders, ∀ e ∈ o.entry?, decode? (Metadata.ofEntry e).compact e.source = some e)
    (hrun : carryOutAll? dir d orders = some d') (key : String) :
    readDirectory dir d' key = held (readDirectory dir d key) (lastOrder? key orders) ∧
      ((∀ o ∈ orders, o.key ≠ key → stem o.key ≠ stem key) →
        readDirectory dir d' key =
          held (readDirectory dir d key) (orders.reverse.find? (·.key == key))) := by
  have hread := h.carryOutAll hback hrun key
  exact ⟨hread, fun hapart => lastOrder?_of_apart hapart ▸ hread⟩

/-- An entry of a template that has no lines. -/
def slip (key source : String) : Entry := ⟨key, "t", source, ⟨[], []⟩, []⟩

/-- Orders under keys of which two have one stem. -/
def slipOrders : List Order :=
  [.write (slip "a/b" "return 1"), .write (slip "c" "return 2"), .write (slip "a_b" "return 3"),
    .delete "c"]

theorem directory_after_orders_slips : ∃ d',
    carryOutAll? "/r/c" (Disk.empty "/r") slipOrders = some d' ∧
      readDirectory "/r/c" d' "a/b" = .ok (some (slip "a_b" "return 3")) ∧
      readDirectory "/r/c" d' "c" = .ok Option.none := by
  have hsome : (carryOutAll? "/r/c" (Disk.empty "/r") slipOrders).isSome = true := by
    decide +kernel
  obtain ⟨d', hrun⟩ := Option.isSome_iff_exists.mp hsome
  have hempty : Unmade "/r/c" (Disk.empty "/r") :=
    .of_empty (by decide) (by decide) (by decide +kernel)
  have hread := directory_after_orders (.missing hempty) (by decide +kernel) hrun
  refine ⟨d', hrun, ?_, ?_⟩
  · have hlast : lastOrder? "a/b" slipOrders = some (.write (slip "a_b" "return 3")) := by
      decide +kernel
    rw [(hread "a/b").1, hlast]
    rfl
  · have hlast : slipOrders.reverse.find? (·.key == "c") = some (.delete "c") := by
      decide +kernel
    rw [(hread "c").2 (by decide +kernel), hlast]
    rfl

/-- A write under a key replaces what is held under another one, if both have one stem, and so does
a removal. -/
theorem keys_share_files :
    let first := slip "a/b" "return 1"
    let second := slip "a_b" "return 2"
    let read := fun orders =>
      (carryOutAll? "/r/c" (Disk.empty "/r") orders).map (readDirectory "/r/c" · "a/b")
    read [.write first] = some (.ok (some first)) ∧
      read [.write first, .write second] = some (.ok (some second)) ∧
      read [.write first, .delete "a_b"] = some (.ok Option.none) := by
  decide +kernel

end Lamina.Cache
