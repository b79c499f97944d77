import Lamina.Cache
import Lamina.Proofs.Cache.Entry
import Lamina.Proofs.Disk.Change
import Lamina.Proofs.Key

/-! Caches in a directory. The files of an entry have names that no other entry has, so writing or
removing one entry leaves the others as they are, and an entry that is removed is not read again. -/

namespace Lamina.Cache

open Disk

variable {d d' : Disk} {dir key name : String} {p q : Path}

theorem safeChar_of_mem {c : Char} (h : c ∈ Digest.hexDigits) : safeChar c = c := by
  have hall : Digest.hexDigits.all (fun c => safeChar c == c) = true := by decide
  exact eq_of_beq (List.all_eq_true.mp hall c h)

theorem toList_fileName (hk : IsKey key) (suffix : String) :
    (fileName key suffix).toList = key.toList ++ suffix.toList := by
  have hsafe : key.toList.map safeChar = key.toList :=
    (List.map_congr_left fun c hc => safeChar_of_mem (hk.mem_hexDigits hc)).trans (List.map_id _)
  rw [fileName, hsafe, String.ofList_toList, String.toList_append]

theorem fileName_inj {key' suffix suffix' : String} (hk : IsKey key) (hk' : IsKey key')
    (h : fileName key suffix = fileName key' suffix') : key = key' ∧ suffix = suffix' := by
  have hlist := congrArg String.toList h
  rw [toList_fileName hk, toList_fileName hk'] at hlist
  obtain ⟨hkey, hsuffix⟩ := List.append_inj hlist (hk.length.trans hk'.length.symm)
  exact ⟨String.toList_inj.mp hkey, String.toList_inj.mp hsuffix⟩

def IsEntryName (name : String) : Prop :=
  ∃ key suffix, IsKey key ∧ suffix ∈ [".lua", ".meta.json"] ∧ name = fileName key suffix

theorem isEntryName_source (hk : IsKey key) : IsEntryName (sourceFile key) :=
  ⟨key, ".lua", hk, by decide, rfl⟩

theorem isEntryName_metadata (hk : IsKey key) : IsEntryName (metadataFile key) :=
  ⟨key, ".meta.json", hk, by decide, rfl⟩

theorem isEntryName_of_mem (hk : IsKey key) :
    ∀ n ∈ [metadataFile key, sourceFile key], IsEntryName n := by
  simp [isEntryName_metadata hk, isEntryName_source hk]

theorem IsEntryName.length (h : IsEntryName name) :
    64 < name.toList.length ∧ name.toList.length ≤ 74 := by
  obtain ⟨key, suffix, hk, hs, rfl⟩ := h
  have hall : ∀ suffix ∈ [".lua", ".meta.json"],
      0 < suffix.toList.length ∧ suffix.toList.length ≤ 10 := by decide
  have hsuffix := hall suffix hs
  rw [toList_fileName hk, List.length_append, hk.length]
  omega

theorem IsEntryName.mem (h : IsEntryName name) {c : Char} (hc : c ∈ name.toList) :
    c.utf8Size = 1 ∧ c ≠ '/' ∧ c ≠ '\x00' := by
  obtain ⟨key, suffix, hk, hs, rfl⟩ := h
  rw [toList_fileName hk] at hc
  rcases List.mem_append.mp hc with hc | hc
  · have hall : Digest.hexDigits.all
        (fun c => decide (c.utf8Size = 1 ∧ c ≠ '/' ∧ c ≠ '\x00')) = true := by decide
    exact of_decide_eq_true (List.all_eq_true.mp hall c (hk.mem_hexDigits hc))
  · have hall : ∀ suffix ∈ [".lua", ".meta.json"], suffix.toList.all
        (fun c => decide (c.utf8Size = 1 ∧ c ≠ '/' ∧ c ≠ '\x00')) = true := by decide
    exact of_decide_eq_true (List.all_eq_true.mp (hall suffix hs) c hc)

theorem utf8ByteSize_of_single {s : String} (h : ∀ c ∈ s.toList, c.utf8Size = 1) :
    s.utf8ByteSize = s.toList.length := by
  have hlist (l : List Char) (hl : ∀ c ∈ l, c.utf8Size = 1) :
      (String.ofList l).utf8ByteSize = l.length := by
    induction l with
    | nil => rfl
    | cons c l ih =>
      obtain ⟨hc, hrest⟩ := List.forall_mem_cons.mp hl
      rw [String.ofList_cons, String.utf8ByteSize_append, String.utf8ByteSize_singleton, hc,
        ih hrest, List.length_cons, Nat.add_comm]
  have hs := hlist s.toList h
  rwa [String.ofList_toList] at hs

theorem IsEntryName.isStep (h : IsEntryName name) : IsStep name := by
  refine ⟨fun he => ?_, fun hm => (h.mem hm).2.1 rfl⟩
  have hlength := h.length
  simp [he] at hlength

theorem IsEntryName.proper (h : IsEntryName name) : Proper name := by
  have hlength := h.length
  refine ⟨fun he => ?_, fun he => ?_, ?_⟩
  · simp [he] at hlength
  · simp [he] at hlength
  · rw [utf8ByteSize_of_single fun c hc => (h.mem hc).1]
    exact Nat.le_trans hlength.2 (by decide)

theorem IsEntryName.isPathText (h : IsEntryName name) : isPathText name = true := by
  have hzero : '\x00' ∉ name.toList := fun hm => (h.mem hm).2.2 rfl
  simp [Disk.isPathText, hzero]

/-- Nothing with the name of an entry's file is a link, and files with such a name are all in the
directory of the cache. -/
structure Tidy (dir : String) (d : Disk) : Prop where
  plain : ∀ q name target, IsEntryName name → d.item? (q ++ [name]) ≠ some (.link target)
  housed : ∀ q name content time, IsEntryName name →
    d.item? (q ++ [name]) = some (.file content time) →
    d.find? dir = some q ∧ d.item? q = some .dir

/-- The text of an entry's file leads to it, unless it is too long or the root's. -/
def Reachable (dir name : String) (d : Disk) : Prop :=
  (joinPath dir name).utf8ByteSize ≤ maxPath ∧ joinPath dir name ≠ d.root

namespace Tidy

theorem readFile (ht : Tidy dir d) (hd : d.Home) (hn : IsEntryName name) {text : String} :
    d.readFile (joinPath dir name) = .ok text ↔
      Reachable dir name d ∧ ∃ q time, d.item? (q ++ [name]) = some (.file (.text text) time) := by
  have hiff (time : Time) : (∃ p, d.resolve (joinPath dir name) = .ok p ∧
      d.item? p = some (.file (.text text) time)) ↔ _ :=
    resolve_joinPath_iff hd hn.isStep hn.proper hn.isPathText (fun q => (ht.plain q name · hn))
      fun q => (ht.housed q name · · hn)
  rw [readFile_eq_ok, exists_comm]
  simp only [hiff, Reachable, exists_and_left, and_assoc]
  rw [exists_comm]

theorem later (ht : Tidy dir d) (h : d.Later d')
    (hfile : ∀ q name content time, IsEntryName name →
      d'.item? (q ++ [name]) = some (.file content time) →
      (∃ content time, d.item? (q ++ [name]) = some (.file content time)) ∨
        d.find? dir = some q ∧ d.item? q = some .dir) : Tidy dir d' := by
  refine ⟨fun q name target hn hlink => ht.plain q name target hn ((h.links _ _).mp hlink),
    fun q name content time hn hitem => ?_⟩
  obtain ⟨hdir, hq⟩ : d.find? dir = some q ∧ d.item? q = some .dir := by
    rcases hfile q name content time hn hitem with ⟨content, time, hitem⟩ | h
    · exact ht.housed q name content time hn hitem
    · exact h
  refine ⟨find?_eq_some.mpr (h.resolve ?_ (find?_eq_some.mp hdir)), h.dirs q hq⟩
  intro content time hitem
  exact absurd (hitem.symm.trans hq) nofun

end Tidy

/-- The entry of a source and the text of its metadata. -/
def decode? (metadata source : String) : Option Entry :=
  ((Json.readPart Metadata.schema metadata).bind (Metadata.read? · "")).map ({ · with source })

theorem readDirectory_eq_some {en : Entry} : readDirectory dir d key = .ok (some en) ↔
    ∃ metadata source, d.readFile (joinPath dir (metadataFile key)) = .ok metadata ∧
      d.readFile (joinPath dir (sourceFile key)) = .ok source ∧
      decode? metadata source = some en := by
  have hfile {x text : String} (h : d.readFile x = .ok text) : d.isFile x = true := by
    obtain ⟨p, time, hp, hitem⟩ := readFile_eq_ok.mp h
    exact isFile_eq_true.mpr ⟨p, _, _, hp, hitem⟩
  unfold readDirectory
  dsimp only
  constructor
  · intro h
    split at h
    · cases h
    · split at h
      · cases h
      · next metadata hmetadata =>
        split at h
        · cases h
        · next entry hentry =>
          split at h
          · cases h
          · next source hsource =>
            cases h
            refine ⟨metadata, source, hmetadata, hsource, ?_⟩
            rw [decode?, hentry, Option.map_some]
  · rintro ⟨metadata, source, hmetadata, hsource, hen⟩
    obtain ⟨entry, hentry, rfl⟩ := Option.map_eq_some_iff.mp hen
    simp only [hfile hmetadata, hfile hsource, hmetadata, hsource, hentry]
    rfl

def HoldsText (d : Disk) (name text : String) : Prop :=
  ∃ q time, d.item? (q ++ [name]) = some (.file (.text text) time)

theorem Tidy.readDirectory (ht : Tidy dir d) (hd : d.Home) (hk : IsKey key) {en : Entry} :
    readDirectory dir d key = .ok (some en) ↔
      Reachable dir (metadataFile key) d ∧ Reachable dir (sourceFile key) d ∧
        ∃ metadata source, HoldsText d (metadataFile key) metadata ∧
          HoldsText d (sourceFile key) source ∧ decode? metadata source = some en := by
  rw [readDirectory_eq_some]
  simp only [ht.readFile hd (isEntryName_metadata hk), ht.readFile hd (isEntryName_source hk),
    HoldsText]
  constructor
  · rintro ⟨metadata, source, ⟨hr, hm⟩, ⟨hr', hs⟩, hen⟩
    exact ⟨hr, hr', metadata, source, hm, hs, hen⟩
  · rintro ⟨hr, hr', metadata, source, hm, hs, hen⟩
    exact ⟨metadata, source, ⟨hr, hm⟩, ⟨hr', hs⟩, hen⟩

theorem readDirectory_of_texts (ht : Tidy dir d) (hd : d.Home) (ht' : Tidy dir d') (hd' : d'.Home)
    (hroot : d'.root = d.root) (hk : IsKey key)
    (h : ∀ name ∈ [metadataFile key, sourceFile key], ∀ text,
      HoldsText d' name text → HoldsText d name text) {en : Entry}
    (hread : readDirectory dir d' key = .ok (some en)) :
    readDirectory dir d key = .ok (some en) := by
  obtain ⟨hr, hr', metadata, source, hm, hs, hen⟩ := (ht'.readDirectory hd' hk).mp hread
  rw [Reachable, hroot] at hr hr'
  exact (ht.readDirectory hd hk).mpr ⟨hr, hr', metadata, source, h _ (by simp) _ hm,
    h _ (by simp) _ hs, hen⟩

theorem Tidy.grown (ht : Tidy dir d) (h : d.Grown d') : Tidy dir d' :=
  ht.later h.later fun _ _ content time _ hitem => .inl ⟨content, time, h.file_iff.mp hitem⟩

theorem Tidy.replace (ht : Tidy dir d) (hn : IsEntryName name) {text : String}
    (h : d.change? (.replace dir name text) = some d') :
    d.Later d' ∧ Tidy dir d' ∧ HoldsText d' name text ∧
      ∀ q other, other ≠ name → d'.item? (q ++ [other]) = d.item? (q ++ [other]) := by
  obtain ⟨q, hq, hqdir, hlater, hitem, hother⟩ := replace_later (fun q _ => (ht.plain q name · hn)) h
  refine ⟨hlater, ht.later hlater fun x n content time _ hfile => ?_, ⟨q, d.clock, hitem⟩,
    fun x other hne => ?_⟩
  · by_cases he : x ++ [n] = q ++ [name]
    · obtain ⟨rfl, -⟩ := List.append_inj' he rfl
      exact .inr ⟨hq, hqdir⟩
    · exact .inl ⟨content, time, hother _ he ▸ hfile⟩
  · exact hother _ fun he => hne (List.cons.inj (List.append_inj' he rfl).2).1

theorem Tidy.pruned {names : List String} (ht : Tidy dir d) (h : Pruned names d d') : Tidy dir d' :=
  ht.later h.later fun _ _ content time _ hitem => .inl ⟨content, time, h.item? hitem⟩

theorem Tidy.remove (ht : Tidy dir d) (hn : IsEntryName name)
    (h : d.change? (.remove dir name) = some d') : Pruned [name] d d' := by
  obtain ⟨p, item, hp, hitem, hdir, rfl⟩ := change?_remove.mp h
  have herase := item?_erase (d := d) (ne_nil_of_place? hp)
  obtain ⟨q, -, -, -, -, -, rfl⟩ := place?_eq_some.mp hp
  refine ⟨rfl, rfl, fun x => ?_⟩
  rw [herase]
  by_cases he : x = q ++ [name]
  · cases item with
    | dir => exact absurd rfl hdir
    | link target => exact absurd hitem (ht.plain q name target hn)
    | file content time =>
      exact .inr ⟨if_pos he, q, name, content, time, List.mem_singleton_self name, he, he ▸ hitem⟩
  · exact .inl (if_neg he)

theorem Tidy.removeFiles {names : List String} (ht : Tidy dir d)
    (hn : ∀ name ∈ names, IsEntryName name) : Pruned names d (Cache.removeFiles dir d names).2 := by
  induction names generalizing d with
  | nil => exact .refl [] d
  | cons name names ih =>
    obtain ⟨hname, hrest⟩ := List.forall_mem_cons.mp hn
    rw [Cache.removeFiles]
    split
    · split
      · next d' hchange =>
        have hpruned := ht.remove hname hchange
        exact hpruned.cons (ih (ht.pruned hpruned) hrest)
      · exact .refl _ d
    · exact (Pruned.refl [name] d).cons (ih ht hrest)

theorem Tidy.not_readFile_removeFiles {names : List String} (ht : Tidy dir d) (hd : d.Home)
    (hn : ∀ n ∈ name :: names, IsEntryName n) (text : String) :
    (Cache.removeFiles dir d (name :: names)).2.readFile (joinPath dir name) ≠ .ok text := by
  intro hread
  have hpruned := ht.removeFiles hn
  obtain ⟨hname, hrest⟩ := List.forall_mem_cons.mp hn
  obtain ⟨⟨hshort, hroot⟩, q, time, hitem⟩ :=
    ((ht.pruned hpruned).readFile (hpruned.later.home hd) hname).mp hread
  -- the file was there before, so it was found and removed
  have hbefore := hpruned.item? hitem
  obtain ⟨hdir, hq⟩ := ht.housed q name _ time hname hbefore
  rw [hpruned.root] at hroot
  have hresolve := resolve_joinPath hd hname.isStep hname.proper hname.isPathText hdir hq hbefore
    hshort hroot
  have hexists : d.pathExists (joinPath dir name) = true := by
    rw [pathExists, find?_eq_some.mpr hresolve]
    rfl
  have hplace := place?_eq_some.mpr
    ⟨q, hdir, hq, hname.proper.short, hshort, hname.isPathText, rfl⟩
  have hchange := change?_remove.mpr ⟨q ++ [name], _, hplace, hbefore, nofun, rfl⟩
  have hpruned' := ht.remove hname hchange
  rw [Cache.removeFiles, if_pos hexists, hchange] at hitem
  have hgone := ((ht.pruned hpruned').removeFiles hrest).item? hitem
  rw [item?_erase (ne_nil_of_place? hplace), if_pos rfl] at hgone
  cases hgone

theorem Tidy.holdsText_inj (ht : Tidy dir d) (hn : IsEntryName name) {text text' : String}
    (h : HoldsText d name text) (h' : HoldsText d name text') : text = text' := by
  obtain ⟨q, time, hitem⟩ := h
  obtain ⟨q', time', hitem'⟩ := h'
  have hq := (ht.housed q name _ time hn hitem).1
  have hq' := (ht.housed q' name _ time' hn hitem').1
  obtain rfl := Option.some.inj (hq.symm.trans hq')
  cases hitem.symm.trans hitem'
  rfl

theorem changeAll_cons {change : Change} {changes : List Change}
    (h : d.changeAll (change :: changes) = (true, d')) :
    ∃ d₁, d.change? change = some d₁ ∧ d₁.changeAll changes = (true, d') := by
  rw [changeAll] at h
  split at h
  · next d₁ hchange => exact ⟨d₁, hchange, h⟩
  · cases h

structure Alike (e e' : Entry) : Prop where
  key : e'.key = e.key
  source : e'.source = e.source
  dependencies : e'.dependencies = e.dependencies

theorem alike_of_decode? {e en : Entry}
    (h : decode? (Metadata.ofEntry e).compact e.source = some en) : Alike e en := by
  obtain ⟨entry, hentry, rfl⟩ := Option.map_eq_some_iff.mp h
  obtain ⟨hkey, hdeps⟩ := Metadata.entry_of_readPart hentry
  exact ⟨hkey, rfl, hdeps⟩

/-- The file system after an entry is written: its two files hold it, and all other files are as
they were. -/
theorem Tidy.write {e : Entry} (ht : Tidy dir d) (hk : IsKey e.key)
    (h : d.changeAll (writeChanges dir e) = (true, d')) :
    d.Later d' ∧ Tidy dir d' ∧ HoldsText d' (sourceFile e.key) e.source ∧
      HoldsText d' (metadataFile e.key) (Metadata.ofEntry e).compact ∧
      ∀ q name content time, name ≠ sourceFile e.key → name ≠ metadataFile e.key →
        (d'.item? (q ++ [name]) = some (.file content time) ↔
          d.item? (q ++ [name]) = some (.file content time)) := by
  obtain ⟨d₁, hmake, h⟩ := changeAll_cons h
  obtain ⟨d₂, hsource, h⟩ := changeAll_cons h
  obtain ⟨d₃, hmetadata, h⟩ := changeAll_cons h
  cases h
  have hgrown := change?_makeDir hmake
  obtain ⟨hlater₂, ht₂, hs, hitem₂⟩ := (ht.grown hgrown).replace (isEntryName_source hk) hsource
  obtain ⟨hlater₃, ht₃, hm, hitem₃⟩ := ht₂.replace (isEntryName_metadata hk) hmetadata
  have hne : sourceFile e.key ≠ metadataFile e.key := fun he =>
    absurd (fileName_inj hk hk he).2 (by decide)
  refine ⟨hgrown.later.trans (hlater₂.trans hlater₃), ht₃, ?_, hm,
    fun q name content time hns hnm => ?_⟩
  · obtain ⟨q, time, hitem⟩ := hs
    exact ⟨q, time, (hitem₃ q _ hne).trans hitem⟩
  · rw [hitem₃ q name hnm, hitem₂ q name hns]
    exact hgrown.file_iff

theorem Tidy.readDirectory_write {e en : Entry} (ht : Tidy dir d) (hd : d.Home) (hk : IsKey e.key)
    (h : d.changeAll (writeChanges dir e) = (true, d')) (hkey : IsKey key)
    (hread : Cache.readDirectory dir d' key = .ok (some en)) :
    key = e.key ∧ Alike e en ∨ key ≠ e.key ∧ Cache.readDirectory dir d key = .ok (some en) := by
  obtain ⟨hlater, ht', hs, hm, hother⟩ := ht.write hk h
  have hd' := hlater.home hd
  by_cases he : key = e.key
  · left
    subst he
    obtain ⟨-, -, metadata, source, hm', hs', hen⟩ := (ht'.readDirectory hd' hkey).mp hread
    obtain rfl := ht'.holdsText_inj (isEntryName_metadata hkey) hm hm'
    obtain rfl := ht'.holdsText_inj (isEntryName_source hkey) hs hs'
    exact ⟨rfl, alike_of_decode? hen⟩
  · have hne (suffix suffix' : String) : fileName key suffix ≠ fileName e.key suffix' :=
      fun hf => he (fileName_inj hkey hk hf).1
    refine .inr ⟨he, readDirectory_of_texts ht hd ht' hd' hlater.root hkey ?_ hread⟩
    rintro name hname text ⟨q, time, hitem⟩
    refine ⟨q, time, (hother q name _ time ?_ ?_).mp hitem⟩ <;>
      rcases List.mem_pair.mp hname with rfl | rfl <;> exact hne _ _

end Lamina.Cache
