import Lamina.Proofs.Cache.Directory

/-! What any cache can be relied upon for. It holds what was written last under a key, as far as it
holds anything under it, and the directories and links of the file system stay as they are. -/

namespace Lamina.Cache

open Disk

variable {c c' : Cache} {d d' : Disk} {key k : String} {e en : Entry} {p : Path}

def directory? : Cache → Option String
  | directory dir => some dir
  | _ => Option.none

/-- A path that the cache may keep a file at. -/
def Owns (c : Cache) (p : Path) : Prop :=
  c.directory?.isSome = true ∧ ∃ q name, IsEntryName name ∧ p = q ++ [name]

/-- The cache can find its files. -/
def Neat (c : Cache) (d : Disk) : Prop := d.Home ∧ ∀ dir, c.directory? = some dir → Tidy dir d

/-- There is an entry under a key. -/
def Holds (c : Cache) (d : Disk) (key : String) (en : Entry) : Prop :=
  (c.read d key).1 = .ok (some en)

structure Moves (d : Disk) (c' : Cache) (d' : Disk) : Prop where
  neat : c'.Neat d'
  later : d.Later d'

theorem Moves.of_directory? (h : c.Neat d) (hc : c'.directory? = c.directory?) : Moves d c' d :=
  ⟨⟨h.1, hc ▸ h.2⟩, .refl d⟩

theorem holds_memory {capacity : Nat} {entries : List Entry} :
    Holds (memory capacity entries) d key en ↔ entries.find? (·.key == key) = some en := by
  unfold Holds read
  dsimp only
  split
  · next h => simp [h]
  · next h => simp [h]

theorem holds_directory {dir : String} :
    Holds (directory dir) d key en ↔ readDirectory dir d key = .ok (some en) := by
  rw [Holds, read]

theorem delete_directory (dir : String) (d : Disk) (key : String) :
    (delete (directory dir) d key).2 =
      (directory dir, (removeFiles dir d [metadataFile key, sourceFile key]).2) := by
  rw [delete]

theorem write_directory_eq_ok {dir : String} : (directory dir).write d e = (.ok (), c', d') ↔
    c' = directory dir ∧ d.changeAll (writeChanges dir e) = (true, d') := by
  rw [write]
  rcases d.changeAll (writeChanges dir e) with ⟨_ | _, after⟩ <;> simp [eq_comm]

theorem write_of_changeAll {dir : String} (h : d.changeAll (writeChanges dir e) = (true, d')) :
    (directory dir).write d e = (.ok (), directory dir, d') :=
  write_directory_eq_ok.mpr ⟨rfl, h⟩

theorem delete_directory_eq_ok {dir : String} : (directory dir).delete d key = (.ok (), c', d') ↔
    c' = directory dir ∧ removeFiles dir d [metadataFile key, sourceFile key] = (true, d') := by
  rw [delete]
  rcases removeFiles dir d [metadataFile key, sourceFile key] with ⟨_ | _, after⟩ <;> simp [eq_comm]

theorem find?_filter_key (entries : List Entry) (h : k ≠ key) :
    (entries.filter (·.key != key)).find? (·.key == k) = entries.find? (·.key == k) := by
  rw [List.find?_filter]
  congr 1
  funext e
  by_cases he : e.key = k
  · simp [he, h]
  · simp [he]

def Keeps : Cache → Prop
  | none => False
  | memory capacity _ => 0 < capacity
  | directory _ => True

structure SameKind (c c' : Cache) : Prop where
  directory? : c'.directory? = c.directory?
  keeps : c'.Keeps ↔ c.Keeps

theorem read_sameKind (c : Cache) (d : Disk) (key : String) : c.SameKind (c.read d key).2 := by
  cases c with
  | none | directory => exact ⟨rfl, .rfl⟩
  | memory capacity entries =>
    rw [read]
    split <;> exact ⟨rfl, .rfl⟩

theorem write_sameKind (c : Cache) (d : Disk) (e : Entry) : c.SameKind (c.write d e).2.1 := by
  cases c with
  | none | memory => exact ⟨rfl, .rfl⟩
  | directory dir =>
    rw [write]
    exact ⟨rfl, .rfl⟩

theorem delete_sameKind (c : Cache) (d : Disk) (key : String) :
    c.SameKind (c.delete d key).2.1 := by
  cases c with
  | none | memory => exact ⟨rfl, .rfl⟩
  | directory dir =>
    rw [delete_directory]
    exact ⟨rfl, .rfl⟩

theorem read_moves (h : c.Neat d) (key : String) : Moves d (c.read d key).2 d :=
  .of_directory? h (read_sameKind c d key).directory?

theorem holds_read : Holds (c.read d key).2 d k en ↔ Holds c d k en := by
  cases c with
  | none => rfl
  | directory dir => rfl
  | memory capacity entries =>
    rw [read]
    split
    · rfl
    · next entry hfind =>
      have hkey : entry.key = key := by simpa using List.find?_some hfind
      rw [holds_memory, holds_memory]
      by_cases hk : k = key
      · subst hk
        rw [hfind, List.find?_cons_of_pos (by simpa using hkey)]
      · rw [List.find?_cons_of_neg (by simpa [hkey] using Ne.symm hk), find?_filter_key entries hk]

theorem write_read : ((c.read d key).2.write d e).1 = (c.write d e).1 := by
  cases c with
  | none => rfl
  | directory dir => rfl
  | memory capacity entries =>
    rw [read]
    split <;> rfl

section

variable (h : c.Neat d) (hk : IsKey e.key) (hw : c.write d e = (.ok (), c', d'))

include h hk hw

theorem write_moves : Moves d c' d' := by
  cases c with
  | none | memory =>
    cases hw
    exact .of_directory? h rfl
  | directory dir =>
    obtain ⟨rfl, hchange⟩ := write_directory_eq_ok.mp hw
    obtain ⟨hlater, ht, -⟩ := (h.2 dir rfl).write hk hchange
    exact ⟨⟨hlater.home h.1, fun _ hdir => Option.some.inj hdir ▸ ht⟩, hlater⟩

/-- After a write there is nothing but the new entry under its key, and under other keys what was
there before. -/
theorem holds_write (hkey : IsKey key) (hen : Holds c' d' key en) :
    key = e.key ∧ Alike e en ∨ key ≠ e.key ∧ Holds c d key en := by
  cases c with
  | none =>
    cases hw
    cases hen
  | memory capacity entries =>
    cases hw
    rw [holds_memory] at hen
    have hfind := (List.take_prefix _ _).find?_eq_some hen
    by_cases he : key = e.key
    · rw [List.find?_cons_of_pos (by simpa using he.symm)] at hfind
      cases hfind
      exact .inl ⟨he, rfl, rfl, rfl⟩
    · rw [List.find?_cons_of_neg (by simpa using Ne.symm he), find?_filter_key entries he] at hfind
      exact .inr ⟨he, holds_memory.mpr hfind⟩
  | directory dir =>
    obtain ⟨rfl, hchange⟩ := write_directory_eq_ok.mp hw
    rw [holds_directory] at hen ⊢
    exact (h.2 dir rfl).readDirectory_write h.1 hk hchange hkey hen

end

theorem delete_moves (h : c.Neat d) (hk : IsKey key) :
    Moves d (c.delete d key).2.1 (c.delete d key).2.2 := by
  cases c with
  | none => exact .of_directory? h rfl
  | memory capacity entries => exact .of_directory? h rfl
  | directory dir =>
    have hnames := isEntryName_of_mem hk
    have ht := h.2 dir rfl
    have hpruned := ht.removeFiles hnames
    rw [delete_directory]
    generalize (removeFiles dir d [metadataFile key, sourceFile key]).2 = d' at hpruned ⊢
    exact ⟨⟨hpruned.later.home h.1, fun _ hdir => Option.some.inj hdir ▸ ht.pruned hpruned⟩,
      hpruned.later⟩

theorem holds_delete (h : c.Neat d) (hk : IsKey key) (hkey : IsKey k)
    (hen : Holds (c.delete d key).2.1 (c.delete d key).2.2 k en) : k ≠ key ∧ Holds c d k en := by
  cases c with
  | none => cases hen
  | memory capacity entries =>
    rw [delete, holds_memory] at hen
    have hne : k ≠ key := by
      rintro rfl
      have hmem := List.mem_of_find?_eq_some hen
      have hk := List.find?_some hen
      simp_all
    exact ⟨hne, holds_memory.mpr (find?_filter_key entries hne ▸ hen)⟩
  | directory dir =>
    have hnames := isEntryName_of_mem hk
    have ht := h.2 dir rfl
    have hpruned := ht.removeFiles hnames
    have hgone := ht.not_readFile_removeFiles h.1 hnames
    rw [delete_directory, holds_directory] at hen
    rw [holds_directory]
    generalize (removeFiles dir d [metadataFile key, sourceFile key]).2 = d' at hpruned hgone hen
    refine ⟨?_, ?_⟩
    · rintro rfl
      obtain ⟨metadata, -, hm, -⟩ := readDirectory_eq_some.mp hen
      exact hgone metadata hm
    · refine readDirectory_of_texts ht h.1 (ht.pruned hpruned) (hpruned.later.home h.1) hpruned.root
        hkey ?_ hen
      rintro name - text ⟨q, time, hitem⟩
      exact ⟨q, time, hpruned.item? hitem⟩

theorem write_of_directory? (h : c.directory? = Option.none) (d : Disk) (e : Entry) :
    ∃ c', c.write d e = (.ok (), c', d) ∧ c'.directory? = Option.none := by
  cases c with
  | none => exact ⟨_, rfl, rfl⟩
  | memory capacity entries => exact ⟨_, rfl, rfl⟩
  | directory dir => cases h

theorem delete_of_directory? (h : c.directory? = Option.none) (d : Disk) (key : String) :
    ∃ c', c.delete d key = (.ok (), c', d) ∧ c'.directory? = Option.none := by
  cases c with
  | none => exact ⟨_, rfl, rfl⟩
  | memory capacity entries => exact ⟨_, rfl, rfl⟩
  | directory dir => cases h

theorem Neat.later (h : c.Neat d) (hlater : d.Later d')
    (hown : ∀ p, c.Owns p → d'.item? p = d.item? p) :
    c.Neat d' ∧ ∀ key en, IsKey key → (Holds c d' key en ↔ Holds c d key en) := by
  have hd' := hlater.home h.1
  cases c with
  | none => exact ⟨⟨hd', nofun⟩, fun _ _ _ => .rfl⟩
  | memory capacity entries =>
    exact ⟨⟨hd', nofun⟩, fun _ _ _ => by rw [holds_memory, holds_memory]⟩
  | directory dir =>
    have ht := h.2 dir rfl
    have hsame (q : Path) {name : String} (hn : IsEntryName name) :
        d'.item? (q ++ [name]) = d.item? (q ++ [name]) := hown _ ⟨rfl, q, name, hn, rfl⟩
    have ht' : Tidy dir d' := ht.later hlater fun q name content time hn hitem =>
      .inl ⟨content, time, hsame q hn ▸ hitem⟩
    refine ⟨⟨hd', fun _ hdir => Option.some.inj hdir ▸ ht'⟩, fun key en hk => ?_⟩
    have hnames := isEntryName_of_mem hk
    rw [holds_directory, holds_directory]
    refine ⟨readDirectory_of_texts ht h.1 ht' hd' hlater.root hk ?_,
      readDirectory_of_texts ht' hd' ht h.1 hlater.root.symm hk ?_⟩
    · rintro name hn text ⟨q, time, hitem⟩
      exact ⟨q, time, hsame q (hnames name hn) ▸ hitem⟩
    · rintro name hn text ⟨q, time, hitem⟩
      exact ⟨q, time, (hsame q (hnames name hn)).trans hitem⟩

/-- What loading comes to: a fresh entry is defined in the registry, and anything else is passed
over. -/
theorem load_cases (c : Cache) (d : Disk) (r : Registry) (key : String) :
    (∃ en, Holds c d key en ∧ en.isFresh d = true ∧
      c.load d r key =
        (some (r.define en.artifact).1, (c.read d key).2, (r.define en.artifact).2)) ∨
    (∀ en, Holds c d key en → en.isFresh d = false) ∧
      c.load d r key = (Option.none, (c.read d key).2, r) := by
  unfold load Holds
  rcases c.read d key with ⟨found, c'⟩
  match found with
  | .error fault => exact .inr ⟨nofun, rfl⟩
  | .ok Option.none => exact .inr ⟨nofun, rfl⟩
  | .ok (some entry) =>
    cases hfresh : entry.isFresh d with
    | true => exact .inl ⟨entry, rfl, hfresh, by simp [hfresh]⟩
    | false =>
      refine .inr ⟨fun en hen => ?_, by simp [hfresh]⟩
      cases hen
      exact hfresh

end Lamina.Cache
