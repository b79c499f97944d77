import Lamina.Proofs.Cache
import Mathlib.Data.Finset.Card

/-! Caches in memory after any uses. What is found under a key is what was written last, and an
entry is dropped only after as many other keys as the cache has room for were used since its own
was. -/

namespace Lamina.Cache

inductive Seek
  | read
  | isFresh
  | load (r : Registry)

/-- A use of a cache, on the files as they are then. -/
inductive Use
  | write (d : Disk) (e : Entry)
  | delete (d : Disk) (key : String)
  | seek (d : Disk) (key : String) (how : Seek)

def seek (c : Cache) (d : Disk) (key : String) : Seek → Cache
  | .read => (c.read d key).2
  | .isFresh => (c.isFresh d key).2
  | .load r => (c.load d r key).2.1

def use (c : Cache) : Use → Cache
  | .write d e => (c.write d e).2.1
  | .delete d key => (c.delete d key).2.1
  | .seek d key how => c.seek d key how

def useAll (c : Cache) (uses : List Use) : Cache := uses.foldl use c

/-- The entry under a key, if there is one that can be read. -/
def found? (c : Cache) (d : Disk) (key : String) : Option Entry := (c.read d key).1.toOption.join

/-- The key of the entry that a use writes or finds. -/
def touched? (c : Cache) : Use → Option String
  | .write _ e => some e.key
  | .delete .. => Option.none
  | .seek d key _ => (c.found? d key).map fun _ => key

/-- The keys of the entries that uses write or find, in their order. -/
def touched (c : Cache) : List Use → List String
  | [] => []
  | u :: uses => (c.touched? u).toList ++ (c.use u).touched uses

/-- The entry that is the last one under a key after a use, given the last one before it. -/
def Use.last? (key : String) (last : Option Entry) : Use → Option Entry
  | write _ e => if e.key = key then some e else last
  | delete _ k => if k = key then Option.none else last
  | seek .. => last

/-- The entry that uses have written last under a key, unless they have deleted it since. -/
def written? (key : String) (uses : List Use) : Option Entry :=
  uses.foldl (Use.last? key) Option.none

def others (key : String) (entries : List Entry) : List Entry := entries.filter (·.key != key)

variable {n : Nat} {entries : List Entry} {d : Disk} {e en : Entry} {key k : String} {u : Use}
  {uses : List Use} {T : Finset String}

theorem useAll_append (c : Cache) (uses more : List Use) :
    c.useAll (uses ++ more) = (c.useAll uses).useAll more :=
  List.foldl_append

theorem seek_eq (c : Cache) (d : Disk) (key : String) (how : Seek) :
    c.seek d key how = (c.read d key).2 := by
  cases how with
  | read => rfl
  | isFresh =>
    rw [seek, isFresh]
    rcases c.read d key with ⟨found, c'⟩
    match found with
    | .error fault => rfl
    | .ok Option.none => rfl
    | .ok (some entry) => rfl
  | load r =>
    rw [seek]
    rcases load_cases c d r key with ⟨en, -, -, h⟩ | ⟨-, h⟩ <;> rw [h]

theorem found?_memory (n : Nat) (entries : List Entry) (d : Disk) (key : String) :
    (memory n entries).found? d key = entries.find? (·.key == key) := by
  rw [found?, read]
  cases entries.find? (·.key == key) <;> rfl

theorem use_memory (n : Nat) (entries : List Entry) (u : Use) :
    (∃ d e, u = .write d e ∧
      (memory n entries).use u = memory n ((e :: others e.key entries).take n)) ∨
    (∃ d key, u = .delete d key ∧ (memory n entries).use u = memory n (others key entries)) ∨
    (∃ d e how, u = .seek d e.key how ∧ entries.find? (·.key == e.key) = some e ∧
      (memory n entries).use u = memory n (e :: others e.key entries)) ∨
    ∃ d key how, u = .seek d key how ∧ entries.find? (·.key == key) = Option.none ∧
      (memory n entries).use u = memory n entries := by
  cases u with
  | write d e => exact .inl ⟨d, e, rfl, rfl⟩
  | delete d key => exact .inr (.inl ⟨d, key, rfl, rfl⟩)
  | seek d key how =>
    have huse : (memory n entries).use (.seek d key how) = ((memory n entries).read d key).2 :=
      seek_eq _ d key how
    rw [huse, read]
    cases h : entries.find? (·.key == key) with
    | none => exact .inr (.inr (.inr ⟨d, key, how, rfl, h, rfl⟩))
    | some e =>
      obtain rfl : e.key = key := by simpa using List.find?_some h
      exact .inr (.inr (.inl ⟨d, e, how, rfl, h, rfl⟩))

section Contents

theorem find?_others (entries : List Entry) (key k : String) :
    (others key entries).find? (·.key == k) =
      if k = key then Option.none else entries.find? (·.key == k) := by
  split
  · next h =>
    rw [List.find?_eq_none]
    intro e he
    simpa [h] using (List.mem_filter.mp he).2
  · next h => exact find?_filter_key entries h

theorem find?_cons_others (e : Entry) (entries : List Entry) (k : String) :
    (e :: others e.key entries).find? (·.key == k) =
      if k = e.key then some e else entries.find? (·.key == k) := by
  split
  · next h => exact List.find?_cons_of_pos (beq_iff_eq.mpr h.symm)
  · next h => rw [List.find?_cons_of_neg (by simpa using Ne.symm h), find?_others, if_neg h]

theorem length_cons_others (h : entries.find? (·.key == e.key) = some e) :
    (e :: others e.key entries).length ≤ entries.length := by
  have hmem := List.mem_of_find?_eq_some h
  exact List.length_filter_lt_length_iff_exists.mpr ⟨e, hmem, by simp⟩

/-- The cache has at most `n` entries, and each of them is the last one under its key. -/
structure Kept (n : Nat) (last : String → Option Entry) (entries : List Entry) : Prop where
  bounded : entries.length ≤ n
  found : ∀ key en, entries.find? (·.key == key) = some en → last key = some en

theorem Kept.use {last : String → Option Entry} (h : Kept n last entries) (u : Use) :
    ∃ entries', (memory n entries).use u = memory n entries' ∧
      Kept n (fun key => u.last? key (last key)) entries' := by
  rcases use_memory n entries u with ⟨d, e, rfl, huse⟩ | ⟨d, key, rfl, huse⟩ |
    ⟨d, e, how, rfl, hfind, huse⟩ | ⟨d, key, how, rfl, -, huse⟩
  · refine ⟨_, huse, List.length_take_le .., fun k en hen => ?_⟩
    have hfind := (List.take_prefix _ _).find?_eq_some hen
    rw [find?_cons_others] at hfind
    split at hfind
    · next hk =>
      cases hfind
      exact if_pos hk.symm
    · next hk => exact (if_neg (Ne.symm hk)).trans (h.found k en hfind)
  · refine ⟨_, huse, (List.length_filter_le ..).trans h.bounded, fun k en hen => ?_⟩
    rw [find?_others] at hen
    split at hen
    · cases hen
    · next hk => exact (if_neg (Ne.symm hk)).trans (h.found k en hen)
  · refine ⟨_, huse, (length_cons_others hfind).trans h.bounded, fun k en hen => ?_⟩
    rw [find?_cons_others] at hen
    split at hen
    · next hk =>
      cases hen
      exact h.found k e (hk ▸ hfind)
    · exact h.found k en hen
  · exact ⟨_, huse, h⟩

theorem kept_useAll (n : Nat) (uses : List Use) :
    ∃ entries, (memory n []).useAll uses = memory n entries ∧
      Kept n (fun key => written? key uses) entries := by
  induction uses using List.reverseRecOn with
  | nil => exact ⟨[], rfl, Nat.zero_le n, nofun⟩
  | append_singleton uses u ih =>
    obtain ⟨entries, huses, hkept⟩ := ih
    obtain ⟨entries', huse, hkept'⟩ := hkept.use u
    refine ⟨entries', ?_, ?_⟩
    · rw [useAll_append, huses]
      exact huse
    · simpa only [written?, List.foldl_concat] using hkept'

end Contents

section Order

def Recent (T : Finset String) (key : String) (entries : List Entry) : Prop :=
  ∃ front en back, entries = front ++ en :: back ∧ en.key = key ∧ (front.map Entry.key).Nodup ∧
    ∀ e ∈ front, e.key ≠ key ∧ e.key ∈ T

theorem recent_cons (e : Entry) (entries : List Entry) : Recent T e.key (e :: entries) :=
  ⟨[], e, entries, rfl, rfl, List.nodup_nil, List.forall_mem_nil _⟩

theorem Recent.find? (h : Recent T key entries) :
    ∃ en, entries.find? (·.key == key) = some en := by
  obtain ⟨front, en, back, rfl, hen, -, -⟩ := h
  exact Option.isSome_iff_exists.mp (List.find?_isSome.mpr ⟨en, by simp, beq_iff_eq.mpr hen⟩)

theorem others_append_cons (hk : en.key ≠ k) (front back : List Entry) :
    others k (front ++ en :: back) = others k front ++ en :: others k back := by
  simp [others, hk]

theorem Recent.others (h : Recent T key entries) (hk : k ≠ key) :
    Recent T key (others k entries) := by
  obtain ⟨front, en, back, rfl, hen, hnodup, hfront⟩ := h
  exact ⟨_, en, _, others_append_cons (hen ▸ hk.symm) front back, hen,
    hnodup.sublist (List.filter_sublist.map _), fun e he => hfront e (List.mem_of_mem_filter he)⟩

theorem Recent.cons (h : Recent T key entries) (he : e.key ≠ key) (hT : e.key ∈ T) :
    Recent T key (e :: Cache.others e.key entries) := by
  obtain ⟨front, en, back, rfl, hen, hnodup, hfront⟩ := h
  refine ⟨e :: Cache.others e.key front, en, Cache.others e.key back, ?_, hen, ?_, ?_⟩
  · rw [others_append_cons (hen ▸ he.symm), List.cons_append]
  · rw [List.map_cons, List.nodup_cons]
    refine ⟨fun hmem => ?_, hnodup.sublist (List.filter_sublist.map _)⟩
    obtain ⟨e', he', hkey⟩ := List.mem_map.mp hmem
    simp [Cache.others, hkey] at he'
  · exact List.forall_mem_cons.mpr
      ⟨⟨he, hT⟩, fun e' he' => hfront e' (List.mem_of_mem_filter he')⟩

theorem Recent.take (h : Recent T key entries) (hn : T.card < n) :
    Recent T key (entries.take n) := by
  obtain ⟨front, en, back, rfl, hen, hnodup, hfront⟩ := h
  have hsubset : (front.map Entry.key).toFinset ⊆ T := by
    intro k hk
    obtain ⟨e, he, rfl⟩ := List.mem_map.mp (List.mem_toFinset.mp hk)
    exact (hfront e he).2
  have hlength : front.length ≤ T.card := by
    have hcard := Finset.card_le_card hsubset
    rwa [List.toFinset_card_of_nodup hnodup, List.length_map] at hcard
  obtain ⟨room, hroom⟩ : ∃ room, n - front.length = room + 1 := ⟨n - front.length - 1, by omega⟩
  refine ⟨front, en, back.take room, ?_, hen, hnodup, hfront⟩
  rw [List.take_append, List.take_of_length_le (by omega), hroom, List.take_succ_cons]

theorem recent_of_touched (hn : 0 < n) (h : (memory n entries).touched? u = some key) :
    ∃ entries', (memory n entries).use u = memory n entries' ∧ Recent T key entries' := by
  rcases use_memory n entries u with ⟨d, e, rfl, huse⟩ | ⟨d, key, rfl, huse⟩ |
    ⟨d, e, how, rfl, hfind, huse⟩ | ⟨d, key, how, rfl, hfind, huse⟩
  · cases h
    obtain ⟨room, rfl⟩ := Nat.exists_eq_add_one_of_ne_zero (Nat.ne_of_gt hn)
    exact ⟨_, huse, recent_cons e _⟩
  · cases h
  · rw [touched?, found?_memory, hfind] at h
    cases h
    exact ⟨_, huse, recent_cons e _⟩
  · rw [touched?, found?_memory, hfind] at h
    cases h

theorem Recent.use (h : Recent T key entries) (hn : T.card < n)
    (hT : ∀ k, (memory n entries).touched? u = some k → k ≠ key → k ∈ T)
    (hu : ∀ d, u ≠ .delete d key) :
    ∃ entries', (memory n entries).use u = memory n entries' ∧ Recent T key entries' := by
  by_cases htouched : (memory n entries).touched? u = some key
  · exact recent_of_touched (Nat.zero_lt_of_lt hn) htouched
  · rcases use_memory n entries u with ⟨d, e, rfl, huse⟩ | ⟨d, k, rfl, huse⟩ |
      ⟨d, e, how, rfl, hfind, huse⟩ | ⟨d, k, how, rfl, -, huse⟩
    · have he : e.key ≠ key := fun he => htouched (congrArg some he)
      exact ⟨_, huse, (h.cons he (hT _ rfl he)).take hn⟩
    · exact ⟨_, huse, h.others fun hk => hu d (hk ▸ rfl)⟩
    · have hfound : (memory n entries).touched? (.seek d e.key how) = some e.key := by
        rw [touched?, found?_memory, hfind]
        rfl
      have he : e.key ≠ key := fun he => htouched (hfound.trans (congrArg some he))
      exact ⟨_, huse, h.cons he (hT _ hfound he)⟩
    · exact ⟨_, huse, h⟩

theorem Recent.useAll (h : Recent T key entries) (hn : T.card < n)
    (hT : ∀ k ∈ (memory n entries).touched uses, k ≠ key → k ∈ T)
    (huses : ∀ d, .delete d key ∉ uses) :
    ∃ entries', (memory n entries).useAll uses = memory n entries' ∧ Recent T key entries' := by
  induction uses generalizing entries with
  | nil => exact ⟨entries, rfl, h⟩
  | cons u uses ih =>
    rw [touched, List.forall_mem_append] at hT
    have hu (k : String) (hk : (memory n entries).touched? u = some k) : k ≠ key → k ∈ T :=
      hT.1 k (Option.mem_toList.mpr hk)
    obtain ⟨entries', huse, h'⟩ := h.use hn hu fun d he => huses d (he ▸ List.mem_cons_self)
    obtain ⟨entries'', hall, h''⟩ := ih h' (huse ▸ hT.2) fun d hd => huses d (.tail _ hd)
    exact ⟨entries'', by rw [Cache.useAll, List.foldl_cons, huse]; exact hall, h''⟩

end Order

/-- What a memory does in any uses, starting with none. It holds at most as many entries as it has
room for, and at least one can be held. What it holds under a key is what was written there last,
and not deleted since. An entry that was written or found is held until it is deleted or as many
other keys as there is room for were written or found. -/
theorem memory_holds_recent (capacity : Nat) (uses : List Use) :
    (∃ entries, (ofCapacity capacity).useAll uses = memory (max capacity 1) entries ∧
      entries.length ≤ max capacity 1) ∧
    (∀ d key en, Holds ((ofCapacity capacity).useAll uses) d key en →
      written? key uses = some en) ∧
    ∀ before u later key d, uses = before ++ u :: later →
      ((ofCapacity capacity).useAll before).touched? u = some key →
      (∀ d', .delete d' key ∉ later) →
      ((((ofCapacity capacity).useAll (before ++ [u])).touched later).toFinset.erase key).card <
        max capacity 1 →
      ∃ en, Holds ((ofCapacity capacity).useAll uses) d key en := by
  obtain ⟨entries, huses, hkept⟩ := kept_useAll (max capacity 1) uses
  refine ⟨⟨entries, huses, hkept.bounded⟩, fun d key en hen => ?_, ?_⟩
  · rw [ofCapacity, huses, holds_memory] at hen
    exact hkept.found key en hen
  · rintro before u later key d rfl htouched hdelete hfew
    obtain ⟨entries₀, hbefore, -⟩ := kept_useAll (max capacity 1) before
    rw [ofCapacity, hbefore] at htouched
    obtain ⟨entries₁, huse, hrecent⟩ := recent_of_touched (by omega) htouched
      (T := (((ofCapacity capacity).useAll (before ++ [u])).touched later).toFinset.erase key)
    have hstart : (ofCapacity capacity).useAll (before ++ [u]) =
        memory (max capacity 1) entries₁ := by
      rw [ofCapacity, useAll_append, hbefore]
      exact huse
    obtain ⟨entries₂, hlater, hrecent'⟩ := hrecent.useAll hfew
      (fun k hk hne => Finset.mem_erase.mpr ⟨hne, List.mem_toFinset.mpr (hstart ▸ hk)⟩) hdelete
    have hend : (ofCapacity capacity).useAll (before ++ u :: later) =
        memory (max capacity 1) entries₂ := by
      rw [List.append_cons, useAll_append, hstart, hlater]
    obtain ⟨en, hen⟩ := hrecent'.find?
    exact ⟨en, by rw [hend, holds_memory]; exact hen⟩

end Lamina.Cache
