import Lamina.Table

/-! What a table holds after a change: one key is new or gone, all others are as before. -/

namespace Lamina.Table

theorem length_numbered {α : Type} (n : Nat) (values : List α) :
    (numbered n values).length = values.length := by
  rw [length, numbered, List.length_zip, List.length_range', Nat.min_self]

theorem keys_numbered {α : Type} (n : Nat) (values : List α) :
    (numbered n values).keys = List.range' n values.length :=
  List.map_fst_zip (Nat.le_of_eq List.length_range')

theorem mem_numbered {α : Type} {n i : Nat} {values : List α} {value : α}
    (h : values[i]? = some value) : (n + i, value) ∈ numbered n values := by
  obtain ⟨hi, hvalue⟩ := List.getElem?_eq_some_iff.mp h
  refine List.mem_iff_getElem?.mpr ⟨i, ?_⟩
  rw [numbered, List.getElem?_zip_eq_some, List.getElem?_range' hi, Nat.one_mul]
  exact ⟨rfl, h⟩

theorem mem_of_mem_numbered {α : Type} {n : Nat} {values : List α} {e : Nat × α}
    (h : e ∈ numbered n values) : e.2 ∈ values :=
  (List.of_mem_zip h).2

variable {κ α : Type} [LT κ] [DecidableEq κ] {t : Table κ α} {key k : κ} {value : α}

@[simp]
theorem get?_empty (key : κ) : (∅ : Table κ α).get? key = none := rfl

theorem mem_of_get? (h : t.get? key = some value) : (key, value) ∈ t := by
  obtain ⟨before, after, he, -⟩ := List.lookup_eq_some_iff.mp h
  change (key, value) ∈ t.entries
  rw [he]
  exact List.mem_append_right _ List.mem_cons_self

theorem contains_iff : t.contains key = true ↔ ∃ value, t.get? key = some value := by
  rw [contains, Option.isSome_iff_exists]

theorem contains_iff_mem_keys : t.contains key = true ↔ key ∈ t.keys := by
  rw [contains, get?, List.lookup_isSome_iff, keys, List.mem_map]
  exact exists_congr fun e => and_congr_right fun _ => by rw [beq_iff_eq, eq_comm]

theorem mem_erase {e : κ × α} : e ∈ t.erase key ↔ e ∈ t ∧ e.1 ≠ key := by
  change e ∈ (t.erase key).entries ↔ e ∈ t.entries ∧ e.1 ≠ key
  rw [erase, List.mem_filter, decide_eq_true_iff]

variable [KeyOrder κ]

/-- A key has one value, as the entries are sorted. -/
theorem get?_eq_some_iff : t.get? key = some value ↔ (key, value) ∈ t := by
  refine ⟨mem_of_get?, fun h => ?_⟩
  obtain ⟨before, after, he⟩ := List.append_of_mem h
  refine List.lookup_eq_some_iff.mpr ⟨before, after, he, fun e hmem => bne_iff_ne.mpr ?_⟩
  rintro rfl
  have hsorted := t.sorted
  rw [he, List.pairwise_append] at hsorted
  exact KeyOrder.irrefl _ (hsorted.2.2 e hmem (_, value) List.mem_cons_self)

theorem get?_erase (t : Table κ α) (key k : κ) :
    (t.erase key).get? k = if k = key then none else t.get? k := by
  refine Option.ext fun value => ?_
  rw [get?_eq_some_iff, mem_erase]
  split
  · next h => exact ⟨fun he => absurd h he.2, fun he => absurd he.symm (Option.some_ne_none _)⟩
  · next h => rw [get?_eq_some_iff, and_iff_left h]

variable [DecidableLT κ]

omit [DecidableEq κ] in
theorem mem_set {e : κ × α} : e ∈ t.set key value ↔ e = (key, value) ∨ e ∈ t ∧ e.1 ≠ key := by
  change e ∈ (t.set key value).entries ↔ e = (key, value) ∨ e ∈ t.entries ∧ e.1 ≠ key
  simp only [set, List.mem_append, List.mem_cons, List.mem_filter, decide_eq_true_iff]
  constructor
  · rintro (⟨he, hlt⟩ | rfl | ⟨he, hlt⟩)
    · exact .inr ⟨he, fun h => KeyOrder.irrefl _ (h ▸ hlt)⟩
    · exact .inl rfl
    · exact .inr ⟨he, fun h => KeyOrder.irrefl _ (h ▸ hlt)⟩
  · rintro (rfl | ⟨he, hne⟩)
    · exact .inr (.inl rfl)
    · by_cases hlt : e.1 < key
      · exact .inl ⟨he, hlt⟩
      · by_cases hgt : key < e.1
        · exact .inr (.inr ⟨he, hgt⟩)
        · exact absurd (KeyOrder.eq_of_not_lt hlt hgt) hne

theorem get?_set (t : Table κ α) (key : κ) (value : α) (k : κ) :
    (t.set key value).get? k = if k = key then some value else t.get? k := by
  refine Option.ext fun v => ?_
  rw [get?_eq_some_iff, mem_set]
  split
  · next h =>
    subst h
    simp [eq_comm]
  · next h => simp [h, get?_eq_some_iff]

omit [DecidableEq κ] in
theorem mem_of_mem_ofPairs {pairs : List (κ × α)} {e : κ × α}
    (h : e ∈ (ofPairs pairs : Table κ α)) : e ∈ pairs := by
  refine List.foldlRecOn (motive := fun t : Table κ α => ∀ e ∈ t, e ∈ pairs) pairs _
    (fun _ he => absurd he List.not_mem_nil) (fun t ht pair hpair e he => ?_) e h
  rcases mem_set.mp he with rfl | he
  · exact hpair
  · exact ht e he.1

end Lamina.Table
