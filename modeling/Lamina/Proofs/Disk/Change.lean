import Lamina.Proofs.Disk.Paths

/-! What changes do to a file system. Making directories leaves everything there as it was; putting
and removing a file in a directory changes one path, and ways to other places stay. -/

namespace Lamina.Disk

variable {d d' : Disk} {p q : Path} {dir name x : String}

theorem item?_set (hp : p ≠ []) (item : Item) (q : Path) :
    item? { d with items := d.items.set p item } q = if q = p then some item else d.item? q := by
  cases q with
  | nil => rw [if_neg hp.symm, item?_nil, item?_nil]
  | cons name q => exact Table.get?_set d.items p item (name :: q)

theorem item?_erase (hp : p ≠ []) (q : Path) :
    item? { d with items := d.items.erase p } q = if q = p then none else d.item? q := by
  cases q with
  | nil => rw [if_neg hp.symm, item?_nil, item?_nil]
  | cons name q => exact Table.get?_erase d.items p (name :: q)

structure Grown (d d' : Disk) : Prop where
  root : d'.root = d.root
  workdir : d'.workdir = d.workdir
  items : ∀ p, d'.item? p = d.item? p ∨ d.item? p = none ∧ d'.item? p = some .dir

theorem Grown.refl (d : Disk) : d.Grown d := ⟨rfl, rfl, fun _ => .inl rfl⟩

theorem Grown.item? (h : d.Grown d') {item : Item} (hp : d.item? p = some item) :
    d'.item? p = some item := by
  rcases h.items p with he | ⟨hnone, -⟩
  · rw [he, hp]
  · cases hnone.symm.trans hp

theorem Grown.file_iff (h : d.Grown d') {content : Content} {time : Time} :
    d'.item? p = some (.file content time) ↔ d.item? p = some (.file content time) := by
  refine ⟨fun hp => ?_, h.item?⟩
  rcases h.items p with he | ⟨-, hdir⟩
  · rw [← he, hp]
  · cases hdir.symm.trans hp

theorem Grown.later (h : d.Grown d') : d.Later d' := by
  refine ⟨h.root, h.workdir, fun p hp => h.item? hp, fun p target => ?_⟩
  refine ⟨fun hlink => ?_, fun hlink => h.item? hlink⟩
  rcases h.items p with he | ⟨-, hdir⟩
  · rw [← he, hlink]
  · cases hdir.symm.trans hlink

theorem Grown.makeDir (hp : d.item? p = none)
    (h : Grown { d with items := d.items.set p .dir } d') : d.Grown d' := by
  have hne : p ≠ [] := fun he => by simp [he, item?_nil] at hp
  refine ⟨h.root, h.workdir, fun q => ?_⟩
  by_cases hq : q = p
  · refine .inr ⟨hq ▸ hp, h.item? ?_⟩
    rw [item?_set hne, if_pos hq]
  · have hitem : Disk.item? { d with items := d.items.set p .dir } q = d.item? q := by
      rw [item?_set hne, if_neg hq]
    exact hitem ▸ h.items q

theorem makeWay_grown {here : Path} {way : List String} (h : d.makeWay here way = some d') :
    d.Grown d' := by
  induction way generalizing d here with
  | nil =>
    rw [makeWay] at h
    split at h
    · cases h
      exact .refl _
    · cases h
  | cons step rest ih =>
    rw [makeWay] at h
    split at h
    · split at h
      · exact ih h
      · cases h
    · dsimp only at h
      split at h
      · cases h
      · next hnone => exact .makeDir (by simpa using hnone) (ih h)
    · cases h

theorem change?_makeDir (h : d.change? (.makeDir dir) = some d') : d.Grown d' := by
  obtain ⟨⟨here, way⟩, -, h⟩ := Option.bind_eq_some_iff.mp h
  dsimp only at h
  split at h
  · cases h
  · exact makeWay_grown h

theorem place?_eq_some : d.place? dir name = some p ↔
    ∃ q, d.find? dir = some q ∧ d.item? q = some .dir ∧ name.utf8ByteSize ≤ maxName ∧
      (joinPath dir name).utf8ByteSize ≤ maxPath ∧ isPathText name = true ∧ p = q ++ [name] := by
  unfold place?
  simp only [bind, Option.bind_eq_some_iff]
  refine exists_congr fun q => and_congr_right fun _ => ?_
  split
  · next hdir =>
    simp only [hdir, true_and, Bool.or_eq_true, decide_eq_true_eq, Bool.not_eq_true']
    split
    · next h =>
      refine ⟨nofun, fun ⟨hname, hpath, htext, _⟩ => ?_⟩
      rcases h with (h | h) | h
      · omega
      · omega
      · simp [htext] at h
    · next h =>
      simp only [not_or, Nat.not_lt, Bool.not_eq_false] at h
      simp [h, eq_comm]
  · next hdir => exact ⟨nofun, fun ⟨h, _⟩ => absurd h hdir⟩

theorem change?_replace {text : String} (h : d.change? (.replace dir name text) = some d') :
    ∃ p, d.place? dir name = some p ∧ d.item? p ≠ some .dir ∧
      d' = { d with items := d.items.set p (.file (.text text) d.clock) } := by
  obtain ⟨p, hp, h⟩ := Option.bind_eq_some_iff.mp h
  refine ⟨p, hp, ?_⟩
  split at h
  · cases h
  · next hdir => exact ⟨hdir, (Option.some.inj h).symm⟩

theorem change?_remove : d.change? (.remove dir name) = some d' ↔
    ∃ p item, d.place? dir name = some p ∧ d.item? p = some item ∧ item ≠ .dir ∧
      d' = { d with items := d.items.erase p } := by
  simp only [change?, bind, Option.bind_eq_some_iff]
  refine exists_congr fun p => ?_
  rw [exists_and_left]
  refine and_congr_right fun _ => ?_
  split
  · next hnone => simp [hnone]
  · next hdir => simp [hdir]
  · next item hdir hitem =>
    have hne : item ≠ .dir := hdir
    simp [hitem, hne, eq_comm]

structure Pruned (names : List String) (d d' : Disk) : Prop where
  root : d'.root = d.root
  workdir : d'.workdir = d.workdir
  items : ∀ p, d'.item? p = d.item? p ∨ d'.item? p = none ∧
    ∃ q name content time, name ∈ names ∧ p = q ++ [name] ∧
      d.item? p = some (.file content time)

namespace Pruned

variable {names : List String}

theorem refl (names : List String) (d : Disk) : Pruned names d d := ⟨rfl, rfl, fun _ => .inl rfl⟩

theorem item? (h : Pruned names d d') {item : Item} (hp : d'.item? p = some item) :
    d.item? p = some item := by
  rcases h.items p with he | ⟨hnone, -⟩
  · rw [← he, hp]
  · cases hnone.symm.trans hp

theorem later (h : Pruned names d d') : d.Later d' := by
  refine ⟨h.root, h.workdir, fun p hp => ?_, fun p target => ⟨h.item?, fun hp => ?_⟩⟩
  · rcases h.items p with he | ⟨-, q, name, content, time, -, -, hfile⟩
    · rw [he, hp]
    · cases hfile.symm.trans hp
  · rcases h.items p with he | ⟨-, q, name, content, time, -, -, hfile⟩
    · rw [he, hp]
    · cases hfile.symm.trans hp

theorem cons (h : Pruned [name] d d') {d'' : Disk} (h' : Pruned names d' d'') :
    Pruned (name :: names) d d'' := by
  refine ⟨h'.root.trans h.root, h'.workdir.trans h.workdir, fun p => ?_⟩
  rcases h'.items p with he | ⟨hnone, q, name', content, time, hm, hp, hfile⟩
  · rcases h.items p with he' | ⟨hnone, q, name', content, time, hm, hp, hfile⟩
    · exact .inl (he.trans he')
    · exact .inr ⟨he.trans hnone, q, name', content, time, by simp_all, hp, hfile⟩
  · exact .inr ⟨hnone, q, name', content, time, List.mem_cons_of_mem _ hm, hp, h.item? hfile⟩

end Pruned

theorem ne_nil_of_place? (h : d.place? dir name = some p) : p ≠ [] := by
  obtain ⟨q, -, -, -, -, -, rfl⟩ := place?_eq_some.mp h
  exact List.append_ne_nil_of_right_ne_nil q (List.cons_ne_nil name [])

theorem replace_later {text : String}
    (hl : ∀ q, d.find? dir = some q → ∀ target, d.item? (q ++ [name]) ≠ some (.link target))
    (h : d.change? (.replace dir name text) = some d') :
    ∃ q, d.find? dir = some q ∧ d.item? q = some .dir ∧ d.Later d' ∧
      d'.item? (q ++ [name]) = some (.file (.text text) d.clock) ∧
      ∀ p, p ≠ q ++ [name] → d'.item? p = d.item? p := by
  obtain ⟨p, hp, hdir, rfl⟩ := change?_replace h
  have hitem := item?_set (d := d) (ne_nil_of_place? hp) (.file (.text text) d.clock)
  obtain ⟨q, hq, hqdir, -, -, -, rfl⟩ := place?_eq_some.mp hp
  refine ⟨q, hq, hqdir, ⟨rfl, rfl, fun x hx => ?_, fun x target => ?_⟩, ?_, fun x hx => ?_⟩
  · have hne : x ≠ q ++ [name] := fun he => hdir (he ▸ hx)
    rw [hitem, if_neg hne, hx]
  · rw [hitem]
    split
    · next he => simp [he, hl q hq target]
    · rfl
  · rw [hitem, if_pos rfl]
  · rw [hitem, if_neg hx]

end Lamina.Disk
