import Lamina.Proofs.Registry
import Mathlib.Data.Finset.Card
import Mathlib.Data.List.Induction

/-! Registries after any calls. An identifier keeps its artifact for good, while what counts as the
latest of a key comes and goes; whatever that is, the registry has it. -/

namespace Lamina.Registry

inductive Call
  | define (a : Artifact)
  | forget (key : String)
  deriving DecidableEq, Repr

def call (r : Registry) : Call → Registry
  | .define a => (r.define a).2
  | .forget key => r.forget key

/-- The registry after calls, which start with an empty one. -/
def after (calls : List Call) : Registry := calls.foldl call empty

namespace Call

def artifact? : Call → Option Artifact
  | define a => some a
  | forget _ => none

def key : Call → String
  | define a => a.key
  | forget key => key

end Call

/-- The artifacts that calls define, in their order. -/
def defined (calls : List Call) : List Artifact := calls.filterMap Call.artifact?

def lastCall? (key : String) (calls : List Call) : Option Call :=
  calls.reverse.find? (·.key == key)

variable {r : Registry} {calls : List Call} {c : Call} {a : Artifact} {key id : String}

theorem after_concat (calls : List Call) (c : Call) : after (calls ++ [c]) = (after calls).call c :=
  List.foldl_concat ..

section Identifiers

theorem keeps_after (calls : List Call) : (after calls).Keeps (defined calls) := by
  induction calls using List.reverseRecOn with
  | nil => exact keeps_empty
  | append_singleton calls c ih =>
    rw [after_concat, defined, List.filterMap_append]
    cases c with
    | define a => exact ih.define a
    | forget key => exact (List.append_nil (defined calls)).symm ▸ ih.forget key

theorem get?_after_append (h : (after calls).get? id = some a) (more : List Call) :
    (after (calls ++ more)).get? id = some a := by
  have hfirst : (defined calls).find? (·.id == id) = some a := (keeps_after calls id).symm.trans h
  rw [keeps_after, defined, List.filterMap_append, List.find?_append, ← defined, hfirst]
  rfl

theorem nodup_define (h : (r.artifacts.map Artifact.id).Nodup) (a : Artifact) :
    ((r.define a).2.artifacts.map Artifact.id).Nodup := by
  cases hget : r.get? a.id with
  | some known =>
    obtain ⟨newest, hdefine⟩ := define_of_known hget
    rw [hdefine]
    exact h
  | none =>
    obtain ⟨newest, hdefine⟩ := define_of_new hget
    have hnew : a.id ∉ r.artifacts.map Artifact.id := by
      intro hmem
      obtain ⟨b, hb, hid⟩ := List.mem_map.mp hmem
      exact List.find?_eq_none.mp hget b hb (beq_iff_eq.mpr hid)
    rw [hdefine, List.map_append, List.map_singleton, ← List.concat_eq_append]
    exact h.concat hnew

theorem nodup_after (calls : List Call) : ((after calls).artifacts.map Artifact.id).Nodup := by
  induction calls using List.reverseRecOn with
  | nil => exact List.nodup_nil
  | append_singleton calls c ih =>
    rw [after_concat]
    cases c with
    | define a => exact nodup_define ih a
    | forget key => exact ih

theorem isSome_find?_id (artifacts : List Artifact) (id : String) :
    (artifacts.find? (·.id == id)).isSome = true ↔ id ∈ artifacts.map Artifact.id := by
  rw [List.find?_isSome, List.mem_map]
  simp only [beq_iff_eq]

theorem size_after (calls : List Call) :
    (after calls).size = ((defined calls).map Artifact.id).toFinset.card := by
  have hids : ((after calls).artifacts.map Artifact.id).toFinset =
      ((defined calls).map Artifact.id).toFinset := by
    ext id
    have hget : (after calls).artifacts.find? (·.id == id) = _ := keeps_after calls id
    rw [List.mem_toFinset, List.mem_toFinset, ← isSome_find?_id, ← isSome_find?_id, hget]
  rw [← hids, List.toFinset_card_of_nodup (nodup_after calls), List.length_map]
  rfl

end Identifiers

section Latest

def pointer? (r : Registry) (key : String) : Option String :=
  (r.newest.find? (·.1 == key)).map Prod.snd

theorem latest?_eq (r : Registry) (key : String) :
    r.latest? key = (r.pointer? key).bind r.get? := by
  unfold latest? pointer?
  cases r.newest.find? (·.1 == key) <;> rfl

theorem newest_define (r : Registry) (a : Artifact) :
    (r.define a).2.newest = (a.key, a.id) :: r.newest.filter (·.1 != a.key) := by
  unfold define
  dsimp only
  split <;> rfl

theorem find?_forget (newest : List (String × String)) (k key : String) :
    (newest.filter (·.1 != k)).find? (·.1 == key) =
      if k = key then none else newest.find? (·.1 == key) := by
  split
  · next h =>
    rw [List.find?_eq_none]
    intro p hp
    simpa [h] using (List.mem_filter.mp hp).2
  · next h =>
    rw [List.find?_filter]
    congr 1
    funext p
    by_cases hp : p.1 = key
    · simp [hp, Ne.symm h]
    · simp [hp]

theorem pointer?_forget (r : Registry) (k key : String) :
    (r.forget k).pointer? key = if k = key then none else r.pointer? key := by
  rw [pointer?, forget, find?_forget]
  split <;> rfl

theorem pointer?_define (r : Registry) (a : Artifact) (key : String) :
    (r.define a).2.pointer? key = if a.key = key then some a.id else r.pointer? key := by
  rw [pointer?, newest_define]
  split
  · next h => simp [h]
  · next h => rw [List.find?_cons_of_neg (by simpa using h), find?_forget, if_neg h, pointer?]

/-- A call about a key says what counts as its latest, and calls about other keys do not matter. -/
theorem pointer?_call (r : Registry) (c : Call) (key : String) :
    (r.call c).pointer? key =
      if c.key = key then c.artifact?.map Artifact.id else r.pointer? key := by
  cases c with
  | define a => exact pointer?_define r a key
  | forget k => exact pointer?_forget r k key

theorem pointer?_after (calls : List Call) (key : String) :
    (after calls).pointer? key = ((lastCall? key calls).bind Call.artifact?).map Artifact.id := by
  induction calls using List.reverseRecOn with
  | nil => rfl
  | append_singleton calls c ih =>
    rw [after_concat, pointer?_call, lastCall?, List.reverse_concat]
    split
    · next h => simp [h]
    · next h =>
      rw [List.find?_cons_of_neg (by simpa using h)]
      exact ih

/-- The latest of a key is what the registry has for the identifier of the last definition, if
nothing about the key came after that. -/
theorem latest?_after (calls : List Call) (key : String) :
    (after calls).latest? key = ((lastCall? key calls).bind Call.artifact?).bind
      fun a => (after calls).get? a.id := by
  rw [latest?_eq, pointer?_after]
  cases (lastCall? key calls).bind Call.artifact? <;> rfl

theorem lastCall?_eq_some : lastCall? key calls = some c ↔
    ∃ before later, calls = before ++ c :: later ∧ c.key = key ∧ ∀ c' ∈ later, c'.key ≠ key := by
  rw [lastCall?, List.find?_eq_some_iff_append]
  constructor
  · rintro ⟨hkey, later, before, hcalls, hlater⟩
    refine ⟨before.reverse, later.reverse, ?_, by simpa using hkey, fun c' hc' => ?_⟩
    · simpa using congrArg List.reverse hcalls
    · simpa using hlater c' (List.mem_reverse.mp hc')
  · rintro ⟨before, later, rfl, hkey, hlater⟩
    refine ⟨beq_iff_eq.mpr hkey, later.reverse, before.reverse, by simp, fun c' hc' => ?_⟩
    simpa using hlater c' (List.mem_reverse.mp hc')

theorem exists_artifact?_iff : ((lastCall? key calls).bind Call.artifact?).isSome = true ↔
    ∃ before a later, calls = before ++ .define a :: later ∧ a.key = key ∧ .forget key ∉ later := by
  constructor
  · intro h
    obtain ⟨a, ha⟩ := Option.isSome_iff_exists.mp h
    obtain ⟨c, hc, ha⟩ := Option.bind_eq_some_iff.mp ha
    obtain ⟨before, later, hcalls, hkey, hlater⟩ := lastCall?_eq_some.mp hc
    cases c with
    | define a' => exact ⟨before, a', later, hcalls, hkey, fun hm => hlater _ hm rfl⟩
    | forget k => cases ha
  · rintro ⟨before, a, later, rfl, hkey, hforget⟩
    -- the last call about the key is this definition or one after it, and none of them forgets it
    have hlast : lastCall? key (before ++ .define a :: later) =
        (lastCall? key later).or (some (.define a)) := by
      have hfound : ((Call.define a).key == key) = true := beq_iff_eq.mpr hkey
      simp [lastCall?, hfound]
    rw [hlast]
    cases hc : lastCall? key later with
    | none => rfl
    | some c =>
      obtain ⟨_, _, hlater, hckey, -⟩ := lastCall?_eq_some.mp hc
      have hmem : c ∈ later := hlater ▸ by simp
      cases c with
      | define a' => rfl
      | forget k => exact absurd ((show k = key from hckey) ▸ hmem) hforget

theorem isSome_latest?_after : ((after calls).latest? key).isSome = true ↔
    ((lastCall? key calls).bind Call.artifact?).isSome = true := by
  rw [latest?_after]
  cases hlast : (lastCall? key calls).bind Call.artifact? with
  | none => rfl
  | some a =>
    obtain ⟨c, hc, ha⟩ := Option.bind_eq_some_iff.mp hlast
    obtain ⟨before, later, hcalls, -, -⟩ := lastCall?_eq_some.mp hc
    have hmem : a ∈ defined calls :=
      List.mem_filterMap.mpr ⟨c, hcalls ▸ List.mem_append_right _ List.mem_cons_self, ha⟩
    have hget : ((after calls).get? a.id).isSome = true := by
      rw [keeps_after, isSome_find?_id]
      exact List.mem_map_of_mem hmem
    simp [hget]

end Latest

/-- What a registry answers after any calls. An identifier stands for the first artifact ever
defined with it, now and after further calls. A key has a latest artifact just if one was defined
with the key and the key was not forgotten since, and that artifact has the identifier of the last
definition. There are as many artifacts as identifiers. -/
theorem answers_after_calls (calls : List Call) :
    (∀ id, (after calls).get? id = (defined calls).find? (·.id == id)) ∧
    (∀ id a more, (after calls).get? id = some a → (after (calls ++ more)).get? id = some a) ∧
    (∀ key, ((after calls).latest? key).isSome = true ↔
      ∃ before a later, calls = before ++ .define a :: later ∧ a.key = key ∧
        .forget key ∉ later) ∧
    (∀ key found, (after calls).latest? key = some found →
      ∃ before a later, calls = before ++ .define a :: later ∧ a.key = key ∧
        (∀ c ∈ later, c.key ≠ key) ∧ found.id = a.id) ∧
    (after calls).size = ((defined calls).map Artifact.id).toFinset.card := by
  refine ⟨keeps_after calls, fun id a more h => get?_after_append h more,
    fun key => isSome_latest?_after.trans exists_artifact?_iff, fun key found h => ?_,
    size_after calls⟩
  rw [latest?_after] at h
  obtain ⟨a, ha, hget⟩ := Option.bind_eq_some_iff.mp h
  obtain ⟨c, hc, ha⟩ := Option.bind_eq_some_iff.mp ha
  obtain ⟨before, later, hcalls, hkey, hlater⟩ := lastCall?_eq_some.mp hc
  cases c with
  | forget k => cases ha
  | define a' =>
    cases ha
    exact ⟨before, a, later, hcalls, hkey, hlater, id_of_get? hget⟩

end Lamina.Registry
