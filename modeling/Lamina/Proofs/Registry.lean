import Lamina.Artifact
import Mathlib.Data.List.Basic

/-! Under each identifier the registry keeps the artifact that was defined first, and nothing that
is defined or forgotten later replaces it. -/

namespace Lamina

namespace Registry

variable {r : Registry} {a known : Artifact} {id : String}

theorem define_of_known (h : r.get? a.id = some known) :
    ∃ newest, r.define a = (known, { r with newest }) := by
  refine ⟨(a.key, a.id) :: r.newest.filter (·.1 != a.key), ?_⟩
  have hget : get? ⟨r.artifacts, (a.key, a.id) :: r.newest.filter (·.1 != a.key)⟩ a.id =
      some known := h
  simp only [define, hget]

theorem define_of_new (h : r.get? a.id = none) :
    ∃ newest, r.define a = (a, ⟨r.artifacts ++ [a], newest⟩) := by
  refine ⟨(a.key, a.id) :: r.newest.filter (·.1 != a.key), ?_⟩
  have hget : get? ⟨r.artifacts, (a.key, a.id) :: r.newest.filter (·.1 != a.key)⟩ a.id =
      none := h
  simp only [define, hget]

theorem define_fst (r : Registry) (a : Artifact) : (r.define a).1 = (r.get? a.id).getD a := by
  cases h : r.get? a.id with
  | none =>
    obtain ⟨newest, hdefine⟩ := define_of_new h
    rw [hdefine]
    rfl
  | some known =>
    obtain ⟨newest, hdefine⟩ := define_of_known h
    rw [hdefine]
    rfl

theorem get?_define (r : Registry) (a : Artifact) (id : String) :
    (r.define a).2.get? id = (r.get? id).or ([a].find? (·.id == id)) := by
  cases h : r.get? a.id with
  | none =>
    obtain ⟨newest, hdefine⟩ := define_of_new h
    rw [hdefine]
    exact List.find?_append
  | some known =>
    obtain ⟨newest, hdefine⟩ := define_of_known h
    rw [hdefine]
    change r.get? id = _
    by_cases hid : a.id = id
    · rw [← hid, h]
      rfl
    · simp [hid]

theorem id_of_get? (h : r.get? id = some a) : a.id = id := by
  simpa using List.find?_some h

/-- The registry answers for exactly the artifacts that were defined, the first of each
identifier. -/
def Keeps (r : Registry) (defined : List Artifact) : Prop :=
  ∀ id, r.get? id = defined.find? (·.id == id)

theorem keeps_empty : empty.Keeps [] := fun _ => rfl

theorem Keeps.define {defined : List Artifact} (h : r.Keeps defined) (a : Artifact) :
    (r.define a).2.Keeps (defined ++ [a]) := by
  intro id
  rw [get?_define, h id, List.find?_append]

theorem Keeps.forget {defined : List Artifact} (h : r.Keeps defined) (key : String) :
    (r.forget key).Keeps defined :=
  h

end Registry

end Lamina
