import Lamina.Context
import Lamina.Proofs.Chunk.Lines

/-! Scripts by name: a script that has been loaded stays loaded, and loading it again has no
effect. The script of a page with a letter on it loads. -/

namespace Lamina

namespace Scripts

def Has (s : Scripts) (name : String) : Prop := ∃ f, s.functions.get? name = some f

theorem load_of_has {s : Scripts} {name : String} (h : s.Has name) (source : String) :
    ∃ f, s.load name source = (.ok f, s) := by
  obtain ⟨f, hf⟩ := h
  exact ⟨f, by simp only [load, hf]⟩

theorem functions_load (s : Scripts) (name source : String) :
    (∃ f, s.load name source = (.ok f, s) ∧ s.functions.get? name = some f) ∨
    (∃ f machine, s.load name source = (.ok f, ⟨machine, s.functions.set name f⟩)) ∨
    ∃ fault machine, s.load name source = (.error fault, ⟨machine, s.functions⟩) := by
  cases hf : s.functions.get? name with
  | some f => exact .inl ⟨f, by simp only [load, hf], rfl⟩
  | none =>
    rcases hr : s.machine.runScript name (Script.Token.ofChars source.toList) with
      ⟨fault | values, machine⟩
    · exact .inr (.inr ⟨fault, machine, by simp only [load, hf, hr]⟩)
    · cases hv : Script.Run.isFunction (values.headD .nil) with
      | true =>
        exact .inr (.inl ⟨values.headD .nil, machine, by simp only [load, hf, hr, hv, if_true]⟩)
      | false => exact .inr (.inr ⟨_, machine, by simp only [load, hf, hr, hv]; rfl⟩)

theorem Has.load {s : Scripts} {id : String} (h : s.Has id) (name source : String) :
    (s.load name source).2.Has id := by
  obtain ⟨g, hg⟩ := h
  rcases s.functions_load name source with ⟨f, hl, -⟩ | ⟨f, machine, hl⟩ | ⟨fault, machine, hl⟩
  · exact ⟨g, hl ▸ hg⟩
  · rw [hl, Has, Table.get?_set]
    split
    · exact ⟨f, rfl⟩
    · exact ⟨g, hg⟩
  · exact ⟨g, hl ▸ hg⟩

theorem has_of_load {s : Scripts} {name source : String} {f : Script.Value}
    (h : (s.load name source).1 = .ok f) : (s.load name source).2.Has name := by
  rcases s.functions_load name source with ⟨f, hl, hf⟩ | ⟨f, machine, hl⟩ | ⟨fault, machine, hl⟩
  · exact ⟨f, hl ▸ hf⟩
  · rw [hl, Has, Table.get?_set, if_pos rfl]
    exact ⟨f, rfl⟩
  · rw [hl] at h
    cases h

theorem load_of_runScript {machine : Script.Machine} {name source : String}
    (h : ((machine.runScript name (Script.Token.ofChars source.toList)).1.map fun values =>
      Script.Run.isFunction (values.headD .nil)).toOption = some true) :
    ∃ f, (load ⟨machine, {}⟩ name source).1 = .ok f := by
  have hempty : (∅ : Table String Script.Value).get? name = none := rfl
  rcases hr : machine.runScript name (Script.Token.ofChars source.toList) with
    ⟨fault | values, machine'⟩
  · rw [hr] at h
    cases h
  · rw [hr] at h
    have hf : Script.Run.isFunction (values.headD .nil) = true := Option.some.inj h
    exact ⟨values.headD .nil, by simp only [load, hempty, hr, hf, if_true]⟩

end Scripts

namespace Artifact

variable {a : Artifact} {s : Scripts}

theorem load_of_has (h : s.Has a.id) : a.load s = (.ok (), s) := by
  obtain ⟨f, hf⟩ := Scripts.load_of_has h a.source
  simp only [load, hf]
  rfl

theorem load_iff : (a.load s).1 = .ok () ↔ ∃ f, (s.load a.id a.source).1 = .ok f := by
  unfold load
  rcases s.load a.id a.source with ⟨fault | f, s'⟩
  · constructor
    · intro h
      cases h
    · rintro ⟨f, h⟩
      cases h
  · exact ⟨fun _ => ⟨f, rfl⟩, fun _ => rfl⟩

theorem has_load (a : Artifact) {id : String} (h : s.Has id) : (a.load s).2.Has id :=
  h.load a.id a.source

theorem has_of_load (h : (a.load s).1 = .ok ()) : (a.load s).2.Has a.id := by
  obtain ⟨f, hf⟩ := load_iff.mp h
  exact Scripts.has_of_load hf

end Artifact

namespace Program

theorem toList_joinLines_cons {rest : List String} {line more : List Char}
    (h : (joinLines rest).toList = more) :
    (joinLines (String.ofList line :: rest)).toList = line ++ '\n' :: more := by
  simp [joinLines_cons, h]

theorem toList_joinLines_append {rest : List String} {line line' more : List Char}
    (h : (joinLines rest).toList = more) :
    (joinLines ((String.ofList line ++ String.ofList line') :: rest)).toList =
      line ++ line' ++ '\n' :: more := by
  simp [joinLines_cons, h]

theorem joinLines_append (lines more : List String) :
    joinLines (lines ++ more) = joinLines lines ++ joinLines more := by
  simp [joinLines]

def letterSource : String := joinLines preamble ++ "__write(\"x\")\n" ++ joinLines epilogue

theorem letterSource_eq : letterSource = joinLines (preamble ++ "__write(\"x\")" :: epilogue) := by
  rw [joinLines_append, joinLines_cons, letterSource, String.append_assoc]
  rfl

def letterKey : String := fingerprint "default" "page" Context.empty.id

set_option maxRecDepth 100000 in
theorem letter_runs : ∃ chars, letterSource.toList = chars ∧
    (((Script.Machine.fresh {}).runScript (artifactId letterKey letterSource)
      (Script.Token.ofChars chars)).1.map fun values =>
        Script.Run.isFunction (values.headD .nil)).toOption = some true := by
  apply Exists.intro
  apply And.intro
  · -- line by line, so that the characters are there when the script is run and not decoded again
    apply (congrArg String.toList letterSource_eq).trans
    simp only [preamble, epilogue, List.cons_append, List.nil_append]
    iterate 4 apply toList_joinLines_cons
    apply toList_joinLines_append
    repeat apply toList_joinLines_cons
    rfl
  · decide +kernel

end Program

theorem Artifact.load_letter {a : Artifact} (hkey : a.key = Program.letterKey)
    (hsource : a.source = Program.letterSource) : (a.load (.empty {})).1 = .ok () := by
  obtain ⟨chars, rfl, hrun⟩ := Program.letter_runs
  rw [load_iff, id, hkey, hsource]
  exact Scripts.load_of_runScript hrun

end Lamina
