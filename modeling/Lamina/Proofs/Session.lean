import Lamina.Proofs.Walk.Lockstep

/-! Runs of build steps. A session consults more and more files, each once, and two builds are
compared by the runs that succeed. -/

namespace Lamina

/-- A session is further along if it has gone on from the files of the other one. -/
instance : Preorder Session where
  le s s' := s.paths <+: s'.paths
  le_refl _ := List.prefix_rfl
  le_trans _ _ _ h h' := h.trans h'

theorem run_bind {α β : Type} (x : LoadM α) (f : α → LoadM β) (s : Session) :
    (x >>= f).run s = match x.run s with
      | (.ok a, t) => (f a).run t
      | (.error e, t) => (.error e, t) := by
  rw [ExceptT.run_bind]
  show (x.run >>= _) s = _
  simp only [bind, StateT.bind]
  rcases x.run s with ⟨_ | _, _⟩ <;> rfl

theorem run_bind_eq_ok {α β : Type} {x : LoadM α} {f : α → LoadM β} {s s' : Session} {b : β} :
    (x >>= f).run s = (.ok b, s') ↔ ∃ a t, x.run s = (.ok a, t) ∧ (f a).run t = (.ok b, s') := by
  rw [run_bind]
  rcases x.run s with ⟨e | a, t⟩
  · exact ⟨nofun, nofun⟩
  · refine ⟨fun h => ⟨a, t, rfl, h⟩, fun ⟨_, _, h, h'⟩ => ?_⟩
    cases h
    exact h'

theorem run'_eq_ok {α : Type} {x : WalkM α} {a : α} {s s' : Session}
    (h : (x.run' {}).run s = (.ok a, s')) :
    ∃ notes, (x.run {}).run s = (.ok (a, notes), s') := by
  rw [StateT.run'_eq, map_eq_pure_bind] at h
  obtain ⟨⟨a', notes⟩, t, hx, h⟩ := run_bind_eq_ok.mp h
  cases h
  exact ⟨notes, hx⟩

theorem run_get_bind {α : Type} (f : Session → LoadM α) (s : Session) :
    (get >>= f).run s = (f s).run s :=
  rfl

namespace Session

variable {s s' : Session} {file : String}

theorem paths_subset (h : s ≤ s') : s.paths ⊆ s'.paths := List.IsPrefix.subset h

theorem mem_consult (s : Session) (file : String) : file ∈ (s.consult file).paths := by
  by_cases h : file ∈ s.paths
  · simp [consult, h]
  · simp [consult, h]

theorem mem_of_mem_consult {file' : String} (h : file' ∈ (s.consult file).paths) :
    file' ∈ s.paths ∨ file' = file := by
  by_cases hf : file ∈ s.paths
  · exact .inl (by simpa [consult, hf] using h)
  · simpa [consult, hf] using h

theorem le_consult (s : Session) (file : String) : s ≤ s.consult file := by
  by_cases h : file ∈ s.paths
  · simp [consult, h]
  · simp only [consult, List.contains_iff_mem, h, if_false]
    exact List.prefix_append _ _

theorem reads_consult (s : Session) (file : String) : (s.consult file).reads = s.reads := by
  rw [consult]
  split <;> rfl

theorem fragments_consult (s : Session) (file : String) :
    (s.consult file).fragments = s.fragments := by
  rw [consult]
  split <;> rfl

theorem nodup_consult (h : s.paths.Nodup) (file : String) : (s.consult file).paths.Nodup := by
  by_cases hf : file ∈ s.paths
  · simp [consult, hf, h]
  · simp only [consult, List.contains_iff_mem, hf, if_false]
    refine List.nodup_append.mpr ⟨h, List.pairwise_singleton _ _, fun x hx y hy he => hf ?_⟩
    exact List.mem_singleton.mp hy ▸ he ▸ hx

theorem mem_of_fragment? {identity : String} {fragment : Node}
    (h : s.fragment? identity = some fragment) : (identity, fragment) ∈ s.fragments := by
  obtain ⟨⟨k, n⟩, hfind, rfl⟩ := Option.map_eq_some_iff.mp h
  have hk : k = identity := by simpa using List.find?_some hfind
  exact hk ▸ List.mem_of_find?_eq_some hfind

end Session

namespace Lockstep

/-- Runs that succeed keep `I`, and the second run does the same if the two sides agree on
everything the first one has come across. -/
def ofRuns (I A : Session → Prop) (earlier : ∀ {s s' : Session}, s ≤ s' → A s' → A s) :
    Lockstep Session LoadM where
  holds s x y Q := I s → ∀ a s', x.run s = (.ok a, s') →
    s ≤ s' ∧ I s' ∧ Q s' a ∧ (A s' → y.run s = (.ok a, s'))
  ofPure hQ hs a s' hr := by
    cases hr
    exact ⟨le_refl _, hs, hQ, fun _ => rfl⟩
  ofBind hx hf hs b s' hr := by
    obtain ⟨a, t, hxr, hfr⟩ := run_bind_eq_ok.mp hr
    obtain ⟨hst, ht, ha, hy⟩ := hx hs a t hxr
    obtain ⟨hts, hs', hb, hg⟩ := hf t a hst ha ht b s' hfr
    refine ⟨hst.trans hts, hs', hb, fun hA => ?_⟩
    exact run_bind_eq_ok.mpr ⟨a, t, hy (earlier hts hA), hg hA⟩
  ofFailure _ _ _ _ hr := nomatch hr

end Lockstep

end Lamina
