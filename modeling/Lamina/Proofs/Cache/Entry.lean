import Lamina.Cache.Entry
import Lamina.Proofs.Json.ReadBack

/-! Entries read back from their metadata: whatever is read has the key, and the files with the
stamps, that were written. -/

namespace Lamina.Metadata

open Json

theorem printable_ofSites (sites : List Site) : (ofSites sites).Printable := by
  induction sites with
  | nil => exact trivial
  | cons site sites ih => exact ⟨trivial, Int.natCast_nonneg _, trivial, trivial, ih, trivial⟩

theorem printableItems_map {α : Type} {f : α → Json} (h : ∀ a, (f a).Printable) (as : List α) :
    PrintableItems (as.map f) := by
  induction as with
  | nil => exact trivial
  | cons a as ih => exact ⟨h a, ih⟩

theorem printable_ofSourceMap (m : SourceMap) : (ofSourceMap m).Printable := by
  refine ⟨printableItems_map (f := .str) (fun _ => trivial) m.paths, ?_, trivial⟩
  have hlines : ∀ lines : List (Nat × Origin), PrintableMembers
      (lines.map fun line => (toString line.1, ofSites line.2.sites)) := by
    intro lines
    induction lines with
    | nil => exact trivial
    | cons line lines ih => exact ⟨printable_ofSites line.2.sites, ih⟩
  exact hlines m.lines.entries

theorem printable_ofDependency (d : Dependency) : (ofDependency d).Printable := by
  obtain ⟨path, stamp | stamp⟩ := d
  · exact ⟨trivial, trivial, trivial⟩
  · exact ⟨trivial, ⟨Int.natCast_nonneg _, Int.natCast_nonneg _, trivial⟩, trivial⟩

theorem printable_ofEntry (e : Entry) : (ofEntry e).Printable :=
  ⟨trivial, trivial, printable_ofSourceMap e.sourceMap,
    printableItems_map printable_ofDependency e.dependencies, trivial⟩

def stampSchema : Schema := .record [("secs", .whole), ("nanos", .whole)]

def dependencySchema : Schema := .record [("path", .whole), ("stamp", stampSchema)]

/-- A value as it comes out of a draft of it: what the schema looks at, in `room` containers. -/
def Selected (fields : List (String × Schema)) (room : Nat) (s : Schema) (value j : Json) : Prop :=
  ∃ draft, Drafts value draft ∧ draft.select fields room s = some j

def SelectedMembers (fields : List (String × Schema)) (room : Nat)
    (members picked : List (String × Json)) : Prop :=
  ∃ drafts, DraftsMembers members drafts ∧ Draft.selectFields fields room drafts = some picked

section

variable {fields outer : List (String × Schema)} {members picked : List (String × Json)}
  {value j : Json} {s : Schema} {name : String} {room : Nat}

theorem Selected.record (h : Selected outer room (.record fields) (.obj members) j) :
    ∃ rest picked, room = rest + 1 ∧ SelectedMembers fields rest members picked ∧
      j = .obj picked := by
  obtain ⟨draft, hd, hs⟩ := h
  cases hd with
  | obj hd =>
    rw [Draft.select] at hs
    split at hs
    · cases hs
    · next hroom =>
      obtain ⟨picked, hp, rfl⟩ := Option.map_eq_some_iff.mp hs
      exact ⟨room - 1, picked, by omega, ⟨_, hd, hp⟩, rfl⟩

theorem SelectedMembers.nil (h : SelectedMembers fields room [] picked) : picked = [] := by
  obtain ⟨drafts, hd, hs⟩ := h
  cases hd
  exact (Option.some.inj hs).symm

theorem SelectedMembers.cons (h : SelectedMembers fields room ((name, value) :: members) picked)
    (hf : fields.find? (·.1 == name) = some (name, s)) :
    ∃ j more, Selected fields room s value j ∧ SelectedMembers fields room members more ∧
      picked = (name, j) :: more := by
  obtain ⟨drafts, hd, hs⟩ := h
  cases hd with
  | cons hd hrest =>
    rw [Draft.selectFields] at hs
    simp only [printed, bind, Option.bind_some, hf, Option.bind_eq_some_iff] at hs
    obtain ⟨more, hmore, j, hj, he⟩ := hs
    exact ⟨j, more, ⟨_, hd, hj⟩, ⟨_, hrest, hmore⟩, (Option.some.inj he).symm⟩

theorem Selected.str {text : String} (h : Selected fields room s (.str text) j) :
    j = .str text := by
  obtain ⟨draft, hd, hs⟩ := h
  cases hd
  rw [Draft.select] at hs
  exact (Option.some.inj hs).symm

theorem Selected.null (h : Selected fields room s .null j) : j = .null := by
  obtain ⟨draft, hd, hs⟩ := h
  cases hd
  rw [Draft.select] at hs
  exact (Option.some.inj hs).symm

theorem Selected.natBelow {n bound m : Nat} (h : Selected fields room s (.int n) j)
    (hj : natBelow bound j = some m) : m = n := by
  obtain ⟨draft, hd, hs⟩ := h
  cases hd with
  | int h _ =>
    rw [Draft.select] at hs
    unfold Json.natBelow at hj
    split at hj
    · split at hj
      · cases hj
        exact Int.ofNat.inj (h _ hs)
      · cases hj
    · cases hj

end

section

variable {outer : List (String × Schema)} {room : Nat} {j : Json}

theorem stamp_of_selected {s s' : Stamp} (h : Selected outer room stampSchema (ofStamp s) j)
    (hj : stamp? j = some s') : s' = s := by
  obtain ⟨_, picked, -, hpicked, rfl⟩ := h.record
  obtain ⟨secs, more, hsecs, hmore, rfl⟩ := hpicked.cons rfl
  obtain ⟨nanos, last, hnanos, hlast, rfl⟩ := hmore.cons rfl
  obtain rfl := hlast.nil
  obtain ⟨n, hn, hj⟩ := Option.bind_eq_some_iff.mp hj
  obtain ⟨m, hm, hj⟩ := Option.bind_eq_some_iff.mp hj
  cases hj
  rw [hsecs.natBelow hn, hnanos.natBelow hm]

theorem stamp?_of_selected {stamp found : Option Stamp} {members : List (String × Json)}
    (h : Selected outer room stampSchema (stamp.elim .null ofStamp) j)
    (hfind : members.find? (·.1 == "stamp") = some ("stamp", j))
    (hj : Record.optional ⟨members, false⟩ "stamp" stamp? = some found) : found = stamp := by
  have hstamp : Record.find? ⟨members, false⟩ "stamp" = some j := by
    rw [Record.find?, hfind]
    rfl
  rw [Record.optional, hstamp] at hj
  cases stamp with
  | none =>
    obtain rfl := h.null
    exact (Option.some.inj hj).symm
  | some s =>
    obtain ⟨_, picked, -, -, rfl⟩ := Selected.record h
    obtain ⟨s', hs', rfl⟩ := Option.map_eq_some_iff.mp hj
    rw [stamp_of_selected h hs']

theorem dependency_of_selected {dep dep' : Dependency}
    (h : Selected outer room dependencySchema (ofDependency dep) j)
    (hj : dependency? j = some dep') : dep' = dep := by
  obtain ⟨_, picked, -, hpicked, rfl⟩ := h.record
  obtain ⟨path, more, hpath, hmore, rfl⟩ := hpicked.cons rfl
  obtain ⟨stamp, last, hstamp, hlast, rfl⟩ := hmore.cons rfl
  obtain rfl := hlast.nil
  obtain rfl := hpath.str
  obtain ⟨found, hfound, hj⟩ := Option.bind_eq_some_iff.mp hj
  cases hj
  rw [stamp?_of_selected hstamp rfl hfound]

theorem dependencies_of_selected {deps deps' : List Dependency}
    (h : Selected outer room (.list dependencySchema) (.arr (deps.map ofDependency)) j)
    (hj : listOf dependency? j = some deps') : deps' = deps := by
  obtain ⟨draft, hd, hs⟩ := h
  cases hd with | @arr _ drafts hd => ?_
  rw [Draft.select] at hs
  split at hs
  · cases hs
  obtain ⟨picked, hpicked, rfl⟩ := Option.map_eq_some_iff.mp hs
  replace hj : picked.mapM dependency? = some deps' := hj
  clear hs
  induction deps generalizing drafts picked deps' with
  | nil =>
    cases hd
    cases hpicked
    cases hj
    rfl
  | cons dep deps ih =>
    cases hd with | cons hd hrest => ?_
    obtain ⟨j, hselect, hpicked⟩ := Option.bind_eq_some_iff.mp hpicked
    obtain ⟨more, hmore, hpicked⟩ := Option.bind_eq_some_iff.mp hpicked
    cases hpicked
    rw [List.mapM_cons] at hj
    obtain ⟨dep', hdep, hj⟩ := Option.bind_eq_some_iff.mp hj
    obtain ⟨deps', hdeps, hj⟩ := Option.bind_eq_some_iff.mp hj
    cases hj
    rw [dependency_of_selected ⟨_, hd, hselect⟩ hdep, ih hrest more hmore hdeps]

end

theorem entry_of_readPart {e e' : Entry}
    (h : (readPart schema (ofEntry e).compact).bind (read? · "") = some e') :
    e'.key = e.key ∧ e'.dependencies = e.dependencies := by
  obtain ⟨j, hj, h⟩ := Option.bind_eq_some_iff.mp h
  obtain ⟨draft, hdraft, hselect⟩ := Option.bind_eq_some_iff.mp hj
  obtain ⟨draft', hd, hread⟩ := draft?_compact (printable_ofEntry e)
  cases hread.symm.trans hdraft
  have hselected : Selected [] maxNesting schema (ofEntry e) j := ⟨draft, hd, hselect⟩
  obtain ⟨_, picked, -, hpicked, rfl⟩ := hselected.record
  obtain ⟨key, more₁, hkey, hmore₁, rfl⟩ := hpicked.cons rfl
  obtain ⟨template, more₂, -, hmore₂, rfl⟩ := hmore₁.cons rfl
  obtain ⟨sourceMap, more₃, -, hmore₃, rfl⟩ := hmore₂.cons rfl
  obtain ⟨dependencies, more₄, hdeps, hmore₄, rfl⟩ := hmore₃.cons rfl
  obtain rfl := hmore₄.nil
  obtain rfl := hkey.str
  obtain ⟨_, -, h⟩ := Option.bind_eq_some_iff.mp h
  obtain ⟨_, -, h⟩ := Option.bind_eq_some_iff.mp h
  obtain ⟨deps, hread, h⟩ := Option.bind_eq_some_iff.mp h
  cases h
  exact ⟨rfl, dependencies_of_selected hdeps hread⟩

end Lamina.Metadata
