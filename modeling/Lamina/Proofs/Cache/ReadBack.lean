import Lamina.Proofs.Cache.Entry

/-! Which entries are read back. The reader takes values whose containers nest to a certain depth and
no deeper, and in the metadata of an entry each site of a line stands inside the one before it: an
entry with too long a chain of sites is written and never read. -/

namespace Lamina

/-- The greatest number of sites of a line that is read back. Around them there are the entry, its
source map and the lines of that. -/
def Entry.maxSites : Nat := Json.maxNesting - 3

/-- The lines have not too many sites, and all numbers are in range. -/
structure Entry.Fits (e : Entry) : Prop where
  chains : ∀ line ∈ e.sourceMap.lines, line.2.sites.length ≤ Entry.maxSites
  lines : ∀ line ∈ e.sourceMap.lines,
    line.1 < UInt64.size ∧ ∀ site ∈ line.2.sites, site.line < UInt64.size
  stamps : ∀ dep ∈ e.dependencies, ∀ stamp ∈ dep.stamp,
    stamp.secs < UInt64.size ∧ stamp.nanos < UInt32.size

namespace Metadata

open Json

section

variable {outer fields : List (String × Schema)} {room : Nat} {s : Schema} {name : String}
  {value j : Json} {members : List (String × Json)}

theorem select_record (outer fields : List (String × Schema)) (room : Nat) (draft : Draft) :
    draft.select outer room (.record fields) = draft.select fields room .again := by
  cases draft <;> rw [Draft.select, Draft.select]

theorem selected_again (outer : List (String × Schema)) :
    Selected fields room .again value j ↔ Selected outer room (.record fields) value j := by
  simp only [Selected, select_record]

/-- A reader who looks by the schema, with room for `room` containers, takes the whole value from
any draft of it. -/
def Shown (outer : List (String × Schema)) (room : Nat) (s : Schema) (value : Json) : Prop :=
  ∀ draft, Drafts value draft → draft.select outer room s = some value

def ShownMembers (fields : List (String × Schema)) (room : Nat) (members : List (String × Json)) :
    Prop :=
  ∀ drafts, DraftsMembers members drafts → Draft.selectFields fields room drafts = some members

theorem shown_again (outer : List (String × Schema)) :
    Shown fields room .again value ↔ Shown outer room (.record fields) value := by
  simp only [Shown, select_record]

theorem shown_str (text : String) : Shown outer room s (.str text) := by
  intro draft hd
  cases hd
  rw [Draft.select]
  rfl

theorem shown_null : Shown outer room s .null := by
  intro draft hd
  cases hd
  rw [Draft.select]

theorem shown_nat {n : Nat} (h : n < UInt64.size) : Shown outer room s (.int n) := by
  intro draft hd
  cases hd with
  | int _ fits =>
    rw [Draft.select]
    exact fits h

theorem shownMembers_nil : ShownMembers fields room [] := by
  intro drafts hd
  cases hd
  rw [Draft.selectFields]

theorem ShownMembers.cons (hf : fields.find? (·.1 == name) = some (name, s))
    (h : Shown fields room s value) (hrest : ShownMembers fields room members) :
    ShownMembers fields room ((name, value) :: members) := by
  intro drafts hd
  cases hd with
  | cons hd hd' =>
    rw [Draft.selectFields]
    simp only [printed, bind, Option.bind_some, hrest _ hd', hf, h _ hd]
    rfl

theorem shown_record (h : ShownMembers fields room members) :
    Shown outer (room + 1) (.record fields) (.obj members) := by
  intro draft hd
  cases hd with
  | obj hd =>
    rw [Draft.select, if_neg (Nat.succ_ne_zero room), Nat.add_sub_cancel, h _ hd]
    rfl

theorem shown_texts (texts : List String) :
    Shown outer (room + 1) .whole (.arr (texts.map .str)) := by
  have hvalues : ∀ drafts, DraftsItems (texts.map .str) drafts →
      Draft.values? room drafts = some (texts.map .str) := by
    induction texts with
    | nil =>
      intro drafts hd
      cases hd
      rw [Draft.values?]
      rfl
    | cons text texts ih =>
      intro drafts hd
      cases hd with
      | cons hd hrest =>
        cases hd
        rw [Draft.values?, ih _ hrest]
        simp only [Draft.value?, printed]
        rfl
  intro draft hd
  cases hd with
  | arr hd =>
    simp only [Draft.select, Nat.succ_ne_zero, if_false, Nat.add_sub_cancel, hvalues _ hd]
    rfl

theorem shown_list {α : Type} {f : α → Json} {as : List α}
    (h : ∀ a ∈ as, Shown outer room s (f a)) :
    Shown outer (room + 1) (.list s) (.arr (as.map f)) := by
  have hall : ∀ drafts, DraftsItems (as.map f) drafts →
      Draft.selectAll outer room s drafts = some (as.map f) := by
    induction as with
    | nil =>
      intro drafts hd
      cases hd
      rw [Draft.selectAll]
      rfl
    | cons a as ih =>
      obtain ⟨ha, hrest⟩ := List.forall_mem_cons.mp h
      intro drafts hd
      cases hd with
      | cons hd hd' =>
        rw [Draft.selectAll, ha _ hd, ih hrest _ hd']
        rfl
  intro draft hd
  cases hd with
  | arr hd =>
    rw [Draft.select, if_neg (Nat.succ_ne_zero room), Nat.add_sub_cancel]
    simp only [hall _ hd, Option.map_some]

theorem escapeChar_of_isDigit {c : Char} (h : c.isDigit = true) : escapeChar c = [c] := by
  have hne {x : Char} (hx : x.isDigit = false) : c ≠ x := by
    rintro rfl
    exact absurd (h.symm.trans hx) (by decide)
  have hhigh : ¬ c.toNat < 0x20 := by
    have hdigit : c.isDigit = (decide (48 ≤ c.val) && decide (c.val ≤ 57)) := rfl
    rw [hdigit, Bool.and_eq_true, decide_eq_true_eq, UInt32.le_iff_toNat_le] at h
    exact Nat.not_lt.mpr (Nat.le_trans (by decide) h.1)
  simp only [escapeChar, hne (x := '"') rfl, hne (x := '\\') rfl, hne (x := '\n') rfl,
    hne (x := '\r') rfl, hne (x := '\t') rfl, hne (x := '\x08') rfl, hne (x := '\x0c') rfl, hhigh,
    if_false]

theorem plain_toString (n : Nat) : (printed (toString n)).plain = true := by
  have hdigit : ∀ c ∈ (toString n).toList, c.isDigit = true := by
    intro c hc
    rw [show (toString n).toList = Nat.toDigits 10 n from Nat.toList_repr] at hc
    exact Nat.isDigit_of_mem_toDigits (by decide) (by decide) hc
  have hescape : (toString n).toList.flatMap escapeChar = (toString n).toList := by
    have hsame : ∀ c ∈ (toString n).toList, escapeChar c = [c] :=
      fun c hc => escapeChar_of_isDigit (hdigit c hc)
    rw [List.flatMap_congr hsame, List.flatMap_singleton']
  simp only [printed, hescape, List.isPrefixOf_iff_prefix]
  exact List.prefix_rfl

theorem shown_numbered {α : Type} {number : α → Nat} {f : α → Json} {as : List α}
    (h : ∀ a ∈ as, Shown outer room s (f a)) :
    Shown outer (room + 1) (.numbered s) (.obj (as.map fun a => (toString (number a), f a))) := by
  have hall : ∀ drafts, DraftsMembers (as.map fun a => (toString (number a), f a)) drafts →
      Draft.selectNumbered outer room s drafts =
        some (as.map fun a => (toString (number a), f a)) := by
    induction as with
    | nil =>
      intro drafts hd
      cases hd
      rw [Draft.selectNumbered]
      rfl
    | cons a as ih =>
      obtain ⟨ha, hrest⟩ := List.forall_mem_cons.mp h
      intro drafts hd
      cases hd with
      | cons hd hd' =>
        rw [Draft.selectNumbered, ha _ hd, ih hrest _ hd', plain_toString]
        rfl
  intro draft hd
  cases hd with
  | obj hd =>
    rw [Draft.select, if_neg (Nat.succ_ne_zero room), Nat.add_sub_cancel]
    simp only [hall _ hd, Option.map_some]

theorem selected_numbered {α : Type} {number : α → Nat} {f : α → Json} {as : List α}
    (h : Selected outer room (.numbered s) (.obj (as.map fun a => (toString (number a), f a))) j) :
    ∃ rest picked, room = rest + 1 ∧ j = .obj picked ∧
      ∀ a ∈ as, ∃ member ∈ picked, member.1 = toString (number a) ∧
        Selected outer rest s (f a) member.2 := by
  obtain ⟨draft, hd, hs⟩ := h
  cases hd with | @obj _ drafts hd => ?_
  rw [Draft.select] at hs
  split at hs
  · cases hs
  next hroom =>
  obtain ⟨picked, hpicked, rfl⟩ := Option.map_eq_some_iff.mp hs
  refine ⟨room - 1, picked, by omega, rfl, ?_⟩
  clear hs
  induction as generalizing drafts picked with
  | nil =>
    exact List.forall_mem_nil _
  | cons a as ih =>
    cases hd with | cons hd hrest => ?_
    rw [Draft.selectNumbered, plain_toString] at hpicked
    obtain ⟨j, hj, hpicked⟩ := Option.bind_eq_some_iff.mp hpicked
    obtain ⟨more, hmore, hpicked⟩ := Option.bind_eq_some_iff.mp hpicked
    cases hpicked
    refine List.forall_mem_cons.mpr ⟨⟨_, List.mem_cons_self, rfl, _, hd, hj⟩, fun a ha => ?_⟩
    obtain ⟨member, hm, hmember⟩ := ih hrest more hmore a ha
    exact ⟨member, List.mem_cons_of_mem _ hm, hmember⟩

theorem natBelow_eq_some {bound m : Nat} : natBelow bound j = some m ↔ j = .int m ∧ m < bound := by
  unfold natBelow
  constructor
  · intro h
    split at h
    · split at h
      · next hlt =>
        cases h
        exact ⟨rfl, hlt⟩
      · cases h
    · cases h
  · rintro ⟨rfl, hlt⟩
    exact if_pos hlt

theorem lineOf?_toString {n : Nat} : (lineOf? (toString n)).isSome = true ↔ n < UInt64.size := by
  obtain ⟨value, hnumber, hfits, hvalue⟩ := number?_toDigits n
  have htext : (toString n).toList = Nat.toDigits 10 n := Nat.toList_repr
  rw [lineOf?, htext, hnumber]
  constructor
  · intro h
    cases value with
    | none => cases h
    | some j =>
      obtain ⟨m, hm⟩ := Option.isSome_iff_exists.mp h
      obtain ⟨rfl, hlt⟩ := natBelow_eq_some.mp hm
      exact Int.ofNat.inj (hvalue m rfl) ▸ hlt
  · intro h
    rw [hfits h]
    exact Option.isSome_iff_exists.mpr ⟨n, natBelow_eq_some.mpr ⟨rfl, h⟩⟩

end

section Sites

def siteFields : List (String × Schema) :=
  [("file", .whole), ("line", .whole), ("grammar", .whole), ("label", .whole), ("parent", .again)]

variable {room : Nat} {sites sites' : List Site} {j : Json}

theorem ofSites_cons (site : Site) (sites : List Site) : ofSites (site :: sites) =
    .obj [("file", .str site.path), ("line", .int site.line),
      ("grammar", .str (grammarName site.grammar)), ("label", .str site.label),
      ("parent", ofSites sites)] :=
  rfl

theorem sites?_obj (file line grammar label parent : Json) :
    sites? (.obj [("file", file), ("line", line), ("grammar", grammar), ("label", label),
      ("parent", parent)]) =
      (site? file line grammar label).bind fun site =>
        (sites? parent).bind fun via => some (site :: via) := by
  have hknown : Record.known ["file", "line", "grammar", "label", "parent"]
      [("file", file), ("line", line), ("grammar", grammar), ("label", label), ("parent", parent)] =
      some [("file", file), ("line", line), ("grammar", grammar), ("label", label),
        ("parent", parent)] := rfl
  have hparent : parentSites? [("file", file), ("line", line), ("grammar", grammar),
      ("label", label), ("parent", parent)] = sites? parent := by
    simp [parentSites?]
  rw [sites?, hknown, hparent]
  rfl

theorem grammar?_grammarName (g : Grammar) : grammar? (.str (grammarName g)) = some g := by
  cases g <;> rfl

theorem sites?_ofSites (h : ∀ site ∈ sites, site.line < UInt64.size) :
    sites? (ofSites sites) = some sites := by
  induction sites with
  | nil =>
    rw [ofSites, List.foldr_nil, sites?]
  | cons site sites ih =>
    obtain ⟨hsite, hrest⟩ := List.forall_mem_cons.mp h
    have hline : natBelow UInt64.size (.int site.line) = some site.line :=
      natBelow_eq_some.mpr ⟨rfl, hsite⟩
    rw [ofSites_cons, sites?_obj, ih hrest]
    simp only [site?, Json.str?, hline, grammar?_grammarName]
    rfl

theorem shown_ofSites (hlength : sites.length ≤ room)
    (h : ∀ site ∈ sites, site.line < UInt64.size) :
    Shown siteFields room .again (ofSites sites) := by
  induction sites generalizing room with
  | nil => exact shown_null
  | cons site sites ih =>
    obtain ⟨hsite, hrest⟩ := List.forall_mem_cons.mp h
    obtain ⟨room, rfl⟩ : ∃ rest, room = rest + 1 := ⟨room - 1, by simp at hlength; omega⟩
    have hparent := ih (Nat.le_of_succ_le_succ hlength) hrest
    refine (shown_again []).mpr (shown_record ?_)
    refine .cons rfl (shown_str _) (.cons rfl (shown_nat hsite) (.cons rfl (shown_str _) ?_))
    exact .cons rfl (shown_str _) (.cons rfl hparent shownMembers_nil)

theorem sites_of_selected (h : Selected siteFields room .again (ofSites sites) j)
    (hj : sites? j = some sites') :
    sites.length ≤ room ∧ ∀ site ∈ sites, site.line < UInt64.size := by
  -- each site is an object around its parent, so it leaves one level less for the rest
  induction sites generalizing room j sites' with
  | nil => exact ⟨Nat.zero_le room, List.forall_mem_nil _⟩
  | cons site sites ih =>
    obtain ⟨rest, picked, rfl, hpicked, rfl⟩ := ((selected_again []).mp h).record
    obtain ⟨file, more₁, -, hmore₁, rfl⟩ := hpicked.cons rfl
    obtain ⟨line, more₂, hline, hmore₂, rfl⟩ := hmore₁.cons rfl
    obtain ⟨grammar, more₃, -, hmore₃, rfl⟩ := hmore₂.cons rfl
    obtain ⟨label, more₄, -, hmore₄, rfl⟩ := hmore₃.cons rfl
    obtain ⟨parent, more₅, hparent, hmore₅, rfl⟩ := hmore₄.cons rfl
    obtain rfl := hmore₅.nil
    rw [sites?_obj] at hj
    obtain ⟨site', hsite', hj⟩ := Option.bind_eq_some_iff.mp hj
    obtain ⟨via, hvia, -⟩ := Option.bind_eq_some_iff.mp hj
    obtain ⟨hlength, hsites⟩ := ih hparent hvia
    obtain ⟨path, -, hsite'⟩ := Option.bind_eq_some_iff.mp hsite'
    obtain ⟨n, hn, -⟩ := Option.bind_eq_some_iff.mp hsite'
    have hlt := (natBelow_eq_some.mp hn).2
    rw [hline.natBelow hn] at hlt
    exact ⟨Nat.succ_le_succ hlength, List.forall_mem_cons.mpr ⟨hlt, hsites⟩⟩

end Sites

theorem mapM_isSome_iff {α β : Type} {f : α → Option β} {as : List α} :
    (as.mapM f).isSome = true ↔ ∀ a ∈ as, (f a).isSome = true := by
  induction as with
  | nil => exact ⟨fun _ => List.forall_mem_nil _, fun _ => rfl⟩
  | cons a as ih =>
    rw [List.forall_mem_cons, ← ih, List.mapM_cons]
    cases f a <;> cases as.mapM f <;> simp [bind]

section Parts

variable {outer : List (String × Schema)} {room : Nat}

def sourceMapSchema : Schema :=
  .record [("paths", .whole), ("lines", .numbered (.record siteFields))]

theorem shown_ofSourceMap {m : SourceMap}
    (hchains : ∀ line ∈ m.lines, line.2.sites.length ≤ room)
    (hlines : ∀ line ∈ m.lines, ∀ site ∈ line.2.sites, site.line < UInt64.size) :
    Shown outer (room + 2) sourceMapSchema (ofSourceMap m) := by
  have hsites (outer : List (String × Schema)) (line : Nat × Origin) (hline : line ∈ m.lines) :
      Shown outer room (.record siteFields) (ofSites line.2.sites) :=
    (shown_again outer).mp (shown_ofSites (hchains line hline) (hlines line hline))
  exact shown_record (.cons rfl (shown_texts m.paths) (.cons rfl (shown_numbered (hsites _))
    shownMembers_nil))

theorem shown_ofDependency {dep : Dependency} (h : ∀ stamp ∈ dep.stamp,
    stamp.secs < UInt64.size ∧ stamp.nanos < UInt32.size) :
    Shown outer (room + 2) dependencySchema (ofDependency dep) := by
  obtain ⟨path, stamp⟩ := dep
  have hstamp (outer : List (String × Schema)) :
      Shown outer (room + 1) stampSchema (stamp.elim .null ofStamp) := by
    cases stamp with
    | none => exact shown_null
    | some stamp =>
      obtain ⟨hsecs, hnanos⟩ := h stamp rfl
      have hnanos' : stamp.nanos < UInt64.size := Nat.lt_trans hnanos (by decide)
      exact shown_record (.cons rfl (shown_nat hsecs) (.cons rfl (shown_nat hnanos')
        shownMembers_nil))
  exact shown_record (.cons rfl (shown_str path) (.cons rfl (hstamp _) shownMembers_nil))

theorem shown_ofEntry {e : Entry} (h : e.Fits) : Shown [] maxNesting schema (ofEntry e) := by
  have hmap (outer : List (String × Schema)) :
      Shown outer (Entry.maxSites + 2) sourceMapSchema (ofSourceMap e.sourceMap) :=
    shown_ofSourceMap h.chains fun line hline => (h.lines line hline).2
  have hdeps (outer : List (String × Schema)) : Shown outer (Entry.maxSites + 2)
      (.list dependencySchema) (.arr (e.dependencies.map ofDependency)) :=
    shown_list fun dep hdep => shown_ofDependency (h.stamps dep hdep)
  exact shown_record (.cons rfl (shown_str _) (.cons rfl (shown_str _) (.cons rfl (hmap _)
    (.cons rfl (hdeps _) shownMembers_nil))))

theorem origin?_isSome {j : Json} (h : (origin? j).isSome = true) : (sites? j).isSome = true := by
  unfold origin? at h
  split at h
  · next hs => rw [hs, Option.isSome_some]
  · cases h

theorem lines?_obj {members : List (String × Json)} :
    (lines? (.obj members)).isSome = true ↔ ∀ member ∈ members,
      (lineOf? member.1).isSome = true ∧ (origin? member.2).isSome = true := by
  have hmember (member : String × Json) :
      (do return (← lineOf? member.1, ← origin? member.2) : Option (Nat × Origin)).isSome = true ↔
        (lineOf? member.1).isSome = true ∧ (origin? member.2).isSome = true := by
    cases lineOf? member.1 <;> cases origin? member.2 <;> simp [bind]
  simp only [← hmember, ← mapM_isSome_iff, lines?]
  cases members.mapM fun member =>
    (do return (← lineOf? member.1, ← origin? member.2) : Option (Nat × Origin)) <;> rfl

theorem sourceMap?_obj {paths lines : Json} :
    (sourceMap? (.obj [("paths", paths), ("lines", lines)])).isSome = true ↔
      (listOf str? paths).isSome = true ∧ (lines? lines).isSome = true := by
  change ((listOf str? paths).bind fun paths => (lines? lines).bind fun lines =>
    some (SourceMap.mk paths lines)).isSome = true ↔ _
  cases listOf str? paths <;> cases lines? lines <;> simp

theorem read?_obj {key template sourceMap dependencies : Json} {source : String} :
    (read? (.obj [("key", key), ("template", template), ("source_map", sourceMap),
      ("dependencies", dependencies)]) source).isSome = true ↔
      (key.str?.isSome = true ∧ template.str?.isSome = true) ∧
        (sourceMap? sourceMap).isSome = true ∧ (listOf dependency? dependencies).isSome = true := by
  change (key.str?.bind fun key => template.str?.bind fun template =>
    (sourceMap? sourceMap).bind fun sourceMap => (listOf dependency? dependencies).bind fun deps =>
      some (Entry.mk key template source sourceMap deps)).isSome = true ↔ _
  cases key.str? <;> cases template.str? <;> cases sourceMap? sourceMap <;>
    cases listOf dependency? dependencies <;> simp

theorem stamp?_eq_some {j : Json} {stamp : Stamp} (h : stamp? j = some stamp) :
    stamp.secs < UInt64.size ∧ stamp.nanos < UInt32.size := by
  obtain ⟨r, -, h⟩ := Option.bind_eq_some_iff.mp h
  obtain ⟨secs, hsecs, h⟩ := Option.bind_eq_some_iff.mp h
  obtain ⟨nanos, hnanos, h⟩ := Option.bind_eq_some_iff.mp h
  cases h
  obtain ⟨value, -, hsecs⟩ := Option.bind_eq_some_iff.mp hsecs
  obtain ⟨value', -, hnanos⟩ := Option.bind_eq_some_iff.mp hnanos
  exact ⟨(natBelow_eq_some.mp hsecs).2, (natBelow_eq_some.mp hnanos).2⟩

theorem dependency?_eq_some {j : Json} {dep : Dependency} (h : dependency? j = some dep) :
    ∀ stamp ∈ dep.stamp, stamp.secs < UInt64.size ∧ stamp.nanos < UInt32.size := by
  obtain ⟨r, -, h⟩ := Option.bind_eq_some_iff.mp h
  obtain ⟨path, -, h⟩ := Option.bind_eq_some_iff.mp h
  obtain ⟨found, hfound, h⟩ := Option.bind_eq_some_iff.mp h
  cases h
  intro stamp hstamp
  unfold Record.optional at hfound
  split at hfound
  · split at hfound <;> cases hfound
    cases hstamp
  · cases hfound
    cases hstamp
  · obtain ⟨stamp', hstamp', rfl⟩ := Option.map_eq_some_iff.mp hfound
    cases hstamp
    exact stamp?_eq_some hstamp'

theorem dependency?_ofDependency {dep : Dependency} (h : ∀ stamp ∈ dep.stamp,
    stamp.secs < UInt64.size ∧ stamp.nanos < UInt32.size) :
    dependency? (ofDependency dep) = some dep := by
  obtain ⟨path, stamp⟩ := dep
  cases stamp with
  | none => rfl
  | some stamp =>
    obtain ⟨hsecs, hnanos⟩ := h stamp rfl
    have hstamp : stamp? (ofStamp stamp) = some stamp := by
      change ((natBelow UInt64.size (.int stamp.secs)).bind fun secs =>
        (natBelow UInt32.size (.int stamp.nanos)).bind fun nanos => some (Stamp.mk secs nanos)) = _
      rw [natBelow_eq_some.mpr ⟨rfl, hsecs⟩, natBelow_eq_some.mpr ⟨rfl, hnanos⟩]
      rfl
    change (((stamp? (ofStamp stamp)).map some).bind fun stamp => some (Dependency.mk path stamp)) = _
    rw [hstamp]
    rfl

end Parts

theorem read?_ofEntry {e : Entry} (h : e.Fits) (source : String) :
    (read? (ofEntry e) source).isSome = true := by
  have hpaths : (listOf str? (.arr (e.sourceMap.paths.map .str))).isSome = true := by
    refine mapM_isSome_iff.mpr fun j hj => ?_
    obtain ⟨path, -, rfl⟩ := List.mem_map.mp hj
    rfl
  have hlines : (lines? (.obj (e.sourceMap.lines.map fun line =>
      (toString line.1, ofSites line.2.sites)))).isSome = true := by
    refine lines?_obj.mpr fun member hm => ?_
    obtain ⟨line, hline, rfl⟩ := List.mem_map.mp hm
    obtain ⟨hnumber, hsites⟩ := h.lines line hline
    refine ⟨lineOf?_toString.mpr hnumber, ?_⟩
    rw [origin?, sites?_ofSites hsites]
    rfl
  have hdeps : (listOf dependency? (.arr (e.dependencies.map ofDependency))).isSome = true := by
    refine mapM_isSome_iff.mpr fun j hj => ?_
    obtain ⟨dep, hdep, rfl⟩ := List.mem_map.mp hj
    rw [dependency?_ofDependency (h.stamps dep hdep)]
    rfl
  exact read?_obj.mpr ⟨⟨rfl, rfl⟩, sourceMap?_obj.mpr ⟨hpaths, hlines⟩, hdeps⟩

theorem lines_of_selected {outer : List (String × Schema)} {room : Nat} {m : SourceMap} {j : Json}
    (h : Selected outer (room + 2) sourceMapSchema (ofSourceMap m) j)
    (hj : (sourceMap? j).isSome = true) {line : Nat × Origin} (hline : line ∈ m.lines) :
    line.2.sites.length ≤ room ∧
      line.1 < UInt64.size ∧ ∀ site ∈ line.2.sites, site.line < UInt64.size := by
  obtain ⟨rest, picked, hroom, hpicked, rfl⟩ := Selected.record h
  obtain ⟨paths, more, -, hmore, rfl⟩ := hpicked.cons rfl
  obtain ⟨lines, last, hlines, hlast, rfl⟩ := hmore.cons rfl
  obtain rfl := hlast.nil
  obtain ⟨rest', members, hrest, rfl, hmembers⟩ := selected_numbered hlines
  obtain ⟨member, hm, hname, hsites⟩ := hmembers line hline
  obtain rfl : rest' = room := by omega
  obtain ⟨hnumber, horigin⟩ := lines?_obj.mp (sourceMap?_obj.mp hj).2 member hm
  obtain ⟨sites, hread⟩ := Option.isSome_iff_exists.mp (origin?_isSome horigin)
  obtain ⟨hlength, hall⟩ := sites_of_selected ((selected_again _).mpr hsites) hread
  rw [hname] at hnumber
  exact ⟨hlength, lineOf?_toString.mp hnumber, hall⟩

theorem exists_of_mem_mapM {α β : Type} {f : α → Option β} {as : List α} {bs : List β} {b : β}
    (h : as.mapM f = some bs) (hb : b ∈ bs) : ∃ a, f a = some b := by
  induction as generalizing bs with
  | nil =>
    cases h
    cases hb
  | cons a as ih =>
    rw [List.mapM_cons] at h
    obtain ⟨b', hb', h⟩ := Option.bind_eq_some_iff.mp h
    obtain ⟨bs', hbs', h⟩ := Option.bind_eq_some_iff.mp h
    cases h
    rcases List.mem_cons.mp hb with rfl | hb
    · exact ⟨a, hb'⟩
    · exact ih hbs' hb

theorem stamps_of_read? {j : Json} {source : String} {e : Entry} (h : read? j source = some e) :
    ∀ dep ∈ e.dependencies, ∀ stamp ∈ dep.stamp,
      stamp.secs < UInt64.size ∧ stamp.nanos < UInt32.size := by
  obtain ⟨_, -, h⟩ := Option.bind_eq_some_iff.mp h
  obtain ⟨_, -, h⟩ := Option.bind_eq_some_iff.mp h
  obtain ⟨_, -, h⟩ := Option.bind_eq_some_iff.mp h
  obtain ⟨_, -, h⟩ := Option.bind_eq_some_iff.mp h
  obtain ⟨deps, hdeps, h⟩ := Option.bind_eq_some_iff.mp h
  cases h
  obtain ⟨value, -, hdeps⟩ := Option.bind_eq_some_iff.mp hdeps
  unfold listOf at hdeps
  split at hdeps
  · intro dep hdep
    obtain ⟨j, hj⟩ := exists_of_mem_mapM hdeps hdep
    exact dependency?_eq_some hj
  · cases hdeps

theorem isSome_readPart_iff {e : Entry} :
    ((readPart schema (ofEntry e).compact).bind (read? · "")).isSome = true ↔ e.Fits := by
  obtain ⟨draft, hd, hread⟩ := draft?_compact (printable_ofEntry e)
  have hpart : readPart schema (ofEntry e).compact = draft.select [] maxNesting schema := by
    rw [readPart, hread, Option.bind_some]
  constructor
  · intro h
    obtain ⟨e', he'⟩ := Option.isSome_iff_exists.mp h
    have hdeps := (entry_of_readPart he').2
    obtain ⟨j, hj, hentry⟩ := Option.bind_eq_some_iff.mp he'
    have hselected : Selected [] maxNesting schema (ofEntry e) j := ⟨draft, hd, hpart ▸ hj⟩
    obtain ⟨rest, picked, hroom, hpicked, rfl⟩ := hselected.record
    obtain ⟨key, more₁, -, hmore₁, rfl⟩ := hpicked.cons rfl
    obtain ⟨template, more₂, -, hmore₂, rfl⟩ := hmore₁.cons rfl
    obtain ⟨sourceMap, more₃, hmap, hmore₃, rfl⟩ := hmore₂.cons rfl
    obtain ⟨dependencies, more₄, -, hmore₄, rfl⟩ := hmore₃.cons rfl
    obtain rfl := hmore₄.nil
    have hmap' := (read?_obj.mp (Option.isSome_iff_exists.mpr ⟨e', hentry⟩)).2.1
    obtain rfl : rest = Entry.maxSites + 2 := (Nat.succ.inj hroom).symm
    have hlines (line : Nat × Origin) (hline : line ∈ e.sourceMap.lines) :=
      lines_of_selected hmap hmap' hline
    exact ⟨fun line hline => (hlines line hline).1, fun line hline => (hlines line hline).2,
      hdeps ▸ stamps_of_read? hentry⟩
  · intro h
    rw [hpart, shown_ofEntry h draft hd, Option.bind_some]
    exact read?_ofEntry h ""

end Metadata

end Lamina
