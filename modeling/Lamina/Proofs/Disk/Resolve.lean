import Lamina.Disk
import Lamina.Proofs.Table
import Lamina.Proofs.Text

/-! Resolution of path texts. What is resolved is a real path, one that leads through directories
only, and it stays resolved while directories and links stay. -/

namespace Lamina.Disk

variable {d d' : Disk} {p q here : Path} {way : List String} {links : Nat} {name x : String}

/-- A step of a way, of which `.` and `..` are ones. -/
def IsStep (name : String) : Prop := name ≠ "" ∧ '/' ∉ name.toList

/-- A step that is looked up. -/
structure Proper (name : String) : Prop where
  ne_here : name ≠ "."
  ne_up : name ≠ ".."
  short : name.utf8ByteSize ≤ maxName

theorem isStep_of_mem_steps {text : String} (h : name ∈ steps text) : IsStep name := by
  rcases List.mem_append.mp h with h | h
  · obtain ⟨piece, hp, rfl⟩ := List.mem_map.mp h
    obtain ⟨hp, hne⟩ := List.mem_filter.mp hp
    refine ⟨?_, by simpa using Text.not_mem_of_mem_splitOn hp⟩
    rintro he
    have : piece = [] := by simpa using congrArg String.toList he
    simp [this] at hne
  · split at h
    · rw [List.mem_singleton.mp h]
      exact ⟨by decide, by decide⟩
    · cases h

/-- `d.Starts from? x here way`: the text is that of the root, of a path below it, or of a path
relative to where relative ones start. -/
inductive Starts (d : Disk) (from? : Option Path) (x : String) : Path → List String → Prop
  | root (hx : x = d.root) : d.Starts from? x [] []
  | below {rest : List Char} (hx : x.toList = d.root.toList ++ '/' :: rest) :
    d.Starts from? x [] (steps (String.ofList rest))
  | relative {here : Path} (hroot : x ≠ d.root)
    (hbelow : ∀ rest, x.toList ≠ d.root.toList ++ '/' :: rest)
    (hslash : Text.startsWith "/" x = false) (hfrom : from? = some here) :
    d.Starts from? x here (steps x)

theorem start?_eq_some {from? : Option Path} : d.start? from? x = some (here, way) ↔
    x ≠ "" ∧ isPathText x = true ∧ d.Starts from? x here way := by
  have hrest (rest : List Char) : (d.root ++ "/").toList.isPrefixOf? x.toList = some rest ↔
      x.toList = d.root.toList ++ '/' :: rest := by
    rw [Text.isPrefixOf?_eq_some]
    simp
  unfold start?
  split
  · next h =>
    refine ⟨nofun, fun ⟨hx, hp, _⟩ => absurd h ?_⟩
    simp [hx, hp]
  · next h =>
    simp only [Bool.or_eq_true, String.isEmpty_iff, Bool.not_eq_eq_eq_not, Bool.not_true, not_or,
      Bool.not_eq_false] at h
    simp only [ne_eq, h, not_false_iff, true_and]
    split
    · next hroot =>
      constructor
      · rintro ⟨⟩
        exact .root hroot
      · rintro (_ | hx | hx)
        · rfl
        · exact absurd (congrArg String.toList hroot) (by simp [hx])
        · exact absurd hroot hx
    · next hroot =>
      split
      · next rest hdrop =>
        have hx := (hrest rest).mp hdrop
        constructor
        · rintro ⟨⟩
          exact .below hx
        · rintro (hx' | hx' | ⟨-, hx'⟩)
          · exact absurd hx' hroot
          · cases List.append_cancel_left (hx.symm.trans hx')
            rfl
          · exact absurd hx (hx' rest)
      · next hdrop =>
        have hbelow : ∀ rest, x.toList ≠ d.root.toList ++ '/' :: rest :=
          fun rest hx => nomatch hdrop.symm.trans ((hrest rest).mpr hx)
        split
        · next hslash =>
          refine ⟨nofun, ?_⟩
          rintro (hx' | hx' | ⟨-, -, hx'⟩)
          · exact absurd hx' hroot
          · exact absurd hx' (hbelow _)
          · exact absurd hslash (by simp [hx'])
        · next hslash =>
          constructor
          · intro h
            obtain ⟨base, hbase, he⟩ := Option.map_eq_some_iff.mp h
            cases he
            exact .relative hroot hbelow (by simpa using hslash) hbase
          · rintro (hx' | hx' | ⟨-, -, -, hx'⟩)
            · exact absurd hx' hroot
            · exact absurd hx' (hbelow _)
            · rw [hx', Option.map_some]

theorem start?_spec {from? : Option Path} (h : d.start? from? x = some (here, way)) :
    (here = [] ∨ from? = some here) ∧ ∀ name ∈ way, IsStep name := by
  cases (start?_eq_some.mp h).2.2 with
  | root => exact ⟨.inl rfl, List.forall_mem_nil _⟩
  | below => exact ⟨.inl rfl, fun name => isStep_of_mem_steps⟩
  | relative _ _ _ hfrom => exact ⟨.inr hfrom, fun name => isStep_of_mem_steps⟩

/-- `d.Leads links here way p`: the way from `here` leads to `p`, through at most `links` links. -/
inductive Leads (d : Disk) : Nat → Path → List String → Path → Prop
  | done {links : Nat} {here : Path} : d.Leads links here [] here
  | stay {links : Nat} {here p : Path} {rest : List String} (h : d.Leads links here rest p) :
    d.Leads links here ("." :: rest) p
  | up {links : Nat} {here p : Path} {rest : List String} (h : d.Leads links here.dropLast rest p) :
    d.Leads links here (".." :: rest) p
  | dir {links : Nat} {here p : Path} {name : String} {rest : List String} (hname : Proper name)
    (hitem : d.item? (here ++ [name]) = some .dir) (h : d.Leads links (here ++ [name]) rest p) :
    d.Leads links here (name :: rest) p
  | file {links : Nat} {here : Path} {name : String} {content : Content} {time : Time}
    (hname : Proper name) (hitem : d.item? (here ++ [name]) = some (.file content time)) :
    d.Leads links here [name] (here ++ [name])
  | link {links : Nat} {here base p : Path} {name target : String} {rest more : List String}
    (hname : Proper name) (hitem : d.item? (here ++ [name]) = some (.link target))
    (hstart : d.start? (some here) target = some (base, more))
    (h : d.Leads links base (more ++ rest) p) : d.Leads (links + 1) here (name :: rest) p

theorem leads_of_followBy {jump : Path → String → List String → Except PathFault Path}
    (hjump : ∀ here name target rest, Proper name → d.item? (here ++ [name]) = some (.link target) →
      jump here target rest = .ok p → d.Leads links here (name :: rest) p)
    (h : d.followBy jump here way = .ok p) : d.Leads links here way p := by
  induction way generalizing here with
  | nil =>
    cases h
    exact .done
  | cons name rest ih =>
    rw [followBy] at h
    split at h
    · next hname => exact hname ▸ .stay (ih h)
    · next hhere =>
      split at h
      · next hname => exact hname ▸ .up (ih h)
      · next hup =>
        split at h
        · cases h
        · next hlong =>
          have hname : Proper name := ⟨hhere, hup, Nat.le_of_not_lt hlong⟩
          split at h
          · cases h
          · next hitem => exact .dir hname hitem (ih h)
          · next hitem =>
            split at h
            · next hrest =>
              cases h
              rw [List.isEmpty_iff.mp hrest]
              exact .file hname hitem
            · cases h
          · next hitem => exact hjump here name _ rest hname hitem h

theorem leads_of_follow (h : d.follow links here way = .ok p) : d.Leads links here way p := by
  induction links generalizing here way with
  | zero =>
    rw [follow] at h
    refine leads_of_followBy (fun here name target rest _ _ hj => ?_) h
    cases hj
  | succ links ih =>
    rw [follow] at h
    refine leads_of_followBy (fun here name target rest hname hitem hj => ?_) h
    dsimp only at hj
    split at hj
    · cases hj
    · next hstart => exact .link hname hitem hstart (ih hj)

theorem Leads.follow (h : d.Leads links here way p) : d.follow links here way = .ok p := by
  induction h with
  | done =>
    rw [Disk.follow]
    rfl
  | stay _ ih | up _ ih =>
    rw [Disk.follow] at ih ⊢
    exact ih
  | dir hn hitem _ ih =>
    rw [Disk.follow] at ih ⊢
    rw [followBy, if_neg hn.ne_here, if_neg hn.ne_up, if_neg (Nat.not_lt.mpr hn.short), hitem]
    exact ih
  | file hn hitem =>
    rw [Disk.follow, followBy, if_neg hn.ne_here, if_neg hn.ne_up,
      if_neg (Nat.not_lt.mpr hn.short), hitem]
    rfl
  | link hn hitem hstart _ ih =>
    rw [Disk.follow, followBy, if_neg hn.ne_here, if_neg hn.ne_up,
      if_neg (Nat.not_lt.mpr hn.short), hitem]
    dsimp only
    rw [hstart]
    exact ih

/-- A path whose names can be looked up and all of which but the end is directories. -/
structure Real (d : Disk) (p : Path) : Prop where
  steps : ∀ name ∈ p, IsStep name
  proper : ∀ name ∈ p, Proper name
  above : ∀ q name rest, p = q ++ name :: rest → d.item? q = some .dir

theorem item?_nil (d : Disk) : d.item? [] = some .dir := rfl

theorem real_nil (d : Disk) : d.Real [] :=
  ⟨List.forall_mem_nil _, List.forall_mem_nil _, fun q name rest h => by simp at h⟩

theorem Real.concat (h : d.Real p) (hp : d.item? p = some .dir) (hs : IsStep name)
    (hn : Proper name) : d.Real (p ++ [name]) := by
  refine ⟨List.forall_mem_append.mpr ⟨h.steps, List.forall_mem_singleton.mpr hs⟩,
    List.forall_mem_append.mpr ⟨h.proper, List.forall_mem_singleton.mpr hn⟩, fun q n rest he => ?_⟩
  rcases List.eq_nil_or_concat' rest with rfl | ⟨rest, last, rfl⟩
  · obtain ⟨rfl, -⟩ := List.append_inj' he rfl
    exact hp
  · rw [← List.cons_append, ← List.append_assoc] at he
    obtain ⟨rfl, -⟩ := List.append_inj' he rfl
    exact h.above q n rest rfl

theorem Real.dropLast (h : d.Real p) (hp : d.item? p = some .dir) :
    d.Real p.dropLast ∧ d.item? p.dropLast = some .dir := by
  rcases List.eq_nil_or_concat' p with rfl | ⟨q, name, rfl⟩
  · exact ⟨h, hp⟩
  · rw [List.dropLast_concat]
    refine ⟨⟨fun n hm => h.steps n (List.mem_append_left _ hm),
      fun n hm => h.proper n (List.mem_append_left _ hm), fun r n rest he => ?_⟩,
      h.above q name [] rfl⟩
    exact h.above r n (rest ++ [name]) (by rw [he, List.append_assoc, List.cons_append])

def Reached (d : Disk) (p : Path) : Prop :=
  d.Real p ∧ (d.item? p = some .dir ∨ ∃ content time, d.item? p = some (.file content time))

theorem Leads.reached (h : d.Leads links here way p) (hr : d.Real here)
    (hd : d.item? here = some .dir) (hway : ∀ name ∈ way, IsStep name) : d.Reached p := by
  induction h with
  | done => exact ⟨hr, .inl hd⟩
  | stay _ ih => exact ih hr hd (List.forall_mem_cons.mp hway).2
  | up _ ih => exact ih (hr.dropLast hd).1 (hr.dropLast hd).2 (List.forall_mem_cons.mp hway).2
  | dir hname hitem _ ih =>
    obtain ⟨hstep, hrest⟩ := List.forall_mem_cons.mp hway
    exact ih (hr.concat hd hstep hname) hitem hrest
  | file hname hitem =>
    exact ⟨hr.concat hd (hway _ List.mem_cons_self) hname, .inr ⟨_, _, hitem⟩⟩
  | link _ _ hstart _ ih =>
    obtain ⟨hbase, hmore⟩ := start?_spec hstart
    have hway' := List.forall_mem_append.mpr ⟨hmore, (List.forall_mem_cons.mp hway).2⟩
    rcases hbase with rfl | hbase
    · exact ih (real_nil d) d.item?_nil hway'
    · cases hbase
      exact ih hr hd hway'

/-- Relative paths start at a real directory, and the text of the root ends in no slash. -/
structure Home (d : Disk) : Prop where
  workdir : ∀ here, d.workdir = some here → d.Real here ∧ d.item? here = some .dir
  root : d.root.toList.getLast? ≠ some '/'

theorem resolve_eq_ok : d.resolve x = .ok p ↔
    x.utf8ByteSize ≤ maxPath ∧
      ∃ here way, d.start? d.workdir x = some (here, way) ∧ d.Leads 40 here way p := by
  unfold resolve
  constructor
  · intro h
    split at h
    · cases h
    · next hshort =>
      split at h
      · cases h
      · next here way hstart =>
        exact ⟨Nat.le_of_not_lt hshort, here, way, hstart, leads_of_follow h⟩
  · rintro ⟨hshort, here, way, hstart, hleads⟩
    rw [if_neg (Nat.not_lt.mpr hshort), hstart]
    exact hleads.follow

theorem find?_eq_some : d.find? x = some p ↔ d.resolve x = .ok p := by
  unfold find?
  cases d.resolve x <;> simp [Except.toOption]

theorem itemAt?_eq_some {item : Item} :
    d.itemAt? x = some item ↔ ∃ p, d.resolve x = .ok p ∧ d.item? p = some item := by
  simp only [itemAt?, Option.bind_eq_some_iff, find?_eq_some]

theorem isFile_eq_true : d.isFile x = true ↔
    ∃ p content time, d.resolve x = .ok p ∧ d.item? p = some (.file content time) := by
  unfold isFile
  split
  · next content time h =>
    obtain ⟨p, hp, hitem⟩ := itemAt?_eq_some.mp h
    exact ⟨fun _ => ⟨p, content, time, hp, hitem⟩, fun _ => rfl⟩
  · next h =>
    refine ⟨nofun, ?_⟩
    rintro ⟨p, content, time, hp, hitem⟩
    exact absurd (itemAt?_eq_some.mpr ⟨p, hp, hitem⟩) (h content time)

theorem readFile_eq_ok {content : String} : d.readFile x = .ok content ↔
    ∃ p time, d.resolve x = .ok p ∧ d.item? p = some (.file (.text content) time) := by
  unfold readFile
  split
  · next h =>
    refine ⟨nofun, ?_⟩
    rintro ⟨p, time, hp, -⟩
    rw [h] at hp
    cases hp
  · next q h =>
    simp only [h, Except.ok.injEq, exists_and_left, exists_eq_left']
    split <;> simp_all

theorem resolve_reached (hd : d.Home) (h : d.resolve x = .ok p) : d.Reached p := by
  obtain ⟨-, here, way, hstart, hleads⟩ := resolve_eq_ok.mp h
  obtain ⟨hhere, hway⟩ := start?_spec hstart
  rcases hhere with rfl | hhere
  · exact hleads.reached (real_nil d) d.item?_nil hway
  · obtain ⟨hr, hdir⟩ := hd.workdir here hhere
    exact hleads.reached hr hdir hway

/-- The file system later on: directories and links have stayed, and no links have come. -/
structure Later (d d' : Disk) : Prop where
  root : d'.root = d.root
  workdir : d'.workdir = d.workdir
  dirs : ∀ p, d.item? p = some .dir → d'.item? p = some .dir
  links : ∀ p target, d'.item? p = some (.link target) ↔ d.item? p = some (.link target)

theorem Later.refl (d : Disk) : d.Later d := ⟨rfl, rfl, fun _ h => h, fun _ _ => .rfl⟩

theorem Later.trans {d'' : Disk} (h : d.Later d') (h' : d'.Later d'') : d.Later d'' :=
  ⟨h'.root.trans h.root, h'.workdir.trans h.workdir, fun p hp => h'.dirs p (h.dirs p hp),
    fun p target => (h'.links p target).trans (h.links p target)⟩

theorem Later.start? (h : d.Later d') (from? : Option Path) (text : String) :
    d'.start? from? text = d.start? from? text := by
  unfold Disk.start?
  rw [h.root]

theorem Later.real (h : d.Later d') (hp : d.Real p) : d'.Real p :=
  ⟨hp.steps, hp.proper, fun q name rest he => h.dirs q (hp.above q name rest he)⟩

theorem Later.home (h : d.Later d') (hd : d.Home) : d'.Home := by
  refine ⟨fun here hhere => ?_, h.root ▸ hd.root⟩
  obtain ⟨hr, hdir⟩ := hd.workdir here (h.workdir ▸ hhere)
  exact ⟨h.real hr, h.dirs here hdir⟩

theorem Later.text (h : d.Later d') (p : Path) : d'.text p = d.text p := by
  unfold Disk.text
  rw [h.root]

def StaysFile (d d' : Disk) (p : Path) : Prop :=
  ∀ content time, d.item? p = some (.file content time) →
    ∃ content' time', d'.item? p = some (.file content' time')

theorem Later.leads (h : d.Later d') (hp : d.StaysFile d' p) (hl : d.Leads links here way p) :
    d'.Leads links here way p := by
  induction hl with
  | done => exact .done
  | stay _ ih => exact .stay (ih hp)
  | up _ ih => exact .up (ih hp)
  | dir hname hitem _ ih => exact .dir hname (h.dirs _ hitem) (ih hp)
  | file hname hitem =>
    obtain ⟨content, time, hitem'⟩ := hp _ _ hitem
    exact .file hname hitem'
  | link hname hitem hstart _ ih =>
    exact .link hname ((h.links _ _).mpr hitem) ((h.start? _ _).trans hstart) (ih hp)

theorem Later.resolve (h : d.Later d') (hp : d.StaysFile d' p) (hx : d.resolve x = .ok p) :
    d'.resolve x = .ok p := by
  obtain ⟨hshort, here, way, hstart, hleads⟩ := resolve_eq_ok.mp hx
  rw [← h.start?, ← h.workdir] at hstart
  exact resolve_eq_ok.mpr ⟨hshort, here, way, hstart, h.leads hp hleads⟩

theorem Later.eq_of_leads (h : d.Later d') (hl : d.Leads links here way p) {content : Content}
    {time : Time} (hp : d.item? p = some (.file content time)) {links' : Nat}
    (hl' : d'.Leads links' here way q) : q = p := by
  induction hl generalizing links' with
  | done =>
    cases hl'
    rfl
  | stay _ ih =>
    generalize hname' : "." = name at hl'
    cases hl' with
    | stay hl' => exact ih hp hl'
    | up => exact absurd hname' (by decide)
    | dir hname => exact absurd hname'.symm hname.ne_here
    | file hname => exact absurd hname'.symm hname.ne_here
    | link hname => exact absurd hname'.symm hname.ne_here
  | up _ ih =>
    generalize hname' : ".." = name at hl'
    cases hl' with
    | stay => exact absurd hname' (by decide)
    | up hl' => exact ih hp hl'
    | dir hname => exact absurd hname'.symm hname.ne_up
    | file hname => exact absurd hname'.symm hname.ne_up
    | link hname => exact absurd hname'.symm hname.ne_up
  | dir hname hitem _ ih =>
    cases hl' with
    | stay => exact absurd rfl hname.ne_here
    | up => exact absurd rfl hname.ne_up
    | dir _ _ hl' => exact ih hp hl'
    | file _ hitem' | link _ hitem' => cases (h.dirs _ hitem).symm.trans hitem'
  | file hname hitem =>
    cases hl' with
    | stay => exact absurd rfl hname.ne_here
    | up => exact absurd rfl hname.ne_up
    | dir _ _ hl' =>
      cases hl'
      rfl
    | file => rfl
    | link _ hitem' => cases ((h.links _ _).mp hitem').symm.trans hitem
  | link hname hitem hstart _ ih =>
    have hlink := (h.links _ _).mpr hitem
    cases hl' with
    | stay => exact absurd rfl hname.ne_here
    | up => exact absurd rfl hname.ne_up
    | dir _ hitem' => cases hlink.symm.trans hitem'
    | file _ hitem' => cases hlink.symm.trans hitem'
    | link _ hitem' hstart' hl' =>
      cases hlink.symm.trans hitem'
      cases ((h.start? _ _).trans hstart).symm.trans hstart'
      exact ih hp hl'

theorem Later.eq_of_resolve (h : d.Later d') (hx : d.resolve x = .ok p) {content : Content}
    {time : Time} (hp : d.item? p = some (.file content time)) (hx' : d'.resolve x = .ok q) :
    q = p := by
  obtain ⟨-, here, way, hstart, hleads⟩ := resolve_eq_ok.mp hx
  obtain ⟨-, here', way', hstart', hleads'⟩ := resolve_eq_ok.mp hx'
  rw [h.start?, h.workdir, hstart] at hstart'
  cases hstart'
  exact h.eq_of_leads hleads hp hleads'

end Lamina.Disk
