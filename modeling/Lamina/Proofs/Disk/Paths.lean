import Lamina.Proofs.Disk.Resolve

/-! Texts of paths. The text of a real path leads back to it, and the text of a name below a
directory leads to that name in what the directory's text leads to. -/

namespace Lamina.Disk

variable {d d' : Disk} {p q here : Path} {way : List String} {links : Nat} {name x dir : String}

def slashed (p : Path) : List Char := p.flatMap fun name => '/' :: name.toList

theorem toList_text (d : Disk) (p : Path) : (d.text p).toList = d.root.toList ++ slashed p := by
  have hjoin : (String.join (p.map ("/" ++ ·))).toList = slashed p := by
    induction p with
    | nil => rfl
    | cons name p ih => simp_all [slashed, String.join_cons]
  rw [text, String.toList_append, hjoin]

theorem splitOn_slashed {piece : List Char} (hpiece : '/' ∉ piece)
    (hp : ∀ name ∈ p, '/' ∉ name.toList) :
    (piece ++ slashed p).splitOn '/' = piece :: p.map String.toList := by
  induction p generalizing piece with
  | nil => simp [slashed, List.splitOn_eq_singleton hpiece]
  | cons name p ih =>
    obtain ⟨hname, hrest⟩ := List.forall_mem_cons.mp hp
    have hcons : slashed (name :: p) = '/' :: (name.toList ++ slashed p) := rfl
    rw [hcons, List.splitOn_append_cons_self, List.splitOn_eq_singleton hpiece, ih hname hrest]
    rfl

theorem slashed_injective (hp : ∀ name ∈ p, '/' ∉ name.toList)
    (hq : ∀ name ∈ q, '/' ∉ name.toList) (h : slashed p = slashed q) : p = q := by
  have hsplit : (slashed p).splitOn '/' = [] :: p.map String.toList :=
    splitOn_slashed List.not_mem_nil hp
  have hsplit' : (slashed q).splitOn '/' = [] :: q.map String.toList :=
    splitOn_slashed List.not_mem_nil hq
  rw [h, hsplit', List.cons_inj_right] at hsplit
  exact ((List.map_inj_right fun _ _ => String.toList_inj.mp).mp hsplit).symm

theorem steps_names (hway : ∀ n ∈ name :: way, IsStep n) :
    steps (String.ofList (name.toList ++ slashed way)) = name :: way := by
  have hparts : (name.toList ++ slashed way).splitOn '/' = (name :: way).map String.toList :=
    splitOn_slashed (hway name List.mem_cons_self).2
      fun n hn => (hway n (List.mem_cons_of_mem _ hn)).2
  have hne : ∀ n ∈ name :: way, n.toList ≠ [] := fun n hn he =>
    (hway n hn).1 (String.toList_inj.mp he)
  have hall : ((name :: way).map String.toList).filter (!·.isEmpty) =
      (name :: way).map String.toList := by
    rw [List.filter_eq_self]
    intro piece hp
    obtain ⟨n, hn, rfl⟩ := List.mem_map.mp hp
    simpa using hne n hn
  have hlast : (((name :: way).map String.toList).getLast? == some []) = false := by
    rw [beq_eq_false_iff_ne, List.getLast?_map]
    intro he
    obtain ⟨n, hn, hn'⟩ := Option.map_eq_some_iff.mp he
    exact hne n (List.mem_of_getLast? hn) hn'
  rw [steps, String.toList_ofList, hparts, hall, hlast, List.map_map]
  simp

theorem start?_text {from? : Option Path} (hp : ∀ name ∈ p, IsStep name)
    (h : d.start? from? (d.text p) = some (here, way)) : here = [] ∧ way = p := by
  have htext := toList_text d p
  cases (start?_eq_some.mp h).2.2 with
  | root hroot =>
    have hnil : slashed p = slashed [] := by
      rw [hroot] at htext
      simpa [slashed] using htext
    exact ⟨rfl, (slashed_injective (fun n hn => (hp n hn).2) (List.forall_mem_nil _) hnil).symm⟩
  | below hbelow =>
    rw [htext, List.append_cancel_left_eq] at hbelow
    cases p with
    | nil => cases hbelow
    | cons name rest =>
      cases hbelow
      exact ⟨rfl, steps_names hp⟩
  | relative hroot hbelow =>
    cases p with
    | nil =>
      refine absurd (String.toList_inj.mp ?_) hroot
      simpa [slashed] using htext
    | cons name rest => exact absurd htext (hbelow _)

theorem Leads.eq_append (h : d.Leads links here way q) (hr : d.Real (here ++ way))
    (hl : ∀ target, d.item? (here ++ way) ≠ some (.link target)) : q = here ++ way := by
  induction h with
  | done => exact (List.append_nil _).symm
  | stay => exact absurd rfl (hr.proper "." (by simp)).ne_here
  | up => exact absurd rfl (hr.proper ".." (by simp)).ne_up
  | dir _ _ _ ih =>
    rw [List.append_cons] at hr hl ⊢
    exact ih hr hl
  | file => rfl
  | @link _ here _ _ name target rest _ _ hitem =>
    exfalso
    -- the link would have to be the end of the path or one of the directories above it
    cases rest with
    | nil => exact hl target hitem
    | cons next rest =>
      rw [List.append_cons] at hr
      exact absurd (hitem.symm.trans (hr.above _ next rest rfl)) nofun

theorem eq_of_resolve_text (hr : d.Real p) (hl : ∀ target, d.item? p ≠ some (.link target))
    (h : d.resolve (d.text p) = .ok q) : q = p := by
  obtain ⟨-, here, way, hstart, hleads⟩ := resolve_eq_ok.mp h
  obtain ⟨rfl, rfl⟩ := start?_text hr.steps hstart
  exact hleads.eq_append hr hl

theorem toList_joinPath (dir : String) (hname : IsStep name) :
    dir = "" ∧ joinPath dir name = name ∨
      ∃ base, (joinPath dir name).toList = base ++ '/' :: name.toList ∧
        (dir.toList = base ∨ dir.toList = base ++ ['/']) := by
  have hslash : Text.startsWith "/" name = false := by
    rw [Bool.eq_false_iff, ne_eq, Text.startsWith_iff]
    exact fun h => hname.2 (h.subset (by simp))
  unfold joinPath
  rw [hslash, Bool.false_or]
  split
  · next hempty => exact .inl ⟨by simpa using hempty, rfl⟩
  · right
    split
    · next hsuffix =>
      obtain ⟨front, hfront⟩ := Option.isSome_iff_exists.mp hsuffix
      have hdir : dir.toList = front.toList ++ ['/'] := by
        simp [Text.dropSuffix?_eq_some.mp hfront]
      exact ⟨front.toList, by simp [hdir], .inr hdir⟩
    · exact ⟨dir.toList, by simp, .inl rfl⟩

def stepsTo (base : List Char) : List String :=
  ((base.splitOn '/').filter (!·.isEmpty)).map String.ofList

theorem steps_below {base : List Char} (hname : IsStep name) :
    steps (String.ofList (base ++ '/' :: name.toList)) = stepsTo base ++ [name] := by
  have hne : name.toList ≠ [] := fun he => hname.1 (String.toList_inj.mp he)
  simp [steps, stepsTo, List.splitOn_append_cons_self, List.splitOn_eq_singleton hname.2, hne]

theorem steps_dir {base text : List Char} (h : text = base ∨ text = base ++ ['/']) :
    steps (String.ofList text) = stepsTo base ∨
      steps (String.ofList text) = stepsTo base ++ ["."] := by
  rcases h with rfl | rfl
  · simp only [steps, String.toList_ofList]
    split
    · exact .inr rfl
    · exact .inl (List.append_nil _)
  · right
    simp [steps, stepsTo, List.splitOn_append_cons_self, List.splitOn_nil]

/-- All on the way to a path is directories, and so is what it leads to. -/
def Inside (d : Disk) (p : Path) : Prop := ∀ q, q <+: p → d.item? q = some .dir

theorem Inside.of_prefix (h : d.Inside p) (hq : q <+: p) : d.Inside q :=
  fun _ hr => h _ (hr.trans hq)

theorem Inside.concat (h : d.Inside p) (hd : d.item? (p ++ [name]) = some .dir) :
    d.Inside (p ++ [name]) := fun q hq => by
  rcases List.prefix_concat_iff.mp hq with rfl | hq
  · exact hd
  · exact h q hq

theorem Real.inside (hr : d.Real p) (hd : d.item? p = some .dir) : d.Inside p := by
  rintro q ⟨rest, rfl⟩
  cases rest with
  | nil => rwa [List.append_nil] at hd
  | cons name rest => exact hr.above q name rest rfl

theorem inside_nil (d : Disk) : d.Inside [] := (real_nil d).inside d.item?_nil

theorem Inside.start {more : List String} (h : d.Inside here)
    (hx : d.start? (some here) x = some (p, more)) : d.Inside p := by
  rcases (start?_spec hx).1 with rfl | hp
  · exact inside_nil d
  · cases hp
    exact h

/-- A way leads where its parts lead, and if it goes on, the first part leads to a directory. -/
theorem Leads.split {way' : List String} (h : d.Leads links here (way ++ way') p) :
    ∃ q links', links' ≤ links ∧ d.Leads links here way q ∧ d.Leads links' q way' p ∧
      (d.Inside here → d.item? q = some .dir ∨ way' = []) := by
  generalize hw : way ++ way' = whole at h
  have hstart {here p : Path} {links : Nat} (h : d.Leads links here way' p) :
      ∃ q links', links' ≤ links ∧ d.Leads links here [] q ∧ d.Leads links' q way' p ∧
        (d.Inside here → d.item? q = some .dir ∨ way' = []) :=
    ⟨here, links, Nat.le_refl _, .done, h, fun hd => .inl (hd here (List.prefix_refl here))⟩
  induction h generalizing way with
  | done =>
    obtain ⟨rfl, rfl⟩ := List.append_eq_nil_iff.mp hw
    exact hstart .done
  | stay h ih =>
    rcases List.append_eq_cons_iff.mp hw with ⟨rfl, rfl⟩ | ⟨way, rfl, he⟩
    · exact hstart (.stay h)
    · obtain ⟨q, links', hle, hq, hp⟩ := ih he.symm
      exact ⟨q, links', hle, .stay hq, hp⟩
  | up h ih =>
    rcases List.append_eq_cons_iff.mp hw with ⟨rfl, rfl⟩ | ⟨way, rfl, he⟩
    · exact hstart (.up h)
    · obtain ⟨q, links', hle, hq, hp, hdir⟩ := ih he.symm
      exact ⟨q, links', hle, .up hq, hp, fun hd => hdir (hd.of_prefix (List.dropLast_prefix _))⟩
  | dir hname hitem h ih =>
    rcases List.append_eq_cons_iff.mp hw with ⟨rfl, rfl⟩ | ⟨way, rfl, he⟩
    · exact hstart (.dir hname hitem h)
    · obtain ⟨q, links', hle, hq, hp, hdir⟩ := ih he.symm
      exact ⟨q, links', hle, .dir hname hitem hq, hp, fun hd => hdir (hd.concat hitem)⟩
  | file hname hitem =>
    rcases List.append_eq_cons_iff.mp hw with ⟨rfl, rfl⟩ | ⟨way, rfl, he⟩
    · exact hstart (.file hname hitem)
    · obtain ⟨rfl, rfl⟩ := List.append_eq_nil_iff.mp he.symm
      exact ⟨_, 0, Nat.zero_le _, .file hname hitem, .done, fun _ => .inr rfl⟩
  | @link _ _ base _ _ _ rest more hname hitem hlink h ih =>
    rcases List.append_eq_cons_iff.mp hw with ⟨rfl, rfl⟩ | ⟨way, rfl, he⟩
    · exact hstart (.link hname hitem hlink h)
    · have hwhole : more ++ way ++ way' = more ++ rest := by rw [List.append_assoc, ← he]
      obtain ⟨q, links', hle, hq, hp, hdir⟩ := ih hwhole
      exact ⟨q, links', Nat.le_succ_of_le hle, .link hname hitem hlink hq, hp,
        fun hd => hdir (hd.start hlink)⟩

theorem Leads.concat (h : d.Leads links here (way ++ [name]) p) (hn : Proper name)
    (hl : ∀ q target, d.item? (q ++ [name]) ≠ some (.link target)) : ∃ q, p = q ++ [name] := by
  obtain ⟨q, links', -, -, hlast, -⟩ := h.split
  refine ⟨q, ?_⟩
  cases hlast with
  | stay => exact absurd rfl hn.ne_here
  | up => exact absurd rfl hn.ne_up
  | dir _ _ h =>
    cases h
    rfl
  | file => rfl
  | link _ hitem => exact absurd hitem (hl q _)

theorem Leads.of_dot (h : d.Leads links here (way ++ ["."]) p) : d.Leads links here way p := by
  obtain ⟨q, links', -, hq, hlast, -⟩ := h.split
  generalize hdot : "." = dot at hlast
  cases hlast with
  | stay h =>
    cases h
    exact hq
  | up => exact absurd hdot (by decide)
  | dir hname => exact absurd hdot.symm hname.ne_here
  | file hname => exact absurd hdot.symm hname.ne_here
  | link hname => exact absurd hdot.symm hname.ne_here

theorem Leads.extend (h : d.Leads links here way q) (hq : d.item? q = some .dir) (hn : Proper name)
    {content : Content} {time : Time} (hitem : d.item? (q ++ [name]) = some (.file content time)) :
    d.Leads links here (way ++ [name]) (q ++ [name]) := by
  induction h with
  | done => exact .file hn hitem
  | stay _ ih => exact .stay (ih hq hitem)
  | up _ ih => exact .up (ih hq hitem)
  | dir hname hdir _ ih => exact .dir hname hdir (ih hq hitem)
  | file _ hfile => exact absurd (hfile.symm.trans hq) nofun
  | link hname hlink hstart _ ih =>
    exact .link hname hlink hstart (List.append_assoc .. ▸ ih hq hitem)

theorem steps_name (hs : IsStep name) : steps name = [name] := by
  have hne : name.toList ≠ [] := fun he => hs.1 (String.toList_inj.mp he)
  simp [steps, List.splitOn_eq_singleton hs.2, hne]

theorem append_slash_eq {a b c : List Char} {rest : List Char} (hs : '/' ∉ c)
    (h : a ++ '/' :: rest = b ++ '/' :: c) :
    rest = c ∧ a = b ∨ ∃ a', rest = a' ++ '/' :: c ∧ b = a ++ '/' :: a' := by
  rcases List.append_eq_append_iff.mp h with ⟨a', rfl, ha⟩ | ⟨a', rfl, ha⟩
  · cases a' with
    | nil => exact .inl ⟨by simpa using ha, by simp⟩
    | cons x a' =>
      obtain ⟨rfl, rfl⟩ := List.cons.inj ha
      exact .inr ⟨a', rfl, rfl⟩
  · cases a' with
    | nil => exact .inl ⟨by simpa using ha.symm, by simp⟩
    | cons x a' =>
      obtain ⟨-, rfl⟩ := List.cons.inj ha
      exact absurd (by simp) hs

theorem start?_joinPath {from? : Option Path} (hs : IsStep name)
    (h : d.start? from? (joinPath dir name) = some (here, way)) :
    here = [] ∧ way = [] ∨ ∃ w, way = w ++ [name] := by
  cases (start?_eq_some.mp h).2.2 with
  | root => exact .inl ⟨rfl, rfl⟩
  | @below rest hbelow =>
    right
    rcases toList_joinPath dir hs with ⟨-, hx⟩ | ⟨base, hx, -⟩
    · rw [hx] at hbelow
      exact absurd (hbelow ▸ by simp) hs.2
    · rcases append_slash_eq hs.2 (hbelow.symm.trans hx) with ⟨rfl, -⟩ | ⟨base', rfl, -⟩
      · exact ⟨[], by rw [String.ofList_toList, steps_name hs]; rfl⟩
      · exact ⟨_, steps_below hs⟩
  | relative =>
    right
    rcases toList_joinPath dir hs with ⟨-, hx⟩ | ⟨base, hx, -⟩
    · exact ⟨[], by rw [hx, steps_name hs]; rfl⟩
    · exact ⟨_, by rw [← String.ofList_toList (s := joinPath dir name), hx, steps_below hs]⟩

theorem find?_joinPath (hs : IsStep name) (hn : Proper name)
    (hl : ∀ q target, d.item? (q ++ [name]) ≠ some (.link target))
    (h : d.find? (joinPath dir name) = some p) : p = [] ∨ ∃ q, p = q ++ [name] := by
  obtain ⟨-, here, way, hstart, hleads⟩ := resolve_eq_ok.mp (find?_eq_some.mp h)
  rcases start?_joinPath hs hstart with ⟨rfl, rfl⟩ | ⟨w, rfl⟩
  · cases hleads
    exact .inl rfl
  · exact .inr (hleads.concat hn hl)

theorem joinPath_plain (hs : IsStep name) (hne : dir ≠ "") (hplain : isPathText dir = true)
    (hn : isPathText name = true) :
    joinPath dir name ≠ "" ∧ isPathText (joinPath dir name) = true := by
  obtain ⟨base, hx, hbase⟩ := (toList_joinPath dir hs).resolve_left fun h => hne h.1
  refine ⟨fun h => by simp [h] at hx, ?_⟩
  rcases hbase with hbase | hbase <;> simp_all [isPathText]

section

variable {base : List Char} (hx : (joinPath dir name).toList = base ++ '/' :: name.toList)
  (hbase : dir.toList = base ∨ dir.toList = base ++ ['/'])

include hx hbase

theorem below_of_joinPath (hs : IsStep name) {rest : List Char}
    (h : (joinPath dir name).toList = d.root.toList ++ '/' :: rest) :
    dir = d.root ∨ ∃ rest, dir.toList = d.root.toList ++ '/' :: rest := by
  rcases append_slash_eq hs.2 (h.symm.trans hx) with ⟨-, rfl⟩ | ⟨base', -, rfl⟩
  · rcases hbase with hbase | hbase
    · exact .inl (String.toList_inj.mp hbase)
    · exact .inr ⟨[], hbase⟩
  · rcases hbase with hbase | hbase
    · exact .inr ⟨base', hbase⟩
    · exact .inr ⟨base' ++ ['/'], by simp [hbase]⟩

theorem slash_joinPath (hne : dir ≠ "") (hslash : Text.startsWith "/" dir = false) :
    Text.startsWith "/" (joinPath dir name) = false := by
  rw [Bool.eq_false_iff, ne_eq, Text.startsWith_iff] at hslash ⊢
  rw [hx]
  cases base with
  | nil =>
    rcases hbase with hbase | hbase
    · exact absurd (String.toList_inj.mp hbase) hne
    · simp [hbase] at hslash
  | cons c base =>
    rcases hbase with hbase | hbase <;> simp_all

end

theorem start?_joinPath_of_dir {from? : Option Path} (hd : d.Home) (hs : IsStep name)
    (hn : isPathText name = true) (hdir : d.start? from? dir = some (here, way))
    (hroot : joinPath dir name ≠ d.root) :
    ∃ w, d.start? from? (joinPath dir name) = some (here, w ++ [name]) ∧
      (way = w ∨ way = w ++ ["."]) := by
  obtain ⟨hne, hplain, hstarts⟩ := start?_eq_some.mp hdir
  obtain ⟨base, hx, hbase⟩ := (toList_joinPath dir hs).resolve_left fun h => hne h.1
  obtain ⟨hne', hplain'⟩ := joinPath_plain hs hne hplain hn
  have hbelow {base' : List Char} (hb : base = d.root.toList ++ '/' :: base') :
      d.start? from? (joinPath dir name) = some ([], stepsTo base' ++ [name]) := by
    refine start?_eq_some.mpr ⟨hne', hplain', ?_⟩
    rw [← steps_below hs]
    exact .below (by simp [hx, hb])
  have hfirst (hb : d.root.toList = base) :
      d.start? from? (joinPath dir name) = some ([], [] ++ [name]) := by
    have hsteps : steps (String.ofList name.toList) = [] ++ [name] := by
      rw [String.ofList_toList, steps_name hs, List.nil_append]
    exact start?_eq_some.mpr ⟨hne', hplain', hsteps ▸ .below (by rw [hx, hb])⟩
  cases hstarts with
  | root hdir' =>
    subst hdir'
    rcases hbase with hbase | hbase
    · exact ⟨[], hfirst hbase, .inl rfl⟩
    · exact absurd (by rw [hbase, List.getLast?_concat]) hd.root
  | @below rest hdir' =>
    rw [hdir'] at hbase
    rcases hbase with rfl | hbase
    · exact ⟨_, hbelow rfl, steps_dir (.inl rfl)⟩
    · rcases append_slash_eq List.not_mem_nil hbase with ⟨rfl, hb⟩ | ⟨base', rfl, hb⟩
      · exact ⟨[], hfirst hb, .inr rfl⟩
      · exact ⟨_, hbelow hb, steps_dir (.inr rfl)⟩
  | relative hroot' hbelow' hslash hfrom =>
    have hsteps := steps_dir hbase
    rw [String.ofList_toList] at hsteps
    refine ⟨stepsTo base, start?_eq_some.mpr ⟨hne', hplain', ?_⟩, hsteps⟩
    rw [← steps_below hs, ← hx, String.ofList_toList]
    refine .relative hroot (fun rest hrest => ?_) (slash_joinPath hx hbase hne hslash) hfrom
    rcases below_of_joinPath hx hbase hs hrest with hdir | ⟨rest', hdir⟩
    · exact hroot' hdir
    · exact hbelow' rest' hdir

theorem resolve_joinPath (hd : d.Home) (hs : IsStep name) (hn : Proper name)
    (ht : isPathText name = true) (hdir : d.find? dir = some q) (hq : d.item? q = some .dir)
    {content : Content} {time : Time} (hitem : d.item? (q ++ [name]) = some (.file content time))
    (hshort : (joinPath dir name).utf8ByteSize ≤ maxPath) (hroot : joinPath dir name ≠ d.root) :
    d.resolve (joinPath dir name) = .ok (q ++ [name]) := by
  obtain ⟨-, here, way, hstart, hleads⟩ := resolve_eq_ok.mp (find?_eq_some.mp hdir)
  obtain ⟨w, hstart', hway⟩ := start?_joinPath_of_dir hd hs ht hstart hroot
  have hw : d.Leads 40 here w q := by
    rcases hway with rfl | rfl
    · exact hleads
    · exact hleads.of_dot
  exact resolve_eq_ok.mpr ⟨hshort, here, _, hstart', hw.extend hq hn hitem⟩

theorem resolve_root (h : d.resolve d.root = .ok p) : p = [] := by
  obtain ⟨-, here, way, hstart, hleads⟩ := resolve_eq_ok.mp h
  cases (start?_eq_some.mp hstart).2.2 with
  | root =>
    cases hleads
    rfl
  | below hx => exact absurd hx (by simp)
  | relative hx => exact absurd rfl hx

/-- The text of a name in a directory leads to the file of that name, if all files of the name are
in that directory and none is a link. -/
theorem resolve_joinPath_iff (hd : d.Home) (hs : IsStep name) (hn : Proper name)
    (ht : isPathText name = true) (hl : ∀ q target, d.item? (q ++ [name]) ≠ some (.link target))
    (hfile : ∀ q content time, d.item? (q ++ [name]) = some (.file content time) →
      d.find? dir = some q ∧ d.item? q = some .dir) {content : Content} {time : Time} :
    (∃ p, d.resolve (joinPath dir name) = .ok p ∧ d.item? p = some (.file content time)) ↔
      (joinPath dir name).utf8ByteSize ≤ maxPath ∧ joinPath dir name ≠ d.root ∧
        ∃ q, d.item? (q ++ [name]) = some (.file content time) := by
  constructor
  · rintro ⟨p, hp, hitem⟩
    have hne : p ≠ [] := fun he => by simp [he, item?_nil] at hitem
    obtain ⟨q, rfl⟩ := (find?_joinPath hs hn hl (find?_eq_some.mpr hp)).resolve_left hne
    exact ⟨(resolve_eq_ok.mp hp).1, fun hroot => hne (resolve_root (hroot ▸ hp)), q, hitem⟩
  · rintro ⟨hshort, hroot, q, hitem⟩
    obtain ⟨hdir, hq⟩ := hfile q content time hitem
    exact ⟨q ++ [name], resolve_joinPath hd hs hn ht hdir hq hitem hshort hroot, hitem⟩

end Lamina.Disk
