import Lamina.Proofs.Cache.Reports
import Lamina.Proofs.Engine.Transparency

/-! The outcome of a compilation shows in the cache. If it succeeds there is a fresh entry under the
key, or the artifact has more than a directory gives back; if it fails there is none. -/

namespace Lamina

/-- A change to what a cache keeps: what it reports, and the disk it leaves. -/
structure Transfer where
  report : Except CacheFault Unit
  disk : Disk

/-- A compilation that goes on to build: the engine and the disk by then, and the removal of an
entry that was of no use. -/
structure Building where
  engine : Engine
  disk : Disk
  dropped : List Transfer

namespace Engine

/-- The building that a compilation comes to, unless there is an entry it can use. -/
def building? (e : Engine) (d : Disk) (key : String) : Option Building :=
  let (found, cache, registry) := e.cache.load d e.registry key
  match found with
  | none => some ⟨{ e with cache, registry }, d, []⟩
  | some artifact =>
    let (loaded, scripts) := artifact.load e.scripts
    match loaded with
    | .ok () => none
    | .error _ =>
      let (engine, disk) := discard { e with cache, registry, scripts } d key
      some ⟨engine, disk, [⟨(cache.delete d key).1, disk⟩]⟩

end Engine

namespace Building

def chunk (b : Building) (path : String) (context : Context) : Except Failure Chunk :=
  ((b.engine.builder (b.engine.library.loader b.disk)).compile context path).1

/-- All changes to what the cache keeps, in their order. -/
def transfers (b : Building) (key path : String) (context : Context) : List Transfer :=
  match b.chunk path context with
  | .error _ => b.dropped
  | .ok chunk =>
    let (artifact, _) := b.engine.registry.define (Program.assemble key path chunk)
    let (report, cache, disk) := b.engine.cache.write b.disk (.ofArtifact b.disk artifact)
    b.dropped ++ ⟨report, disk⟩ ::
      match (artifact.load b.engine.scripts).1 with
      | .ok () => []
      | .error _ =>
        let (report, _, disk) := cache.delete disk key
        [⟨report, disk⟩]

theorem dropped_subset_transfers (b : Building) (key path : String) (context : Context) :
    b.dropped ⊆ b.transfers key path context := by
  unfold transfers
  split
  · exact List.Subset.refl _
  · exact List.subset_append_left _ _

theorem reports_of_open {b : Building} {dir key path : String} {context : Context}
    {q : Path}
    (hcache : b.engine.cache = .directory dir) (hdropped : b.dropped = [])
    (hopen : Cache.Open dir key q b.disk) (hclear : Cache.Clear dir key b.disk)
    (hmake : b.disk.change? (.makeDir dir) = some b.disk) (hk : IsKey key)
    (hknown : ∀ chunk, (b.engine.registry.define (Program.assemble key path chunk)).1.key = key) :
    ∀ t ∈ b.transfers key path context, t.report = .ok () := by
  unfold Building.transfers
  split
  · rw [hdropped]
    exact List.forall_mem_nil _
  · next chunk _ =>
    rcases hdefine : b.engine.registry.define (Program.assemble key path chunk) with ⟨a, registry⟩
    obtain rfl : a.key = key := by
      have ha := hknown chunk
      rwa [hdefine] at ha
    obtain ⟨d', hchange, hclear', hopen'⟩ := Cache.Open.write
      (e := .ofArtifact b.disk a) hopen hclear hk hmake
    obtain ⟨d'', hremove⟩ := hopen'.removeFiles hclear' hk (List.Subset.refl _)
    simp only [hdropped, hcache, Cache.write_of_changeAll hchange, List.nil_append,
      List.forall_mem_cons, true_and]
    split
    · exact List.forall_mem_nil _
    · have hdelete : (Cache.directory dir).delete d' a.key = (.ok (), .directory dir, d'') :=
        Cache.delete_directory_eq_ok.mpr ⟨rfl, hremove⟩
      simp only [hdelete]
      exact List.forall_mem_singleton.mpr rfl

end Building

namespace Engine

variable {e : Engine} {d : Disk} {key path : String} {context : Context} {b : Building}

theorem compile_of_building (hk : e.fingerprint d path context = .ok key)
    (hb : e.building? d key = some b) :
    e.compile d path context = b.engine.rebuild b.disk key path context := by
  unfold building? at hb
  rcases hload : e.cache.load d e.registry key with ⟨found, cache, registry⟩
  rw [hload] at hb
  cases found with
  | none =>
    cases hb
    exact compile_of_miss hk hload
  | some known =>
    rcases hs : known.load e.scripts with ⟨failure | _, scripts⟩
    · simp only [hs] at hb
      cases hb
      exact compile_of_unloadable hk hload hs rfl
    · simp only [hs] at hb
      cases hb

theorem compile_of_entry (hk : e.fingerprint d path context = .ok key)
    (hb : e.building? d key = none) :
    ∃ a e', e.compile d path context = (.ok a, e', d) ∧ (e'.cache.isFresh d key).1 = true := by
  unfold building? at hb
  rcases hload : e.cache.load d e.registry key with ⟨found, cache, registry⟩
  rw [hload] at hb
  cases found with
  | none => cases hb
  | some known =>
    rcases hs : known.load e.scripts with ⟨failure | _, scripts⟩
    · simp only [hs] at hb
      cases hb
    · refine ⟨known, _, compile_of_hit hk hload hs, ?_⟩
      rcases e.cache.load_cases d e.registry key with ⟨en, hen, hfresh, hcases⟩ | ⟨-, hcases⟩
      · cases hload.symm.trans hcases
        exact Cache.isFresh_iff.mpr ⟨en, Cache.holds_read.mpr hen, hfresh⟩
      · cases hload.symm.trans hcases

structure Begins (e : Engine) (d : Disk) (key : String) (b : Building) : Prop where
  keeps : b.engine.cache.Keeps
  directory? : b.engine.cache.directory? = e.cache.directory?
  clear : ∀ dir, b.engine.cache.directory? = some dir → Cache.Clear dir key b.disk
  stale : (b.engine.cache.isFresh b.disk key).1 = false
  disk : b.disk = d ∨ ∃ t ∈ b.dropped, t.disk = b.disk

theorem begins_of_building? (hc : e.cache.Keeps) (hk : IsKey key)
    (hclear : ∀ dir, e.cache.directory? = some dir → Cache.Clear dir key d)
    (hb : e.building? d key = some b) (hreports : ∀ t ∈ b.dropped, t.report = .ok ()) :
    Begins e d key b := by
  have hkind := e.cache.read_sameKind d key
  have hdirectory := hkind.directory?
  have hkeeps := hkind.keeps.mpr hc
  unfold building? at hb
  rcases e.cache.load_cases d e.registry key with ⟨en, -, -, hload⟩ | ⟨hstale, hload⟩
  · rw [hload] at hb
    rcases hs : ((e.registry.define en.artifact).1.load e.scripts) with ⟨failure | _, scripts⟩
    · rcases hdelete : (e.cache.read d key).2.delete d key with ⟨report, cache, disk⟩
      simp only [hs, discard_eq, hdelete] at hb
      cases hb
      obtain rfl : report = .ok () := hreports _ (List.mem_singleton_self _)
      have hfewer := Cache.delete_fewer hdelete
      have hkind' := (e.cache.read d key).2.delete_sameKind d key
      rw [hdelete] at hkind'
      have hcache := hkind'.directory?.trans hdirectory
      refine ⟨hkind'.keeps.mpr hkeeps, hcache, fun dir hdir => ?_, ?_,
        .inr ⟨_, List.mem_singleton_self _, rfl⟩⟩
      · exact (hclear dir (hcache.symm.trans hdir)).fewer hfewer
      · have hhome (dir : String) (hdir : (e.cache.read d key).2.directory? = some dir) : d.Home :=
          (hclear dir (hdirectory.symm.trans hdir)).home
        exact Cache.not_isFresh_of_delete hhome hk hdelete
    · simp only [hs] at hb
      cases hb
  · rw [hload] at hb
    cases hb
    refine ⟨hkeeps, hdirectory, fun dir hdir => hclear dir (hdirectory.symm.trans hdir), ?_, .inl rfl⟩
    rw [Bool.eq_false_iff, ne_eq, Cache.isFresh_iff]
    rintro ⟨en, hen, hfresh⟩
    rw [hstale en (Cache.holds_read.mp hen)] at hfresh
    cases hfresh

theorem latest?_forget (r : Registry) (key : String) : (r.forget key).latest? key = none := by
  have hfind : (r.newest.filter (·.1 != key)).find? (·.1 == key) = none := by
    rw [List.find?_eq_none]
    intro pair hpair
    simpa using (List.mem_filter.mp hpair).2
  rw [Registry.latest?, Registry.forget, hfind, Option.bind_none]

theorem ofArtifact_congr {d d' : Disk} {a : Artifact}
    (h : ∀ file ∈ a.dependencies, d'.stamp? file = d.stamp? file) :
    Entry.ofArtifact d' a = Entry.ofArtifact d a := by
  have hdeps : a.dependencies.map (Dependency.current d') = a.dependencies.map (.current d) :=
    List.map_congr_left fun file hf => by rw [Dependency.current, Dependency.current, h file hf]
  rw [Entry.ofArtifact, Entry.ofArtifact, hdeps]

theorem isFresh_ofArtifact {d d' : Disk} {a : Artifact}
    (h : ∀ file ∈ a.dependencies, d'.stamp? file = d.stamp? file) :
    (Entry.ofArtifact d a).isFresh d' = true := by
  refine List.all_eq_true.mpr fun dep hdep => ?_
  obtain ⟨file, hf, rfl⟩ := List.mem_map.mp hdep
  exact beq_iff_eq.mpr (h file hf)

section

variable (hbegins : Begins e d key b) (hk : IsKey key)
  (hreports : ∀ t ∈ b.transfers key path context, t.report = .ok ())

include hbegins hk hreports

/-- After a failure there is no fresh entry, and none is the latest if it was the script that failed
to load. -/
theorem rebuild_of_failure {failure : Failure} {e' : Engine} {d' : Disk}
    (h : b.engine.rebuild b.disk key path context = (.error failure, e', d')) :
    (e'.cache.isFresh d' key).1 = false ∧
      ∀ chunk, b.chunk path context = .ok chunk → e'.registry.latest? key = none := by
  have hrebuilt := b.engine.rebuilt b.disk key path context
  generalize b.engine.rebuild b.disk key path context = out at h hrebuilt
  cases hrebuilt with
  | error reads hc =>
    cases h
    refine ⟨hbegins.stale, fun chunk hchunk => ?_⟩
    cases hc.symm.trans hchunk
  | @defined chunk known registry written cache disk loaded _ reads hc hdefine hwrite hload =>
    cases loaded with | ok => cases h | error => ?_
    rcases hdelete : cache.delete disk key with ⟨report', cache', disk'⟩
    rw [settle, discard_eq, hdelete] at h
    cases h
    have hc : b.chunk path context = .ok chunk := hc
    simp only [Building.transfers, hc, hdefine, hwrite, hload, hdelete, List.forall_mem_append,
      List.forall_mem_cons] at hreports
    obtain ⟨-, rfl, rfl, -⟩ := hreports
    refine ⟨?_, fun _ _ => latest?_forget _ _⟩
    -- the entry was written before its script was loaded, and is taken out again
    have hcache := (b.engine.cache.write_sameKind b.disk (.ofArtifact b.disk known)).directory?
    rw [hwrite] at hcache
    have hhome (dir : String) (hdir : cache.directory? = some dir) : disk.Home :=
      (Cache.write_keepsDirs hwrite).home (hbegins.clear dir (hcache.symm.trans hdir)).home
    exact Cache.not_isFresh_of_delete hhome hk hdelete

/-- After a success under the key of the template there is a fresh entry just if the artifact is
given back. -/
theorem rebuild_of_success {a : Artifact} {e' : Engine} {d' : Disk}
    (h : b.engine.rebuild b.disk key path context = (.ok a, e', d')) (ha : a.key = key)
    (hstamps : ∀ t ∈ b.transfers key path context, ∀ file ∈ a.dependencies,
      t.disk.stamp? file = d.stamp? file) :
    (e'.cache.isFresh d' key).1 = true ↔
      (e.cache.directory?.isSome = true → (Entry.ofArtifact d a).Fits) := by
  have hrebuilt := b.engine.rebuilt b.disk key path context
  generalize b.engine.rebuild b.disk key path context = out at h hrebuilt
  cases hrebuilt with
  | error => cases h
  | @defined chunk _ _ _ _ _ loaded _ reads hc hdefine hwrite hload => ?_
  cases loaded with | error => cases h | ok => ?_
  cases h
  have hc : b.chunk path context = .ok chunk := hc
  subst ha
  simp only [Building.transfers, hc, hdefine, hwrite, hload, List.forall_mem_append,
    List.forall_mem_cons] at hreports hstamps
  obtain ⟨-, rfl, -⟩ := hreports
  obtain ⟨hdropped, hwritten, -⟩ := hstamps
  -- an entry that was dropped before the build has not touched what the new one is stamped with
  have hbefore : ∀ file ∈ a.dependencies, b.disk.stamp? file = d.stamp? file := by
    rcases hbegins.disk with hdisk | ⟨t, ht, hdisk⟩
    · exact fun _ _ => hdisk ▸ rfl
    · exact fun file hf => hdisk ▸ hdropped t ht file hf
  rw [ofArtifact_congr hbefore] at hwrite
  have hentry := Cache.isFresh_of_write hbegins.keeps hk hbegins.clear hwrite
  rw [isFresh_ofArtifact hwritten, hbegins.directory?] at hentry
  exact hentry.trans ⟨fun h => h.2, fun h => ⟨rfl, h⟩⟩

end

theorem stable_keeps : Stable fun e _ => e.cache.Keeps where
  frame h _ _ _ := h
  read h key := (Cache.read_sameKind _ _ key).keeps.mpr h
  write h en := (Cache.write_sameKind _ _ en).keeps.mpr h
  delete h key := (Cache.delete_sameKind _ _ key).keeps.mpr h

end Engine

theorem World.run_cache_keeps (w : World) (hw : w.engine.cache.Keeps) (ops : List Operation) :
    (w.run ops).engine.cache.Keeps := by
  induction ops generalizing w with
  | nil => exact hw
  | cons op ops ih =>
    refine ih (w.step op) ?_
    cases op with
    | compile path context => exact Engine.stable_keeps.compile (d := w.disk) hw path context
    | edit library disk => exact hw
    | reset path context => exact Engine.stable_keeps.reset (d := w.disk) hw path context

/-- However an engine with a cache came to where it is, the outcome of a compilation shows in the
cache. An entry that could be used is fresh. Where the template was built and its artifact has its
key, the entry is fresh just if a directory gives it back. After a failure there is no fresh entry
under the key, and no latest artifact either if it was the script that failed to load. -/
theorem outcome_shows_in_cache (w : World) (capacity : Nat) (folder : String)
    (hw : w.engine.cache = .ofCapacity capacity ∨ w.engine.cache = .directory folder)
    (ops : List Operation) (path : String) (context : Context) (key : String)
    (hkey : (w.run ops).engine.fingerprint (w.run ops).disk path context = .ok key)
    (hclear : ∀ dir, (w.run ops).engine.cache.directory? = some dir →
      Cache.Clear dir key (w.run ops).disk)
    (hreports : ∀ b, (w.run ops).engine.building? (w.run ops).disk key = some b →
      ∀ t ∈ b.transfers key path context, t.report = .ok ()) :
    let before := w.run ops
    let after := before.step (.compile path context)
    let answer := (before.engine.compile before.disk path context).1
    (∀ a, answer = .ok a →
      (before.engine.building? before.disk key = none →
        (after.engine.cache.isFresh after.disk key).1 = true) ∧
      ∀ b, before.engine.building? before.disk key = some b → a.key = key →
        (∀ t ∈ b.transfers key path context, ∀ file ∈ a.dependencies,
          t.disk.stamp? file = before.disk.stamp? file) →
        ((after.engine.cache.isFresh after.disk key).1 = true ↔
          (before.engine.cache.directory?.isSome = true → (Entry.ofArtifact before.disk a).Fits))) ∧
    ∀ failure, answer = .error failure →
      (after.engine.cache.isFresh after.disk key).1 = false ∧
      ∀ b chunk, before.engine.building? before.disk key = some b →
        b.chunk path context = .ok chunk → after.engine.registry.latest? key = none := by
  have hkeeps : (w.run ops).engine.cache.Keeps := by
    refine w.run_cache_keeps ?_ ops
    rcases hw with hw | hw
    · rw [hw]
      exact Nat.lt_of_lt_of_le Nat.zero_lt_one (Nat.le_max_right capacity 1)
    · rw [hw]
      exact trivial
  generalize w.run ops = before at hkey hclear hreports hkeeps ⊢
  have hk : IsKey key := by
    obtain ⟨view, -, rfl⟩ := Request.fingerprint_eq_ok (r := ⟨before, path, context⟩).mp hkey
    exact ⟨_, _, _, rfl⟩
  rcases hcompile : before.engine.compile before.disk path context with ⟨answer, e', d'⟩
  have hstep : before.step (.compile path context) = ⟨e', d'⟩ := by
    simp only [World.step, hcompile]
  have hbegins (b : Building) (hb : before.engine.building? before.disk key = some b) :
      before.engine.Begins before.disk key b :=
    Engine.begins_of_building? hkeeps hk hclear hb fun t ht =>
      hreports b hb t (b.dropped_subset_transfers key path context ht)
  dsimp only
  rw [hstep, hcompile]
  refine ⟨?_, ?_⟩
  · rintro a rfl
    refine ⟨fun hb => ?_, fun b hb ha hstamps => ?_⟩
    · obtain ⟨_, _, hentry, hfresh⟩ := Engine.compile_of_entry hkey hb
      cases hcompile.symm.trans hentry
      exact hfresh
    · rw [Engine.compile_of_building hkey hb] at hcompile
      exact Engine.rebuild_of_success (hbegins b hb) hk (hreports b hb) hcompile ha hstamps
  · rintro failure rfl
    cases hb : before.engine.building? before.disk key with
    | none =>
      obtain ⟨_, _, hentry, -⟩ := Engine.compile_of_entry hkey hb
      cases hcompile.symm.trans hentry
    | some b =>
      rw [Engine.compile_of_building hkey hb] at hcompile
      obtain ⟨hstale, hlatest⟩ :=
        Engine.rebuild_of_failure (hbegins b hb) hk (hreports b hb) hcompile
      refine ⟨hstale, fun b' chunk hb' hc => hlatest chunk ?_⟩
      cases hb'
      exact hc

namespace Engine

open Disk
open Program (letterKey)
open Request (letterChunk)

/-- The artifact of the page if the letter has the given origin. -/
def letterOn (o : Origin) : Artifact := Program.assemble letterKey "page" (letterChunk o)

section

variable {page part key name : String} {t u : Nat}

theorem desk_item?_eq_none (hn : Cache.IsEntryName name) (q : Path) :
    (desk page t part u).item? (q ++ [name]) = none := by
  have hlength := hn.length
  cases hitem : (desk page t part u).item? (q ++ [name]) with
  | none => rfl
  | some item =>
    rw [item?, if_neg (by simp)] at hitem
    have hmem := List.mem_map_of_mem (f := Prod.fst)
      (Table.mem_of_mem_ofPairs (Table.mem_of_get? hitem))
    have hshort : ∀ p ∈ [["page.stm"], ["part.stm"]], ∀ n ∈ p, n.toList.length = 8 := by decide
    rw [hshort (q ++ [name]) hmem name (by simp)] at hlength
    omega

theorem desk_reachable (hn : Cache.IsEntryName name) :
    Cache.Reachable "/desk" name (desk page t part u) := by
  have hne : "/desk" ≠ "" := by decide
  obtain ⟨base, hx, hbase⟩ := (toList_joinPath "/desk" hn.isStep).resolve_left fun h => hne h.1
  have hlast : "/desk".toList.getLast? ≠ some '/' := by decide
  obtain rfl : "/desk".toList = base :=
    hbase.resolve_right fun h => hlast (by rw [h, List.getLast?_concat])
  have hjoin : joinPath "/desk" name = "/desk/" ++ name := by
    rw [← String.toList_inj, hx, String.toList_append]
    rfl
  have hshort := hn.proper.short
  rw [Cache.Reachable, hjoin]
  refine ⟨?_, fun hroot => ?_⟩
  · have hsize : "/desk/".utf8ByteSize = 6 := by decide
    rw [String.utf8ByteSize_append, hsize]
    simp only [maxName, maxPath] at hshort ⊢
    omega
  · have hlength := congrArg (·.toList.length) hroot
    simp [desk, Disk.empty] at hlength

theorem desk_clear (hk : IsKey key) : Cache.Clear "/desk" key (desk page t part u) := by
  have hnames := Cache.isEntryName_of_mem hk
  refine ⟨desk_home page t part u, fun name hn => desk_reachable (hnames name hn),
    fun name hn q target hlink => ?_⟩
  cases (desk_item?_eq_none (hnames name hn) q).symm.trans hlink

theorem desk_open (hk : IsKey key) : Cache.Open "/desk" key [] (desk page t part u) := by
  refine ⟨rfl, rfl, fun name hn item hitem => ?_⟩
  cases (desk_item?_eq_none (Cache.isEntryName_of_mem hk name hn) []).symm.trans hitem

theorem desk_not_holds (hk : IsKey key) (en : Entry) :
    ¬ Cache.Holds (.directory "/desk") (desk page t part u) key en := by
  intro hen
  obtain ⟨metadata, source, hread, -⟩ :=
    Cache.readDirectory_eq_some.mp (Cache.holds_directory.mp hen)
  obtain ⟨p, time, hp, -⟩ := readFile_eq_ok.mp hread
  have hn := Cache.isEntryName_metadata hk
  exact not_resolve_joinPath (desk_home page t part u) hn.isStep hn.proper (.refl _)
    (desk_open hk).found (desk_item?_eq_none hn []) (desk_reachable hn).2 hp

section

variable {e : Engine} (hcache : e.cache = .directory "/desk")

include hcache

/-- An engine that keeps its entries on the desk comes to build, and if it has built nothing yet
then all that it does to its files succeeds. -/
theorem desk_building (hk : IsKey key) :
    e.building? (desk page t part u) key = some ⟨e, desk page t part u, []⟩ := by
  have hload : e.cache.load (desk page t part u) e.registry key = (none, e.cache, e.registry) := by
    rcases e.cache.load_cases (desk page t part u) e.registry key with ⟨en, hen, -⟩ | ⟨-, h⟩
    · exact absurd (hcache ▸ hen) (desk_not_holds hk en)
    · rw [h, hcache]
      rfl
  simp only [building?, hload]

variable (hregistry : e.registry = .empty)

include hregistry

theorem desk_reports (page part : String) (t u : Nat) (hk : IsKey key) (path : String)
    (context : Context) :
    ∀ r ∈ Building.transfers ⟨e, desk page t part u, []⟩ key path context, r.report = .ok () := by
  refine Building.reports_of_open hcache rfl (desk_open hk) (desk_clear hk) rfl hk fun chunk => ?_
  rw [hregistry]
  rfl

/-- A page that is a letter is built, and its entry is written. -/
theorem desk_built (hscripts : e.scripts = .empty {}) {builder : Loader → Builder}
    (huses : e.Uses builder deskViews) (hloader : ∀ l, (builder l).loader = l) {o : Origin}
    (hc : ((builder (deskViews.loader (desk page t part u))).compile .empty "page").1 =
      .ok (letterChunk o)) :
    e.fingerprint (desk page t part u) "page" .empty = .ok letterKey ∧
      ∃ e' d', e.compile (desk page t part u) "page" .empty = (.ok (letterOn o), e', d') ∧
      e'.cache = .directory "/desk" ∧ (Cache.directory "/desk").write (desk page t part u)
        (.ofArtifact (desk page t part u) (letterOn o)) = (.ok (), .directory "/desk", d') := by
  have hk : IsKey letterKey := ⟨_, _, _, rfl⟩
  obtain ⟨d', hchange, -⟩ := (desk_open hk).write
    (e := .ofArtifact (desk page t part u) (letterOn o)) (desk_clear hk) hk rfl
  have hwrite := Cache.write_of_changeAll hchange
  obtain ⟨newest, hdefine⟩ := Registry.define_of_new (r := e.registry) (a := letterOn o)
    (hregistry ▸ rfl)
  have hc' : ((e.builder (e.library.loader (desk page t part u))).compile .empty "page").1 =
      .ok (letterChunk o) := by
    rw [huses.1, huses.2]
    exact hc
  obtain ⟨reads, hrebuild⟩ := rebuild_of_load hc' hdefine (hcache ▸ hwrite)
    (Prod.ext (hscripts ▸ Artifact.load_letter rfl rfl) rfl)
  have hkey := desk_fingerprint huses hloader hc'
  have hcompile := compile_of_building hkey (desk_building hcache hk)
  exact ⟨hkey, _, d', hcompile.trans hrebuild, hcache, hwrite⟩

end

end

set_option maxRecDepth 100000 in
/-- The page is compiled after it was written anew, with the cache beside it. -/
theorem outcome_shows_in_cache_desk : ∃ e : Engine, e.cache = .directory "/desk" ∧
    let w : World := ⟨e, desk "y" 1 "y" 1⟩
    let ops : List Operation := [.edit (.directories deskViews) (desk "x" 2 "x" 2)]
    let after := (w.run ops).step (.compile "page" .empty)
    (w.run ops).engine.fingerprint (w.run ops).disk "page" .empty = .ok letterKey ∧
    Cache.Clear "/desk" letterKey (w.run ops).disk ∧
    ∃ b a, (w.run ops).engine.building? (w.run ops).disk letterKey = some b ∧
      (∀ t ∈ b.transfers letterKey "page" .empty, t.report = .ok ()) ∧
      ((w.run ops).engine.compile (w.run ops).disk "page" .empty).1 = .ok a ∧
      ((∀ t ∈ b.transfers letterKey "page" .empty, ∀ file ∈ a.dependencies,
          t.disk.stamp? file = (w.run ops).disk.stamp? file) →
        (after.engine.cache.isFresh after.disk letterKey).1 = true) := by
  obtain ⟨e, huses, hcache, hregistry, hscripts⟩ : ∃ e : Engine,
      e.Uses Builder.default deskViews ∧ e.cache = .directory "/desk" ∧ e.registry = .empty ∧
        e.scripts = .empty {} :=
    ⟨{ deskEngine with cache := .directory "/desk" }, ⟨rfl, rfl⟩, rfl, rfl, rfl⟩
  refine ⟨e, hcache, ?_⟩
  intro w ops
  have hrun : w.run ops = ⟨e, desk "x" 2 "x" 2⟩ := by
    change World.mk { e with library := .directories deskViews } _ = _
    rw [← huses.2]
  have hshows := outcome_shows_in_cache w 1 "/desk" (.inr hcache) ops "page" .empty letterKey
  rw [hrun] at hshows ⊢
  have hk : IsKey letterKey := ⟨_, _, _, rfl⟩
  have hchunk : ((Builder.default (deskViews.loader (desk "x" 2 "x" 2))).compile .empty "page").1 =
      .ok (letterChunk (.of "/desk/page.stm" 1 .html "raw")) :=
    eq_ok_of_toOption (by decide +kernel)
  obtain ⟨hkey, e', d', hcompile, -⟩ :=
    desk_built hcache hregistry hscripts huses (fun _ => rfl) hchunk
  have hb : e.building? (desk "x" 2 "x" 2) letterKey = some ⟨e, desk "x" 2 "x" 2, []⟩ :=
    desk_building hcache hk
  have hreports := desk_reports hcache hregistry "x" "x" 2 2 hk "page" .empty
  have hclear : Cache.Clear "/desk" letterKey (desk "x" 2 "x" 2) := desk_clear hk
  have hdirectory : e.cache.directory? = some "/desk" := hcache ▸ rfl
  obtain ⟨hsuccess, -⟩ := hshows hkey
    (fun dir hdir => Option.some.inj (hdirectory.symm.trans hdir) ▸ hclear)
    fun b hb' => Option.some.inj (hb.symm.trans hb') ▸ hreports
  have ha := congrArg Prod.fst hcompile
  refine ⟨hkey, hclear, _, _, hb, hreports, ha, fun hstamps => ?_⟩
  refine ((hsuccess _ ha).2 _ hb rfl hstamps).mpr fun _ => ⟨?_, ?_, ?_⟩
  · exact List.forall_mem_singleton.mpr (by decide)
  · exact List.forall_mem_singleton.mpr (by decide)
  · have hstamp : (desk "x" 2 "x" 2).stamp? "/desk/page.stm" = some ⟨2, 0⟩ := by decide +kernel
    intro dependency hmem stamp hs
    obtain ⟨file, hfile, rfl⟩ := List.mem_map.mp hmem
    obtain rfl : file = "/desk/page.stm" := List.mem_singleton.mp hfile
    simp only [Dependency.current, hstamp, Option.mem_some] at hs
    subst hs
    decide

/-- A reference with as many sites as are read back. -/
def farReference : Origin :=
  ⟨⟨"/desk", 1, .html, ""⟩, .replicate (Entry.maxSites - 1) ⟨"/desk", 1, .html, ""⟩⟩

/-- A pass by which all of a page comes by that reference. -/
def referring : Pass := fun _ => .onLeave fun scopes n =>
  pure (.keep (if scopes.isEmpty then n.attach farReference else n))

def referringExtensions : Extensions :=
  { finalize := [referring], cache? := some (.directory "/desk") }

def referringBuilder (l : Loader) : Builder :=
  { Builder.default l with finalize := (Builder.default l).finalize ++ [referring] }

set_option maxRecDepth 100000 in
/-- The page is compiled with the pass. Its entry is written, but one site is too many. -/
theorem deep_entry_is_lost : ∃ e a,
    Settings.engine {} (.directories deskViews) referringExtensions = .ok e ∧
    let w : World := ⟨e, desk "x" 1 "x" 1⟩
    let after := w.step (.compile "page" .empty)
    e.fingerprint w.disk "page" .empty = .ok letterKey ∧
      (e.compile w.disk "page" .empty).1 = .ok a ∧ a.key = letterKey ∧
      (after.engine.cache.isFresh after.disk letterKey).1 = false := by
  obtain ⟨e, hengine, huses, hcache, hregistry, hscripts⟩ : ∃ e : Engine,
      Settings.engine {} (.directories deskViews) referringExtensions = .ok e ∧
      e.Uses referringBuilder deskViews ∧ e.cache = .directory "/desk" ∧ e.registry = .empty ∧
        e.scripts = .empty {} :=
    ⟨_, rfl, ⟨rfl, rfl⟩, rfl, rfl, rfl⟩
  have hk : IsKey letterKey := ⟨_, _, _, rfl⟩
  have hchunk : ((referringBuilder (deskViews.loader (desk "x" 1 "x" 1))).compile .empty "page").1 =
      .ok (letterChunk ((Origin.of "/desk/page.stm" 1 .html "raw").attach farReference)) :=
    eq_ok_of_toOption (by decide +kernel)
  obtain ⟨hkey, e', d', hcompile, hcache', hwrite⟩ :=
    desk_built hcache hregistry hscripts huses (fun _ => rfl) hchunk
  have hfresh := Cache.isFresh_of_write (c := .directory "/desk") trivial hk
    (fun dir hdir => Option.some.inj hdir ▸ desk_clear hk) hwrite
  refine ⟨e, _, hengine, hkey, congrArg Prod.fst hcompile, rfl, ?_⟩
  simp only [World.step, hcompile, hcache']
  rw [Bool.eq_false_iff]
  intro h
  have hchain := ((hfresh.mp h).2 rfl).chains _ List.mem_cons_self
  exact absurd hchain (by decide)

end Engine

end Lamina
