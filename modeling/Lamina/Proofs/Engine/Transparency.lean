import Lamina.Proofs.Engine.Kept

/-! Caches do not show. Whatever an engine keeps, a request is answered with the source that the
templates give at that moment, as long as builds under one identifier do not come to depend on more
files than the first of them. -/

namespace Lamina

namespace Engine

theorem stable_of_directory? (d : Disk) :
    Stable fun e d' => d' = d ∧ e.cache.directory? = none where
  frame h _ _ _ := h
  read h key := ⟨h.1, (Cache.read_sameKind _ _ key).directory?.trans h.2⟩
  write := by
    rintro e _ ⟨rfl, h⟩ en
    obtain ⟨cache, hwrite, hcache⟩ := Cache.write_of_directory? h _ en
    rw [hwrite]
    exact ⟨rfl, hcache⟩
  delete := by
    rintro e _ ⟨rfl, h⟩ key
    obtain ⟨cache, hdelete, hcache⟩ := Cache.delete_of_directory? h _ key
    rw [hdelete]
    exact ⟨rfl, hcache⟩

end Engine

namespace World

/-- Edits come and go with files. The templates stay in their directories, and directories, links
and the files of the cache stay as they are. -/
def Allows (w : World) : Operation → Prop
  | .edit library disk => library = w.engine.library ∧ w.disk.Later disk ∧
      ∀ p, w.engine.cache.Owns p → disk.item? p = w.disk.item? p
  | .compile .. | .reset .. => True

def AllowsAll (w : World) : List Operation → Prop
  | [] => True
  | op :: ops => w.Allows op ∧ (w.step op).AllowsAll ops

variable {w : World} {builder : Loader → Builder} {t : Directories} {past : List Request}

theorem step_kept (hbuilder : Builder.Uniform builder)
    (h : Engine.Kept builder t past w.engine w.disk) {op : Operation} (hop : w.Allows op)
    (ho : Request.Orderly (past ++ w.requests [op]))
    (hf : Request.NoNewFiles (past ++ w.requests [op])) :
    Engine.Kept builder t (past ++ w.requests [op]) (w.step op).engine (w.step op).disk := by
  cases op with
  | compile path context =>
    refine h.advance ?_ (Engine.compile_answers hbuilder h ho hf).1
    exact List.forall_mem_singleton.mpr ⟨rfl, rfl⟩
  | reset path context =>
    refine h.advance (List.forall_mem_nil _) ?_
    simp only [step, Engine.reset]
    cases hk : w.engine.fingerprint w.disk path context with
    | error failure => exact .refl h.neat _
    | ok key =>
      obtain ⟨view, -, hkeyOf⟩ := (Request.fingerprint_eq_ok (r := ⟨w, path, context⟩)).mp hk
      exact Engine.advances_discard h.neat ⟨_, _, _, hkeyOf⟩ _
  | edit library disk =>
    obtain ⟨hlibrary, hlater, hown⟩ := hop
    obtain ⟨hneat, hholds⟩ := h.neat.later hlater hown
    refine h.advance (List.forall_mem_nil _) ⟨⟨rfl, hlibrary⟩, hneat, hlater, fun _ _ => .inl,
      fun _ => id, fun key en hk hen => .inl ((hholds key en hk).mp hen)⟩

theorem run_kept (hbuilder : Builder.Uniform builder)
    (h : Engine.Kept builder t past w.engine w.disk) {ops : List Operation} (hops : w.AllowsAll ops)
    (ho : Request.Orderly (past ++ w.requests ops))
    (hf : Request.NoNewFiles (past ++ w.requests ops)) :
    Engine.Kept builder t (past ++ w.requests ops) (w.run ops).engine (w.run ops).disk := by
  induction ops generalizing w past with
  | nil => exact (List.append_nil past).symm ▸ h
  | cons op ops ih =>
    rw [requests_cons, ← List.append_assoc] at ho hf ⊢
    exact ih (step_kept hbuilder h hops.1 ho.earlier hf.earlier) hops.2 ho hf

theorem requests_append (w : World) (ops ops' : List Operation) :
    w.requests (ops ++ ops') = w.requests ops ++ (w.run ops).requests ops' := by
  induction ops generalizing w with
  | nil => rfl
  | cons op ops ih =>
    rw [List.cons_append, requests_cons, requests_cons w op ops, ih, List.append_assoc]
    rfl

end World

/-- The engine has no passes but those of the library. -/
def Extensions.Plain (x : Extensions) : Prop := x.prepare = [] ∧ x.transform = [] ∧ x.finalize = []

theorem Settings.uniform {s : Settings} {x : Extensions} {builder : Loader → Builder}
    (h : s.builder x = .ok builder) (hx : x.Plain) : Builder.Uniform builder := by
  obtain ⟨-, -, h⟩ := bind_eq_ok.mp h
  obtain ⟨directives, -, h⟩ := bind_eq_ok.mp h
  obtain ⟨processors, -, h⟩ := bind_eq_ok.mp h
  obtain ⟨hprepare, htransform, hfinalize⟩ := hx
  cases h
  refine ⟨fun l => ?_, fun l => rfl, fun l l' => rfl⟩
  have hregular := Builder.standard_regular l ⟨x.providers ++ directives.providers⟩
    (x.preserve?.getD (Pass.preserveIn s.preserveTags)) s.strictBlocks
  refine ⟨?_, ?_, ?_⟩
  · simpa only [hprepare, List.append_nil] using hregular.prepare
  · simpa only [htransform, List.append_nil] using hregular.transform
  · simpa only [hfinalize, List.append_nil] using hregular.finalize

namespace Engine

theorem kept_of_engine {s : Settings} {x : Extensions} {t : Directories} {e : Engine} {d : Disk}
    (he : s.engine (.directories t) x = .ok e) (hx : x.Plain) (hneat : e.cache.Neat d)
    (hempty : ∀ key en, IsKey key → ¬ e.cache.Holds d key en) :
    Builder.Uniform e.builder ∧ Kept e.builder t [] e d := by
  obtain ⟨builder, hb, rfl⟩ := map_eq_ok.mp he
  refine ⟨Settings.uniform hb hx, ⟨rfl, rfl⟩, hneat, List.forall_mem_nil _, fun id a hget => ?_,
    fun key en hk hen => absurd hen (hempty key en hk)⟩
  cases hget

/-- Caches do not show. Over templates in directories, an engine with any cache answers a request
with the source that the templates give at that moment, and it fails where they cannot be built or
their script does not load, whatever was compiled, reset and edited before. This takes that no build
under an identifier depends on a file that an earlier build under it did not depend on. -/
theorem cache_is_transparent (s : Settings) (x : Extensions) (t : Directories) (e : Engine)
    (d : Disk) (ops : List Operation) (path : String) (context : Context)
    (he : s.engine (.directories t) x = .ok e) (hx : x.Plain) (hneat : e.cache.Neat d)
    (hempty : ∀ key en, IsKey key → ¬ e.cache.Holds d key en)
    (hops : World.AllowsAll ⟨e, d⟩ ops)
    (ho : Request.Orderly (World.requests ⟨e, d⟩ (ops ++ [.compile path context])))
    (hf : Request.NoNewFiles (World.requests ⟨e, d⟩ (ops ++ [.compile path context]))) :
    let r := World.request ⟨e, d⟩ ops path context
    (∀ answer, r.answer = .ok answer → ∃ built, r.fresh = .ok built ∧
      answer.source = built.source) ∧
    ((∃ answer, r.answer = .ok answer) ↔ ∃ built, r.fresh = .ok built ∧
      (built.load r.world.engine.scripts).1 = .ok ()) := by
  rw [World.requests_append] at ho hf
  obtain ⟨hbuilder, hkept⟩ := kept_of_engine he hx hneat hempty
  have hrun := World.run_kept hbuilder hkept hops ho.earlier hf.earlier
  have hanswers := (compile_answers hbuilder hrun ho hf).2
  intro r
  change Answers r r.world.engine.scripts r.answer at hanswers
  rcases hanswers with ⟨a, built, ha, hb, hsource, hload⟩ | ⟨⟨failure, ha⟩, hload⟩
  · refine ⟨fun answer h => ⟨built, hb, ?_⟩, fun _ => ⟨built, hb, hload⟩, fun _ => ⟨a, ha⟩⟩
    rw [Except.ok.inj (h.symm.trans ha), hsource]
  · refine ⟨fun answer h => ?_, fun ⟨answer, h⟩ => ?_, fun ⟨built, hb, hok⟩ => ?_⟩
    · cases ha.symm.trans h
    · cases ha.symm.trans h
    · exact absurd hok (hload built hb)

theorem step_of_directory? {w : World} (h : w.engine.cache.directory? = none) (path : String)
    (context : Context) : w.engine.SameTemplates (w.step (.compile path context)).engine ∧
      (w.step (.compile path context)).disk = w.disk ∧
      (w.step (.compile path context)).engine.cache.directory? = none :=
  ⟨w.engine.compile_sameTemplates w.disk path context,
    (Engine.stable_of_directory? w.disk).compile ⟨rfl, h⟩ path context⟩

/-- A page beside a part, and when they were written. -/
def desk (page : String) (pageTime : Nat) (part : String) (partTime : Nat) : Disk :=
  { Disk.empty "/desk" with
    items := .ofPairs [(["page.stm"], .file (.text page) ⟨pageTime, 0⟩),
      (["part.stm"], .file (.text part) ⟨partTime, 0⟩)] }

def deskViews : Directories := ⟨.single "default" "/desk", "stm"⟩

def deskEngine : Engine :=
  ⟨Builder.default, .directories deskViews, .empty [], .ofCapacity defaultCapacity, .empty, []⟩

theorem deskEngine_eq : Settings.engine {} (.directories deskViews) {} = .ok deskEngine := rfl

theorem desk_home (page : String) (pageTime : Nat) (part : String) (partTime : Nat) :
    (desk page pageTime part partTime).Home := by
  have hroot : "/desk".toList.getLast? ≠ some '/' := by decide
  refine ⟨fun here h => ?_, hroot⟩
  cases h

theorem desk_later (page page' part part' : String) (t t' u u' : Nat) :
    (desk page t part u).Later (desk page' t' part' u') := by
  have hitem (page part : String) (t u : Nat) (p : Path) (item : Item)
      (h : (desk page t part u).item? p = some item) :
      p = [] ∧ item = .dir ∨ ∃ content time, item = .file content time := by
    cases p with
    | nil => exact .inl ⟨rfl, (Option.some.inj h).symm⟩
    | cons name rest =>
      refine .inr ?_
      have hmem := Table.mem_of_mem_ofPairs (Table.mem_of_get? h)
      simp only [List.mem_cons, Prod.mk.injEq, List.not_mem_nil, or_false] at hmem
      rcases hmem with ⟨-, rfl⟩ | ⟨-, rfl⟩ <;> exact ⟨_, _, rfl⟩
  refine ⟨rfl, rfl, fun p hp => ?_, fun p target => ⟨fun hp => ?_, fun hp => ?_⟩⟩
  · rcases hitem page part t u p _ hp with ⟨rfl, -⟩ | ⟨content, time, h⟩
    · rfl
    · cases h
  · rcases hitem page' part' t' u' p _ hp with ⟨-, h⟩ | ⟨content, time, h⟩ <;> cases h
  · rcases hitem page part t u p _ hp with ⟨-, h⟩ | ⟨content, time, h⟩ <;> cases h

structure OnDesk (r : Request) (d : Disk) : Prop where
  uses : r.world.engine.Uses Builder.default deskViews
  cache : r.world.engine.cache.directory? = none
  disk : r.world.disk = d
  path : r.path = "page"
  context : r.context = .empty

def deskChunk (d : Disk) : Option (String × List String) :=
  ((Builder.default (deskViews.loader d)).compile .empty "page").1.toOption.map fun chunk =>
    (chunk.content, chunk.paths)

theorem OnDesk.fresh {r : Request} {d : Disk} (h : OnDesk r d) {content : String}
    {paths : List String} (hd : deskChunk d = some (content, paths)) {built : Artifact}
    (hb : r.fresh = .ok built) : built.source = (Program.joinLines Program.preamble ++ content ++
      Program.joinLines Program.epilogue) ∧ built.dependencies = paths := by
  obtain ⟨view, chunk, -, hc, rfl⟩ := Request.fresh_iff.mp hb
  rw [h.uses.chunk, h.disk, h.path, h.context] at hc
  rw [deskChunk, hc] at hd
  cases hd
  exact ⟨rfl, rfl⟩

theorem OnDesk.reference {r : Request} {d : Disk} (h : OnDesk r d) {view : View}
    (hv : r.Finds view) : view.reference = Reference.parse "page" "stm" := by
  rw [h.uses.finds, h.path] at hv
  obtain ⟨f, rfl⟩ := Directories.found_of_locate hv
  exact f.spelled

theorem desk_orderly {r r' : Request} {d d' : Disk} (h : OnDesk r d) (h' : OnDesk r' d')
    {content : String} {paths paths' : List String} (hd : deskChunk d = some (content, paths))
    (hd' : deskChunk d' = some (content, paths'))
    (hstamp : ∀ file ∈ paths, d'.stamp? file ≠ d.stamp? file) : Request.Orderly [r, r'] := by
  have hall : ∀ x ∈ [r, r'], ∃ d paths, OnDesk x d ∧ deskChunk d = some (content, paths) := by
    simp only [List.forall_mem_cons]
    exact ⟨⟨d, paths, h, hd⟩, ⟨d', paths', h', hd'⟩, List.forall_mem_nil _⟩
  refine ⟨fun x hx en _ => ?_, List.pairwise_pair.mpr fun built hb file hfile he => ?_,
    fun x hx y hy view view' hv hv' _ => ?_, fun x hx y hy built built' hb hb' _ => ?_⟩
  · obtain ⟨_, _, hx, -⟩ := hall x hx
    obtain ⟨c, hwrite, -⟩ := Cache.write_of_directory? hx.cache x.world.disk en
    rw [hwrite]
  · rw [h.disk, h'.disk] at he
    exact absurd he (hstamp file ((h.fresh hd hb).2 ▸ hfile))
  · obtain ⟨_, _, hx, -⟩ := hall x hx
    obtain ⟨_, _, hy, -⟩ := hall y hy
    exact ⟨(hx.reference hv).trans (hy.reference hv').symm, by rw [hx.context, hy.context]⟩
  · obtain ⟨_, _, hx, hc⟩ := hall x hx
    obtain ⟨_, _, hy, hc'⟩ := hall y hy
    rw [(hx.fresh hc hb).1, (hy.fresh hc' hb').1]

theorem load_single (capacity : Nat) (en : Entry) (d : Disk) (registry : Registry) :
    Cache.load (.memory capacity [en]) d registry en.key =
      if en.isFresh d then
        (some (registry.define en.artifact).1, .memory capacity [en],
          (registry.define en.artifact).2)
      else (none, .memory capacity [en], registry) := by
  simp only [Cache.load, Cache.read, List.find?, beq_self_eq_true, List.filter, bne_self_eq_false]

theorem artifact_ofArtifact (d : Disk) (a : Artifact) : (Entry.ofArtifact d a).artifact = a := by
  simp [Entry.ofArtifact, Entry.artifact, Dependency.current, Function.comp_def]

/-- The engine has one artifact, kept with the stamps that its files have on a disk. -/
structure Has (e : Engine) (a : Artifact) (d : Disk) : Prop where
  cache : e.cache = .memory defaultCapacity [.ofArtifact d a]
  registry : e.registry.get? a.id = some a
  scripts : e.scripts.Has a.id

section

variable {e : Engine} {d d' : Disk} {key path : String} {context : Context} {chunk : Chunk}
  {a : Artifact} (hk : e.fingerprint d' path context = .ok key)

include hk

theorem has_of_first_build (hcache : e.cache = .memory defaultCapacity [])
    (hregistry : e.registry = .empty)
    (hc : ((e.builder (e.library.loader d')).compile context path).1 = .ok chunk)
    (hscript : ((Program.assemble key path chunk).load e.scripts).1 = .ok ()) :
    (e.compile d' path context).1 = .ok (Program.assemble key path chunk) ∧
      (e.compile d' path context).2.1.Has (Program.assemble key path chunk) d' := by
  have hload : e.cache.load d' e.registry key = (none, e.cache, e.registry) := by
    rw [hcache, hregistry]
    rfl
  have hnew : e.registry.get? (Program.assemble key path chunk).id = none := hregistry ▸ rfl
  obtain ⟨newest, hdefine⟩ := Registry.define_of_new hnew
  have hwrite : e.cache.write d' (.ofArtifact d' (Program.assemble key path chunk)) =
      (.ok (), .memory defaultCapacity [.ofArtifact d' (Program.assemble key path chunk)], d') := by
    rw [hcache]
    rfl
  obtain ⟨reads, hrebuild⟩ := rebuild_of_load hc hdefine hwrite (Prod.ext hscript rfl)
  rw [compile_of_miss hk hload, hrebuild]
  refine ⟨rfl, rfl, ?_, Artifact.has_of_load hscript⟩
  simp [Registry.get?, hregistry, Registry.empty]

/-- A build of the same source does not replace the artifact, even if it depends on other files. -/
theorem Has.of_same_source (h : e.Has a d) (hkey : a.key = key)
    (hc : ((e.builder (e.library.loader d')).compile context path).1 = .ok chunk)
    (hsource : (Program.assemble key path chunk).source = a.source)
    (hchanged : ∃ file ∈ a.dependencies, d'.stamp? file ≠ d.stamp? file) :
    (e.compile d' path context).1 = .ok a ∧ (e.compile d' path context).2.1.Has a d' := by
  have hstale : (Entry.ofArtifact d a).isFresh d' = false := by
    obtain ⟨file, hfile, hne⟩ := hchanged
    refine List.all_eq_false.mpr ⟨.current d file, List.mem_map_of_mem hfile, ?_⟩
    simpa [Dependency.current] using hne
  have hload : e.cache.load d' e.registry key = (none, e.cache, e.registry) := by
    have hsingle := load_single defaultCapacity (.ofArtifact d a) d' e.registry
    rw [hstale] at hsingle
    rw [← hkey, h.cache]
    exact hsingle
  have hid : (Program.assemble key path chunk).id = a.id := by
    rw [Artifact.id, Artifact.id, hsource, hkey]
    rfl
  have hwrite : e.cache.write d' (.ofArtifact d' a) =
      (.ok (), .memory defaultCapacity [.ofArtifact d' a], d') := by
    rw [h.cache]
    simp only [Cache.write, Entry.ofArtifact, List.filter, bne_self_eq_false]
    rfl
  obtain ⟨newest, hdefine⟩ := Registry.define_of_known (hid ▸ h.registry)
  obtain ⟨reads, hrebuild⟩ := rebuild_of_load hc hdefine hwrite (Artifact.load_of_has h.scripts)
  rw [compile_of_miss hk hload, hrebuild]
  exact ⟨rfl, rfl, h.registry, h.scripts⟩

theorem Has.compile (h : e.Has a d) (hkey : a.key = key)
    (hsame : ∀ file ∈ a.dependencies, d'.stamp? file = d.stamp? file) :
    (e.compile d' path context).1 = .ok a := by
  have hfresh : (Entry.ofArtifact d a).isFresh d' = true := by
    refine List.all_eq_true.mpr fun dependency hd => ?_
    obtain ⟨file, hfile, rfl⟩ := List.mem_map.mp hd
    simpa [Dependency.current] using hsame file hfile
  obtain ⟨newest, hdefine⟩ := Registry.define_of_known h.registry
  have hload := load_single defaultCapacity (.ofArtifact d a) d' e.registry
  rw [hfresh, artifact_ofArtifact, hdefine, ← h.cache] at hload
  rw [← hkey] at hk
  rw [compile_of_hit hk hload (Artifact.load_of_has h.scripts)]

end

theorem run_compile_edit (w : World) (path : String) (context : Context) (library : Library)
    (disk : Disk) : w.run [.compile path context, .edit library disk] =
      ⟨{ (w.engine.compile w.disk path context).2.1 with library }, disk⟩ :=
  rfl

theorem Has.edit {e : Engine} {d d' : Disk} {a : Artifact} {path : String} {context : Context}
    (h : (e.compile d path context).2.1.Has a d') {builder : Loader → Builder} {t : Directories}
    (huses : e.Uses builder t) (disk : Disk) :
    ∃ e', World.run ⟨e, d⟩ [.compile path context, .edit (.directories t) disk] = ⟨e', disk⟩ ∧
      e'.Uses builder t ∧ e'.Has a d' := by
  have hbuilder := (e.compile_sameTemplates d path context).1.trans huses.1
  rw [run_compile_edit]
  generalize (e.compile d path context).2.1 = e₁ at h hbuilder ⊢
  exact ⟨_, rfl, ⟨hbuilder, rfl⟩, h.cache, h.registry, h.scripts⟩

open Program (letterKey letterSource)

/-- A page that is built has been found, so it has a key. -/
theorem desk_fingerprint {e : Engine} {builder : Loader → Builder}
    (huses : e.Uses builder deskViews) (hloader : ∀ l, (builder l).loader = l) {d : Disk}
    {chunk : Chunk}
    (hc : ((e.builder (e.library.loader d)).compile .empty "page").1 = .ok chunk) :
    e.fingerprint d "page" .empty = .ok letterKey := by
  obtain ⟨page, hbuild, -⟩ := Builder.compile_eq_ok hc
  obtain ⟨root, s, hload, -⟩ := run_bind_eq_ok.mp hbuild
  obtain ⟨view, -, hl, -⟩ := Builder.loadAt_run_eq_ok hload
  rw [huses.1, hloader] at hl
  have hfinds : Request.Finds ⟨⟨e, d⟩, "page", .empty⟩ view := hl
  refine (Request.fingerprint_eq_ok (r := ⟨⟨e, d⟩, "page", .empty⟩)).mpr ⟨view, hfinds, ?_⟩
  obtain ⟨f, rfl⟩ := Directories.found_of_locate ((Uses.finds huses).mp hfinds)
  have hpage : Reference.parse "page" "stm" = ⟨"default", "page"⟩ := by decide +kernel
  rw [Request.keyOf, f.spelled.trans hpage]
  rfl

/-- The page is compiled, and then written anew with some space behind it. -/
def deskRewrite : List Operation :=
  [.compile "page" .empty, .edit (.directories deskViews) (desk "x\n" 2 "x" 1)]

set_option maxRecDepth 100000 in
theorem deskChunk_first :
    deskChunk (desk "x" 1 "x" 1) = some ("__write(\"x\")\n", ["/desk/page.stm"]) := by
  decide +kernel

set_option maxRecDepth 100000 in
theorem deskChunk_rewritten :
    deskChunk (desk "x\n" 2 "x" 1) = some ("__write(\"x\")\n", ["/desk/page.stm"]) := by
  decide +kernel

section

variable {e : Engine} (huses : e.Uses Builder.default deskViews)

include huses

theorem desk_compile {d : Disk} {content : String} {paths : List String}
    (hd : deskChunk d = some (content, paths)) :
    e.fingerprint d "page" .empty = .ok letterKey ∧ ∃ chunk,
      ((e.builder (e.library.loader d)).compile .empty "page").1 = .ok chunk ∧
      (Program.assemble letterKey "page" chunk).source =
        Program.joinLines Program.preamble ++ content ++ Program.joinLines Program.epilogue ∧
      chunk.paths = paths := by
  obtain ⟨chunk, hchunk, he⟩ := Option.map_eq_some_iff.mp hd
  cases he
  have hc : ((e.builder (e.library.loader d)).compile .empty "page").1 = .ok chunk := by
    rw [huses.1, huses.2]
    exact eq_ok_of_toOption hchunk
  exact ⟨desk_fingerprint huses (fun _ => rfl) hc, chunk, hc, rfl, rfl⟩

variable (hcache : e.cache = .memory defaultCapacity [])

include hcache

theorem deskRewrite_regular :
    let w : World := ⟨e, desk "x" 1 "x" 1⟩
    let requests := w.requests (deskRewrite ++ [.compile "page" .empty])
    w.AllowsAll deskRewrite ∧ Request.Orderly requests ∧ Request.NoNewFiles requests := by
  intro w requests
  have hnone : e.cache.directory? = none := hcache ▸ rfl
  obtain ⟨⟨hbuilder, hlibrary⟩, hdisk, hdirectory⟩ :=
    step_of_directory? (w := w) hnone "page" .empty
  have hfirst : OnDesk ⟨w, "page", .empty⟩ (desk "x" 1 "x" 1) := ⟨huses, hnone, rfl, rfl, rfl⟩
  have hlast : OnDesk (w.request deskRewrite "page" .empty) (desk "x\n" 2 "x" 1) :=
    ⟨⟨hbuilder.trans huses.1, rfl⟩, hdirectory, rfl, rfl, rfl⟩
  refine ⟨⟨trivial, ⟨(hlibrary.trans huses.2).symm, ?_, fun p hp => ?_⟩, trivial⟩,
    desk_orderly hfirst hlast deskChunk_first deskChunk_rewritten (by decide +kernel),
    List.pairwise_pair.mpr fun built built' hb hb' _ => ?_⟩
  · rw [hdisk]
    exact desk_later _ _ _ _ _ _ _ _
  · rw [Cache.Owns, hdirectory] at hp
    cases hp.1
  · rw [(hfirst.fresh deskChunk_first hb).2, (hlast.fresh deskChunk_rewritten hb').2]
    exact List.Subset.refl _

variable (hregistry : e.registry = .empty) (hscripts : e.scripts = .empty {})

include hregistry hscripts

/-- The first build of a page that is a letter, by an engine that keeps its entries in memory. -/
theorem desk_first {d : Disk} {paths : List String}
    (hd : deskChunk d = some ("__write(\"x\")\n", paths)) :
    ∃ first, (e.compile d "page" .empty).1 = .ok first ∧ first.key = letterKey ∧
      first.source = letterSource ∧ first.dependencies = paths ∧
      (e.compile d "page" .empty).2.1.Has first d := by
  obtain ⟨hk, chunk, hc, hsource, hpaths⟩ := desk_compile huses hd
  obtain ⟨hanswer, hhas⟩ := has_of_first_build hk hcache hregistry hc
    (hscripts ▸ Artifact.load_letter rfl hsource)
  exact ⟨_, hanswer, rfl, hsource, hpaths, hhas⟩

/-- The script was loaded with the first build, and the second one has its name. -/
theorem deskRewrite_loads : ∃ e' built,
    World.run ⟨e, desk "x" 1 "x" 1⟩ deskRewrite = ⟨e', desk "x\n" 2 "x" 1⟩ ∧
      Request.fresh ⟨⟨e', desk "x\n" 2 "x" 1⟩, "page", .empty⟩ = .ok built ∧
      (built.load e'.scripts).1 = .ok () ∧ built.source = letterSource := by
  obtain ⟨first, -, hkey, hsource, -, hhas⟩ :=
    desk_first huses hcache hregistry hscripts deskChunk_first
  obtain ⟨e', hrun, huses', hhas'⟩ := hhas.edit huses (desk "x\n" 2 "x" 1)
  obtain ⟨hk, chunk, hc, hsame, -⟩ := desk_compile huses' deskChunk_rewritten
  have hid : (Program.assemble letterKey "page" chunk).id = first.id := by
    rw [Artifact.id, Artifact.id, hkey, hsource, hsame]
    rfl
  refine ⟨e', _, hrun, Request.fresh_of_chunk hk hc, ?_, hsame⟩
  rw [Artifact.load_of_has (hid ▸ hhas'.scripts)]

end

theorem cache_is_transparent_desk : ∃ e,
    Settings.engine {} (.directories deskViews) {} = .ok e ∧
      let w : World := ⟨e, desk "x" 1 "x" 1⟩
      let requests := w.requests (deskRewrite ++ [.compile "page" .empty])
      w.AllowsAll deskRewrite ∧ Request.Orderly requests ∧ Request.NoNewFiles requests ∧
        ∃ answer, (w.request deskRewrite "page" .empty).answer = .ok answer ∧
          answer.source = letterSource := by
  obtain ⟨e, he⟩ : ∃ e, e = deskEngine := ⟨_, rfl⟩
  have huses : e.Uses Builder.default deskViews := he ▸ ⟨rfl, rfl⟩
  have hcache : e.cache = .memory defaultCapacity [] := he ▸ rfl
  have hengine := he ▸ deskEngine_eq
  obtain ⟨hallows, horderly, hfiles⟩ := deskRewrite_regular huses hcache
  refine ⟨e, hengine, hallows, horderly, hfiles, ?_⟩
  have hneat : e.cache.Neat (desk "x" 1 "x" 1) := by
    refine ⟨desk_home _ _ _ _, fun dir h => ?_⟩
    rw [hcache] at h
    cases h
  have hempty : ∀ key en, IsKey key → ¬ e.cache.Holds (desk "x" 1 "x" 1) key en := by
    intro key en _ hen
    rw [hcache] at hen
    cases hen
  have htransparent := cache_is_transparent {} {} deskViews e (desk "x" 1 "x" 1) deskRewrite
    "page" .empty hengine ⟨rfl, rfl, rfl⟩ hneat hempty hallows horderly hfiles
  obtain ⟨e', built, hrun, hb, hload, hsource⟩ :=
    deskRewrite_loads huses hcache (he ▸ rfl) (he ▸ rfl)
  rw [World.request, hrun] at htransparent ⊢
  obtain ⟨answer, ha⟩ := htransparent.2.mpr ⟨built, hb, hload⟩
  obtain ⟨built', hb', hsame⟩ := htransparent.1 answer ha
  cases hb'.symm.trans hb
  exact ⟨answer, ha, hsame.trans hsource⟩

/-- The page is compiled, and then it comes to include the part. -/
def deskInclude : List Operation :=
  [.compile "page" .empty, .edit (.directories deskViews) (desk "<include:part/>" 2 "x" 1)]

/-- The page is compiled, and then the part changes. -/
def deskChange : List Operation :=
  [.compile "page" .empty, .edit (.directories deskViews) (desk "<include:part/>" 2 "y" 3)]

set_option maxRecDepth 100000 in
/-- The page with the part has the source that the page had before, so the artifact of the first
build stands, which does not depend on the part; from then on the part can change unnoticed. -/
theorem new_file_goes_unnoticed : ∃ e,
    Settings.engine {} (.directories deskViews) {} = .ok e ∧
      let w : World := ⟨e, desk "x" 1 "x" 1⟩
      ∃ first, (w.request [] "page" .empty).answer = .ok first ∧
        (w.request deskInclude "page" .empty).answer = .ok first ∧
        ∃ answer built, (w.request (deskInclude ++ deskChange) "page" .empty).answer = .ok answer ∧
          (w.request (deskInclude ++ deskChange) "page" .empty).fresh = .ok built ∧
          answer.source ≠ built.source := by
  obtain ⟨e, he⟩ : ∃ e, e = deskEngine := ⟨_, rfl⟩
  have huses : e.Uses Builder.default deskViews := he ▸ ⟨rfl, rfl⟩
  have hcache : e.cache = .memory defaultCapacity [] := he ▸ rfl
  have hregistry : e.registry = .empty := he ▸ rfl
  refine ⟨e, he ▸ deskEngine_eq, ?_⟩
  intro w
  have h₂ : deskChunk (desk "<include:part/>" 2 "x" 1) =
      some ("__write(\"x\")\n", ["/desk/page.stm", "/desk/part.stm"]) := by decide +kernel
  have h₃ : deskChunk (desk "<include:part/>" 2 "y" 3) =
      some ("__write(\"y\")\n", ["/desk/page.stm", "/desk/part.stm"]) := by decide +kernel
  have hscripts : e.scripts = .empty {} := he ▸ rfl
  obtain ⟨first, hfirst, hkey, hsource, hfiles, hhas⟩ :=
    desk_first huses hcache hregistry hscripts deskChunk_first
  -- the page is built again, but the artifact stays
  obtain ⟨e₁, hrun₁, huses₁, hhas₁⟩ := hhas.edit huses (desk "<include:part/>" 2 "x" 1)
  obtain ⟨hk₂, chunk₂, hc₂, hsource₂, -⟩ := desk_compile huses₁ h₂
  obtain ⟨hsecond, hhas⟩ := hhas₁.of_same_source hk₂ hkey hc₂ (hsource₂.trans hsource.symm)
    (by rw [hfiles]; decide +kernel)
  -- the part changes, but the entry does not tell
  obtain ⟨e₂, hrun₂, huses₂, hhas₂⟩ := hhas.edit huses₁ (desk "<include:part/>" 2 "y" 3)
  have hrun : w.run (deskInclude ++ deskChange) = ⟨e₂, desk "<include:part/>" 2 "y" 3⟩ := by
    have happend : w.run (deskInclude ++ deskChange) = (w.run deskInclude).run deskChange :=
      List.foldl_append
    rw [happend, deskInclude, hrun₁, deskChange, hrun₂]
  obtain ⟨hk, chunk₃, hc₃, hsource₃, -⟩ := desk_compile huses₂ h₃
  have hstamps : ∀ file ∈ first.dependencies, (desk "<include:part/>" 2 "y" 3).stamp? file =
      (desk "<include:part/>" 2 "x" 1).stamp? file := by
    rw [hfiles]
    decide +kernel
  simp only [World.request, hrun]
  rw [deskInclude, hrun₁]
  refine ⟨first, hfirst, hsecond, first, _, hhas₂.compile hk hkey hstamps,
    Request.fresh_of_chunk hk hc₃, ?_⟩
  rw [hsource, hsource₃, letterSource]
  intro h
  simp at h

end Engine

end Lamina
