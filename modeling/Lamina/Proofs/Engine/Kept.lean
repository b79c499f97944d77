import Lamina.Proofs.Builder.Directory
import Lamina.Proofs.Cache
import Lamina.Proofs.Context
import Lamina.Proofs.Engine.Metadata
import Lamina.Proofs.Scripts

/-! What an engine keeps. The artifacts in its registry and the entries in its cache come from
builds for earlier requests; an entry whose files have the stamps they had is as good as a build. -/

namespace Lamina

namespace Request

/-- The template that a request is for. -/
def Finds (r : Request) (view : View) : Prop :=
  (r.world.engine.library.loader r.world.disk).locate r.path = .ok view

/-- The key of a template under the context of the request. -/
def keyOf (r : Request) (view : View) : String :=
  fingerprint view.reference.space view.reference.name r.context.id

/-- What the surroundings of an engine grant its requests. -/
structure Orderly (requests : List Request) : Prop where
  /-- The cache can be written. -/
  writes : ∀ r ∈ requests, ∀ en : Entry, IsKey en.key →
    (r.world.engine.cache.write r.world.disk en).1 = .ok ()
  /-- A file with the stamp that it had reads as it did. -/
  stamps : requests.Pairwise fun r r' => ∀ built, r.fresh = .ok built → ∀ file ∈ built.dependencies,
    r'.world.disk.stamp? file = r.world.disk.stamp? file →
      r'.world.disk.readFile file = r.world.disk.readFile file
  /-- Keys that start alike are those of one template under one context. -/
  keys : ∀ r ∈ requests, ∀ r' ∈ requests, ∀ view view', r.Finds view → r'.Finds view' →
    (r.keyOf view).toList.take 32 = (r'.keyOf view').toList.take 32 →
      view.reference = view'.reference ∧ r.context.id = r'.context.id
  /-- Digests that start alike are those of one source. -/
  sources : ∀ r ∈ requests, ∀ r' ∈ requests, ∀ built built', r.fresh = .ok built →
    r'.fresh = .ok built' → (Digest.ofText built.source).toList.take 12 =
      (Digest.ofText built'.source).toList.take 12 → built.source = built'.source

/-- A build depends on no file that an earlier one under its identifier did not depend on. -/
def NoNewFiles (requests : List Request) : Prop :=
  requests.Pairwise fun r r' => ∀ built built', r.fresh = .ok built → r'.fresh = .ok built' →
    built.id = built'.id → built'.dependencies ⊆ built.dependencies

theorem Orderly.earlier {requests more : List Request} (h : Orderly (requests ++ more)) :
    Orderly requests := by
  have hmem : ∀ {r}, r ∈ requests → r ∈ requests ++ more := fun hr => List.mem_append_left _ hr
  exact ⟨fun r hr => h.writes r (hmem hr), (List.pairwise_append.mp h.stamps).1,
    fun r hr r' hr' => h.keys r (hmem hr) r' (hmem hr'),
    fun r hr r' hr' => h.sources r (hmem hr) r' (hmem hr')⟩

theorem NoNewFiles.earlier {requests more : List Request} (h : NoNewFiles (requests ++ more)) :
    NoNewFiles requests :=
  (List.pairwise_append.mp h).1

theorem fingerprint_eq_ok {r : Request} {key : String} :
    r.world.engine.fingerprint r.world.disk r.path r.context = .ok key ↔
      ∃ view, r.Finds view ∧ key = r.keyOf view := by
  unfold Engine.fingerprint Finds
  cases (r.world.engine.library.loader r.world.disk).locate r.path with
  | error failure =>
    constructor
    · intro h
      cases h
    · rintro ⟨view, h, -⟩
      cases h
  | ok view =>
    constructor
    · intro h
      exact ⟨view, rfl, (Except.ok.inj h).symm⟩
    · rintro ⟨view', h, rfl⟩
      cases h
      rfl

theorem fresh_iff {r : Request} {built : Artifact} : r.fresh = .ok built ↔
    ∃ view chunk, r.Finds view ∧ r.chunk = .ok chunk ∧
      built = Program.assemble (r.keyOf view) r.path chunk := by
  constructor
  · intro h
    obtain ⟨key, chunk, hk, hc, rfl⟩ := fresh_eq_ok h
    obtain ⟨view, hv, rfl⟩ := fingerprint_eq_ok.mp hk
    exact ⟨view, chunk, hv, hc, rfl⟩
  · rintro ⟨view, chunk, hv, hc, rfl⟩
    exact fresh_of_chunk (fingerprint_eq_ok.mpr ⟨view, hv, rfl⟩) hc

theorem isKey_of_fresh {r : Request} {built : Artifact} (h : r.fresh = .ok built) :
    IsKey built.key := by
  obtain ⟨view, chunk, -, -, rfl⟩ := fresh_iff.mp h
  exact ⟨_, _, _, rfl⟩

section

variable {requests : List Request} {r r' : Request} {built built' : Artifact}

theorem Orderly.same_of_key (h : Orderly requests) (hr : r ∈ requests) (hr' : r' ∈ requests)
    {view view' : View} (hv : r.Finds view) (hv' : r'.Finds view')
    (hkey : (r.keyOf view).toList.take 32 = (r'.keyOf view').toList.take 32) :
    view.reference = view'.reference ∧ r.context = r'.context := by
  obtain ⟨href, hid⟩ := h.keys r hr r' hr' view view' hv hv' hkey
  exact ⟨href, Context.id_injective hid⟩

theorem Orderly.same_of_id (h : Orderly requests) (hr : r ∈ requests) (hr' : r' ∈ requests)
    (hb : r.fresh = .ok built) (hb' : r'.fresh = .ok built') (hid : built.id = built'.id) :
    built.key = built'.key ∧ built.source = built'.source := by
  obtain ⟨hkey, hsource⟩ := artifactId_inj (isKey_of_fresh hb) (isKey_of_fresh hb') hid
  refine ⟨?_, h.sources r hr r' hr' built built' hb hb' hsource⟩
  obtain ⟨view, chunk, hv, -, rfl⟩ := fresh_iff.mp hb
  obtain ⟨view', chunk', hv', -, rfl⟩ := fresh_iff.mp hb'
  obtain ⟨href, hcontext⟩ := h.same_of_key hr hr' hv hv' hkey
  change r.keyOf view = r'.keyOf view'
  rw [keyOf, keyOf, href, hcontext]

end

end Request

/-- The entry is for an artifact, and for the files it depends on as they are on a disk. -/
structure Entry.Covers (en : Entry) (d : Disk) (a : Artifact) : Prop where
  key : en.key = a.key
  source : en.source = a.source
  files : ∀ file ∈ a.dependencies, .current d file ∈ en.dependencies

theorem Entry.Covers.id {en : Entry} {d : Disk} {a : Artifact} (h : en.Covers d a) :
    en.artifact.id = a.id := by
  rw [Artifact.id, Artifact.id, ← h.key, ← h.source]
  rfl

theorem Entry.Covers.stamp? {en : Entry} {d d' : Disk} {a : Artifact} (h : en.Covers d a)
    (hfresh : en.isFresh d' = true) : ∀ file ∈ a.dependencies, d'.stamp? file = d.stamp? file := by
  intro file hf
  have hall := List.all_eq_true.mp hfresh _ (h.files file hf)
  exact eq_of_beq hall

namespace Engine

variable {e e' : Engine} {d d' : Disk} {past : List Request} {key : String} {en : Entry}

/-- An artifact of the identifier is defined, and its script is loaded. -/
def Ready (e : Engine) (id : String) : Prop :=
  (∃ a, e.registry.get? id = some a) ∧ e.scripts.Has id

def Backed (past : List Request) (e : Engine) (key : String) (en : Entry) : Prop :=
  ∃ r ∈ past, ∃ built, r.fresh = .ok built ∧ built.key = key ∧ en.Covers r.world.disk built ∧
    e.Ready built.id

def Uses (e : Engine) (builder : Loader → Builder) (t : Directories) : Prop :=
  e.builder = builder ∧ e.library = .directories t

structure Kept (builder : Loader → Builder) (t : Directories) (past : List Request) (e : Engine)
    (d : Disk) : Prop where
  uses : e.Uses builder t
  neat : e.cache.Neat d
  served : ∀ r ∈ past, r.world.engine.Uses builder t ∧ r.world.disk.Home ∧ r.world.disk.Later d
  registry : ∀ id a, e.registry.get? id = some a → ∃ r ∈ past, r.fresh = .ok a
  entries : ∀ key en, IsKey key → e.cache.Holds d key en → Backed past e key en

/-- What a step of an engine may do: it keeps what it has kept, or drops it, and keeps builds for
the requests so far. -/
structure Advances (past : List Request) (e : Engine) (d : Disk) (e' : Engine) (d' : Disk) :
    Prop where
  same : e.SameTemplates e'
  neat : e'.cache.Neat d'
  later : d.Later d'
  registry : ∀ id a, e'.registry.get? id = some a →
    e.registry.get? id = some a ∨ ∃ r ∈ past, r.fresh = .ok a
  ready : ∀ id, e.Ready id → e'.Ready id
  entries : ∀ key en, IsKey key → e'.cache.Holds d' key en →
    e.cache.Holds d key en ∨ Backed past e' key en

variable {builder : Loader → Builder} {t : Directories}

theorem Backed.mono {past' : List Request} (h : Backed past e key en) (hp : past ⊆ past')
    (hready : ∀ id, e.Ready id → e'.Ready id) : Backed past' e' key en := by
  obtain ⟨r, hr, built, hb, hk, hc, hready'⟩ := h
  exact ⟨r, hp hr, built, hb, hk, hc, hready _ hready'⟩

theorem Kept.advance {more : List Request} (h : Kept builder t past e d)
    (hmore : ∀ r ∈ more, r.world.engine = e ∧ r.world.disk = d)
    (ha : Advances (past ++ more) e d e' d') : Kept builder t (past ++ more) e' d' := by
  have hp : past ⊆ past ++ more := List.subset_append_left _ _
  refine ⟨⟨ha.same.1.trans h.uses.1, ha.same.2.trans h.uses.2⟩, ha.neat, fun r hr => ?_,
    fun id a hget => ?_, fun key en hk hen => ?_⟩
  · rcases List.mem_append.mp hr with hr | hr
    · obtain ⟨huses, hd, hlater⟩ := h.served r hr
      exact ⟨huses, hd, hlater.trans ha.later⟩
    · obtain ⟨rfl, rfl⟩ := hmore r hr
      exact ⟨h.uses, h.neat.1, ha.later⟩
  · rcases ha.registry id a hget with hget | hnew
    · obtain ⟨r, hr, hf⟩ := h.registry id a hget
      exact ⟨r, hp hr, hf⟩
    · exact hnew
  · rcases ha.entries key en hk hen with hen | hnew
    · exact (h.entries key en hk hen).mono hp ha.ready
    · exact hnew

theorem Advances.refl (hneat : e.cache.Neat d) (past : List Request) : Advances past e d e d :=
  ⟨⟨rfl, rfl⟩, hneat, .refl d, fun _ _ => .inl, fun _ => id, fun _ _ _ => .inl⟩

theorem Advances.trans {e'' : Engine} {d'' : Disk} (h : Advances past e d e' d')
    (h' : Advances past e' d' e'' d'') : Advances past e d e'' d'' := by
  refine ⟨⟨h'.same.1.trans h.same.1, h'.same.2.trans h.same.2⟩, h'.neat, h.later.trans h'.later,
    fun id a hget => ?_, fun id hid => h'.ready id (h.ready id hid), fun key en hk hen => ?_⟩
  · exact (h'.registry id a hget).elim (h.registry id a) .inr
  · rcases h'.entries key en hk hen with hen | hnew
    · exact (h.entries key en hk hen).imp_right fun hold => hold.mono (fun _ => id) h'.ready
    · exact .inr hnew

theorem advances_read (hneat : e.cache.Neat d) (key : String) (past : List Request) :
    Advances past e d { e with cache := (e.cache.read d key).2 } d :=
  ⟨⟨rfl, rfl⟩, (Cache.read_moves hneat key).neat, .refl d, fun _ _ => .inl, fun _ => id,
    fun _ _ _ hen => .inl (Cache.holds_read.mp hen)⟩

theorem discard_eq (e : Engine) (d : Disk) (key : String) : e.discard d key =
    ({ e with cache := (e.cache.delete d key).2.1, registry := e.registry.forget key },
      (e.cache.delete d key).2.2) :=
  rfl

theorem advances_discard (hneat : e.cache.Neat d) (hk : IsKey key) (past : List Request) :
    Advances past e d (e.discard d key).1 (e.discard d key).2 := by
  have hmoves := Cache.delete_moves hneat hk
  rw [discard_eq]
  exact ⟨⟨rfl, rfl⟩, hmoves.neat, hmoves.later, fun _ _ => .inl, fun _ => id,
    fun k en hk' hen => .inl (Cache.holds_delete hneat hk hk' hen).2⟩

/-- What the registry has of a build: an artifact of the same key and source, which depends on all
files of the build. -/
structure Stands (known built : Artifact) : Prop where
  key : known.key = built.key
  source : known.source = built.source
  files : built.dependencies ⊆ known.dependencies

theorem Stands.id {known built : Artifact} (h : Stands known built) : known.id = built.id := by
  rw [Artifact.id, Artifact.id, h.key, h.source]

section

variable {r : Request} {built : Artifact} (ho : Request.Orderly (past ++ [r]))
  (hf : Request.NoNewFiles (past ++ [r])) (hb : r.fresh = .ok built)

include ho hf hb

theorem stands_define {registry : Registry}
    (hregistry : ∀ id a, registry.get? id = some a → ∃ r ∈ past, r.fresh = .ok a) :
    Stands (registry.define built).1 built := by
  rw [Registry.define_fst]
  cases hget : registry.get? built.id with
  | none => exact ⟨rfl, rfl, List.Subset.refl _⟩
  | some known =>
    obtain ⟨r', hr', hb'⟩ := hregistry _ known hget
    have hid := Registry.id_of_get? hget
    obtain ⟨hkey, hsource⟩ :=
      ho.same_of_id (List.mem_append_left _ hr') (List.mem_append_right _ (.head _)) hb' hb hid
    have hfiles := (List.pairwise_append.mp hf).2.2 r' hr' r (.head _) known built hb' hb hid
    exact ⟨hkey, hsource, hfiles⟩

end

/-- An answer to a request as it should be: the source of the templates as they are, or a failure
where they cannot be built or their script does not load. -/
def Answers (r : Request) (scripts : Scripts) (answer : Except Failure Artifact) : Prop :=
  (∃ a built, answer = .ok a ∧ r.fresh = .ok built ∧ a.source = built.source ∧
    (built.load scripts).1 = .ok ()) ∨
  (∃ failure, answer = .error failure) ∧
    ∀ built, r.fresh = .ok built → (built.load scripts).1 ≠ .ok ()

theorem Stands.load_iff {known built : Artifact} (h : Stands known built) (scripts : Scripts) :
    (known.load scripts).1 = .ok () ↔ (built.load scripts).1 = .ok () := by
  rw [Artifact.load_iff, Artifact.load_iff, h.id, h.source]

theorem Stands.covers {known built : Artifact} (h : Stands known built) {d : Disk} {en : Entry}
    (hen : Cache.Alike (.ofArtifact d known) en) : en.Covers d built := by
  refine ⟨hen.key.trans h.key, hen.source.trans h.source, fun file hfile => ?_⟩
  rw [hen.dependencies]
  exact List.mem_map_of_mem (h.files hfile)

theorem registry_define {registry : Registry} {built : Artifact} {id : String} {a : Artifact}
    (h : (registry.define built).2.get? id = some a) :
    registry.get? id = some a ∨ a = built := by
  rw [Registry.get?_define] at h
  rcases Option.or_eq_some_iff.mp h with h | ⟨-, h⟩
  · exact .inl h
  · exact .inr (List.mem_singleton.mp (List.mem_of_find?_eq_some h))

theorem defined_define (registry : Registry) (built : Artifact) :
    ∃ a, (registry.define built).2.get? built.id = some a := by
  rw [Registry.get?_define]
  cases registry.get? built.id with
  | none => exact ⟨built, by simp⟩
  | some a => exact ⟨a, rfl⟩

theorem defined_of_defined {registry : Registry} {id : String} (built : Artifact)
    (h : ∃ a, registry.get? id = some a) : ∃ a, (registry.define built).2.get? id = some a := by
  obtain ⟨a, ha⟩ := h
  rw [Registry.get?_define, ha]
  exact ⟨a, rfl⟩

section

variable {r : Request} {path : String} {context : Context} (hneat : e.cache.Neat d)
  (hk : IsKey key) (hregistry : ∀ id a, e.registry.get? id = some a → ∃ r ∈ past, r.fresh = .ok a)
  (hwrite : ∀ en : Entry, IsKey en.key → (e.cache.write d en).1 = .ok ())
  (ho : Request.Orderly (past ++ [r])) (hf : Request.NoNewFiles (past ++ [r]))
  (hd : r.world.disk = d)

include hneat hk hregistry hwrite ho hf hd

theorem settle_answers {chunk : Chunk} {known : Artifact} {registry : Registry}
    {written : Except CacheFault Unit} {cache : Cache} {after : Disk}
    {loaded : Except Failure Unit} {scripts : Scripts} (reads : List String)
    (hb : r.fresh = .ok (Program.assemble key path chunk))
    (hdefine : e.registry.define (Program.assemble key path chunk) = (known, registry))
    (hw : e.cache.write d (.ofArtifact d known) = (written, cache, after))
    (hload : known.load e.scripts = (loaded, scripts)) :
    let out := settle { e with reads, registry, cache, scripts } after key known loaded
    Advances (past ++ [r]) e d out.2.1 out.2.2 ∧ Answers r e.scripts out.1 := by
  have hstands := stands_define ho hf hb hregistry
  have hdefined := defined_define e.registry (Program.assemble key path chunk)
  have hold : ∀ id, (∃ a, e.registry.get? id = some a) →
      ∃ a, (e.registry.define (Program.assemble key path chunk)).2.get? id = some a :=
    fun _ => defined_of_defined _
  have hnew : ∀ id a, (e.registry.define (Program.assemble key path chunk)).2.get? id = some a →
      e.registry.get? id = some a ∨ ∃ r' ∈ past ++ [r], r'.fresh = .ok a := by
    intro id a hget
    refine (registry_define hget).imp_right ?_
    rintro rfl
    exact ⟨r, List.mem_append_right _ (.head _), hb⟩
  simp only [hdefine] at hstands hdefined hold hnew
  have hknown : IsKey known.key := hstands.key ▸ hk
  obtain rfl : written = .ok () := by rw [← hwrite (.ofArtifact d known) hknown, hw]
  have hmoves := Cache.write_moves hneat hknown hw
  have hready : ∀ id, e.scripts.Has id → (known.load e.scripts).2.Has id := fun _ => known.has_load
  have hhas : (known.load e.scripts).1 = .ok () → (known.load e.scripts).2.Has known.id :=
    Artifact.has_of_load
  have hloads := hstands.load_iff e.scripts
  have hother {k : String} {en : Entry} (hk' : IsKey k) (hne : k ≠ key)
      (hen : cache.Holds after k en) : e.cache.Holds d k en :=
    ((Cache.holds_write hneat hknown hw hk' hen).resolve_left fun h =>
      hne (h.1.trans hstands.key)).2
  rw [hload] at hready hhas hloads
  cases loaded with
  | error failure =>
    -- the entry just written has no loaded script behind it, but it is removed at once
    have hdelete := Cache.delete_moves hmoves.neat hk
    refine ⟨⟨⟨rfl, rfl⟩, hdelete.neat, hmoves.later.trans hdelete.later, hnew, fun id hid => ?_,
      fun k en hk' hen => .inl ?_⟩, .inr ⟨⟨failure, rfl⟩, fun built hbuilt hok => ?_⟩⟩
    · exact ⟨hold id hid.1, hready id hid.2⟩
    · obtain ⟨hne, hen⟩ := Cache.holds_delete hmoves.neat hk hk' hen
      exact hother hk' hne hen
    · obtain rfl := Except.ok.inj (hbuilt.symm.trans hb)
      exact absurd (hloads.mpr hok) (fun h => nomatch h)
  | ok =>
    refine ⟨⟨⟨rfl, rfl⟩, hmoves.neat, hmoves.later, hnew, fun id hid => ?_,
      fun k en hk' hen => ?_⟩, .inl ⟨known, _, rfl, hb, hstands.source, hloads.mp rfl⟩⟩
    · exact ⟨hold id hid.1, hready id hid.2⟩
    -- under its own key there is only the new entry, and that covers the build
    by_cases hne : k = key
    · rcases Cache.holds_write hneat hknown hw hk' hen with ⟨-, halike⟩ | ⟨hne', -⟩
      · exact .inr ⟨r, List.mem_append_right _ (.head _), _, hb, hne.symm,
          hd ▸ hstands.covers halike, hdefined, hstands.id ▸ hhas rfl⟩
      · exact absurd (hne.trans hstands.key.symm) hne'
    · exact .inl (hother hk' hne hen)

theorem rebuild_answers (hc : r.chunk = ((e.builder (e.library.loader d)).compile context path).1)
    (hfresh : ∀ chunk, r.chunk = .ok chunk → r.fresh = .ok (Program.assemble key path chunk)) :
    Advances (past ++ [r]) e d (e.rebuild d key path context).2.1
        (e.rebuild d key path context).2.2 ∧
      Answers r e.scripts (e.rebuild d key path context).1 := by
  have hrebuilt := e.rebuilt d key path context
  generalize e.rebuild d key path context = out at hrebuilt ⊢
  cases hrebuilt with
  | defined reads hbuilt hdefine hw hload =>
    exact settle_answers hneat hk hregistry hwrite ho hf hd reads (hfresh _ (hc.trans hbuilt))
      hdefine hw hload
  | error reads hbuilt =>
    have hidle := Advances.refl hneat (past ++ [r])
    refine ⟨⟨hidle.same, hidle.neat, hidle.later, hidle.registry, hidle.ready, hidle.entries⟩,
      .inr ⟨⟨_, rfl⟩, fun built hfresh => ?_⟩⟩
    obtain ⟨-, chunk, -, hok, -⟩ := Request.fresh_eq_ok hfresh
    cases hbuilt.symm.trans (hc.symm.trans hok)

end

theorem Uses.chunk {r : Request} (h : r.world.engine.Uses builder t) :
    r.chunk = ((builder (t.loader r.world.disk)).compile r.context r.path).1 := by
  rw [Request.chunk, h.1, h.2]
  rfl

theorem Uses.finds {r : Request} (h : r.world.engine.Uses builder t) {view : View} :
    r.Finds view ↔ t.locate r.world.disk r.path = .ok view := by
  rw [Request.Finds, h.2, ← t.loader_locate]
  rfl

/-- A build for an earlier request under the same key, all of whose files have the stamps they had,
comes out the same now. -/
theorem chunk_of_covered (hbuilder : Builder.Uniform builder) {r r' : Request}
    (ho : Request.Orderly (past ++ [r])) (hr' : r' ∈ past) (huses : r.world.engine.Uses builder t)
    (huses' : r'.world.engine.Uses builder t) (hhome : r'.world.disk.Home)
    (hlater : r'.world.disk.Later r.world.disk) {view : View} (hv : r.Finds view)
    {built : Artifact} (hb : r'.fresh = .ok built) (hkey : built.key = r.keyOf view)
    (hstamp : ∀ file ∈ built.dependencies,
      r.world.disk.stamp? file = r'.world.disk.stamp? file) :
    ∃ chunk, r.chunk = .ok chunk ∧
      (Program.assemble (r.keyOf view) r.path chunk).source = built.source := by
  obtain ⟨view', chunk, hv', hc, rfl⟩ := Request.fresh_iff.mp hb
  obtain ⟨href, hcontext⟩ := ho.same_of_key (List.mem_append_left _ hr')
    (List.mem_append_right _ (.head _)) hv' hv (congrArg (fun k : String => k.toList.take 32) hkey)
  have hread : ∀ file ∈ chunk.paths,
      r.world.disk.readFile file = r'.world.disk.readFile file := fun file hfile =>
    (List.pairwise_append.mp ho.stamps).2.2 r' hr' r (.head _) _ hb file hfile (hstamp file hfile)
  rw [huses'.chunk] at hc
  obtain ⟨hnow, hlocate⟩ := hbuilder.compile_later hhome hlater hc hread
  rw [huses'.finds, ← hlocate] at hv'
  refine ⟨chunk, ?_, rfl⟩
  rw [huses.chunk, ← hcontext]
  exact hbuilder.compile_of_reference hnow hv' (huses.finds.mp hv) href.symm

theorem Kept.hit (hbuilder : Builder.Uniform builder) {r : Request}
    (h : Kept builder t past r.world.engine r.world.disk) (ho : Request.Orderly (past ++ [r]))
    {view : View} (hv : r.Finds view)
    (hen : r.world.engine.cache.Holds r.world.disk (r.keyOf view) en)
    (hfresh : en.isFresh r.world.disk = true) :
    ∃ known built, r.world.engine.registry.get? en.artifact.id = some known ∧
      r.world.engine.scripts.Has known.id ∧ r.fresh = .ok built ∧ known.source = built.source ∧
      known.id = built.id := by
  obtain ⟨r', hr', old, hb, hkey, hcovers, ⟨known, hknown⟩, hhas⟩ :=
    h.entries _ en ⟨_, _, _, rfl⟩ hen
  obtain ⟨huses, hhome, hlater⟩ := h.served r' hr'
  obtain ⟨chunk, hchunk, hsource⟩ := chunk_of_covered hbuilder ho hr' h.uses huses hhome hlater hv
    hb hkey (hcovers.stamp? hfresh)
  have hid := Registry.id_of_get? hknown
  obtain ⟨r'', hr'', hb''⟩ := h.registry _ known hknown
  have hsame := ho.same_of_id (List.mem_append_left _ hr'') (List.mem_append_left _ hr') hb'' hb hid
  refine ⟨known, _, hcovers.id ▸ hknown, hid.symm ▸ hhas,
    Request.fresh_iff.mpr ⟨view, chunk, hv, hchunk, rfl⟩, hsame.2.trans hsource.symm, ?_⟩
  rw [hid, Artifact.id, Artifact.id, hsource, hkey]
  rfl

theorem compile_answers (hbuilder : Builder.Uniform builder) (h : Kept builder t past e d)
    {path : String} {context : Context} (ho : Request.Orderly (past ++ [⟨⟨e, d⟩, path, context⟩]))
    (hf : Request.NoNewFiles (past ++ [⟨⟨e, d⟩, path, context⟩])) :
    Advances (past ++ [⟨⟨e, d⟩, path, context⟩]) e d (e.compile d path context).2.1
        (e.compile d path context).2.2 ∧
      Answers ⟨⟨e, d⟩, path, context⟩ e.scripts (e.compile d path context).1 := by
  cases hk : e.fingerprint d path context with
  | error failure =>
    rw [compile_of_error hk]
    refine ⟨.refl h.neat _, .inr ⟨⟨failure, rfl⟩, fun built hbuilt => ?_⟩⟩
    obtain ⟨key, -, hk', -⟩ := Request.fresh_eq_ok hbuilt
    cases hk.symm.trans hk'
  | ok key =>
    obtain ⟨view, hv, hkeyOf⟩ :=
      (Request.fingerprint_eq_ok (r := ⟨⟨e, d⟩, path, context⟩)).mp hk
    have hkey : IsKey key := ⟨_, _, _, hkeyOf⟩
    have hread := advances_read h.neat key (past ++ [⟨⟨e, d⟩, path, context⟩])
    rcases e.cache.load_cases d e.registry key with ⟨en, hen, hfresh, hload⟩ | ⟨-, hload⟩
    · obtain ⟨known, built, hknown, hhas, hb, hsource, hid⟩ :=
        h.hit hbuilder ho hv (hkeyOf ▸ hen) hfresh
      obtain ⟨newest, hdefine⟩ := Registry.define_of_known hknown
      rw [hdefine] at hload
      -- the script is loaded since the build was, so a fresh entry never turns out unusable
      rw [compile_of_hit hk hload (Artifact.load_of_has hhas)]
      refine ⟨⟨hread.same, hread.neat, hread.later, hread.registry, hread.ready, hread.entries⟩,
        .inl ⟨known, built, rfl, hb, hsource, ?_⟩⟩
      rw [Artifact.load_of_has (hid ▸ hhas)]
    · rw [compile_of_miss hk hload]
      have hwrite : ∀ en : Entry, IsKey en.key →
          ((e.cache.read d key).2.write d en).1 = .ok () := fun en hen => by
        rw [Cache.write_read]
        exact ho.writes _ (List.mem_append_right _ (.head _)) en hen
      have hrebuild := rebuild_answers (e := { e with cache := (e.cache.read d key).2 }) hread.neat
        hkey h.registry hwrite ho hf rfl rfl fun chunk hchunk => Request.fresh_of_chunk hk hchunk
      exact ⟨hread.trans hrebuild.1, hrebuild.2⟩

end Engine

end Lamina
