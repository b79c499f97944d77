import Lamina.Proofs.Builder.Memo
import Lamina.Proofs.Builder.Resolution
import Mathlib.Logic.Relation

/-! References that lead back to where they started. A template with a meaning has one because the
templates it refers to have, so no chain of references from it goes on for ever; a template on a
cycle, or above one, never loads. -/

namespace Lamina

namespace Builder

variable {b : Builder} {context : Context} {view view' : View} {n : Node}

/-- Answers to references, each of which is put down before it is answered. -/
def asking (answers : String → Option Node) (path : String) (_ : Origin) : LoadM Node := do
  modify (·.mark false path)
  match answers path with
  | some n => return n
  | none => throw (.loader (.notFound path none))

/-- The references that parsing the view comes to while it is given answers. -/
def asked (b : Builder) (context : Context) (answers : String → Option Node) (view : View) :
    List String :=
  ((b.parse context ⟨asking answers, asking answers⟩ view).run {}).2.passages.map (·.identity)

/-- Answers that are right wherever there is a right answer: a reference to a template that has no
meaning may be answered by anything. -/
def Admits (b : Builder) (context : Context) (answers : String → Option Node) : Prop :=
  ∀ path view n m, b.loader.locate path = .ok view → answers path = some n →
    b.Means context (fun _ => True) view m → n = m

/-- The first view imports or extends the second one. -/
def Refers (b : Builder) (context : Context) (view view' : View) : Prop :=
  ∃ answers, b.Admits context answers ∧
    ∃ path ∈ b.asked context answers view, b.loader.locate path = .ok view'

/-- Where the second computation succeeds, the first one asks for what is `known` only and comes to
no other result. -/
def covering (known : String → Prop) : Lockstep Throughout LoadM where
  holds _ x y Q := ∀ s, (∀ v ∈ s.passages, known v.identity) → ∀ t c t', y.run t = (.ok c, t') →
    (∀ v ∈ (x.run s).2.passages, known v.identity) ∧ ∀ a, (x.run s).1 = .ok a → a = c ∧ Q .stage a
  ofPure hQ s hs t c t' hr := by
    cases hr
    refine ⟨hs, fun a ha => ?_⟩
    cases ha
    exact ⟨rfl, hQ⟩
  ofBind {α β w x y f g Q R} hx hf s hs t c t' hr := by
    obtain ⟨d, t₁, hyr, hgr⟩ := run_bind_eq_ok.mp hr
    obtain ⟨hs₁, hsame⟩ := hx s hs t d t₁ hyr
    rw [run_bind]
    cases hxr : x.run s with
    | mk r s₁ =>
      rw [hxr] at hs₁ hsame
      cases r with
      | error failure => exact ⟨hs₁, nofun⟩
      | ok a =>
        obtain ⟨rfl, hQ⟩ := hsame a rfl
        exact hf .stage a trivial hQ s₁ hs₁ t₁ c t' hgr
  ofFailure _ _ _ _ _ _ hr := nomatch hr

theorem covering_modify {known : String → Prop} {f : Session → Session}
    (h : ∀ s, (f s).passages = s.passages) (w : Throughout) :
    (covering known).holds w (modify f) (modify f) fun _ _ => True := by
  intro s hs t c t' hr
  refine ⟨?_, fun a _ => ⟨rfl, trivial⟩⟩
  change ∀ v ∈ (f s).passages, known v.identity
  rw [h]
  exact hs

theorem asking_covering {known : String → Prop} {answers : String → Option Node}
    (hanswers : b.Admits context answers) {trees : View → Option Node}
    (hmeans : ∀ v m, trees v = some m → b.Means context (fun _ => True) v m)
    (hknown : ∀ path v m, b.loader.locate path = .ok v → trees v = some m → known path)
    (path : String) (o : Origin) :
    (covering known).holds .stage (asking answers path o) (b.answer trees path o)
      fun _ n => n.Sited fun _ => True := by
  intro s hs t m t' hr
  obtain ⟨-, v, hl, hm⟩ := (answer_run_eq_ok o).mp hr
  have hpassages : ∀ u ∈ (s.mark false path).passages, known u.identity :=
    List.forall_mem_append.mpr ⟨hs, List.forall_mem_singleton.mpr (hknown path v m hl hm)⟩
  have hrun : (asking answers path o).run s = match answers path with
      | some n => (.ok n, s.mark false path)
      | none => (.error (.loader (.notFound path none)), s.mark false path) := by
    rw [asking]
    cases answers path <;> rfl
  rw [hrun]
  cases ha : answers path with
  | none => exact ⟨hpassages, nofun⟩
  | some n =>
    refine ⟨hpassages, fun a he => ?_⟩
    cases he
    exact ⟨hanswers path v n m hl ha (hmeans v m hm), fun _ _ => trivial⟩

theorem acc_of_means (hb : b.Regular) (h : b.Means context (fun _ => True) view n) :
    Acc (fun v v' => b.Refers context v' v) view := by
  -- The induction is on the meaning: what is referred to has one, as a part of it.
  induction h with
  | @intro view n s s' loads fragments loaded shared limit parsed ihl ihf =>
    refine .intro view ?_
    rintro view' ⟨answers, hanswers, path, hpath, hl⟩
    let known (path : String) : Prop := ∃ v, b.loader.locate path = .ok v ∧
      ((∃ m, loads v = some m) ∨ ∃ m, fragments v = some m)
    have hresolvers : (covering known).Resolvers (.anywhere Throughout)
        ⟨asking answers, asking answers⟩ ⟨b.answer loads, b.answer fragments⟩ :=
      ⟨fun _ path o _ => asking_covering hanswers loaded
          (fun _ v m hv hm => ⟨v, hv, .inl ⟨m, hm⟩⟩) path o,
        fun _ path o _ => asking_covering hanswers shared
          (fun _ v m hv hm => ⟨v, hv, .inr ⟨m, hm⟩⟩) path o⟩
    have hparse := parse_alike hb context view hresolvers (covering_modify fun _ => rfl) .stage
    have hcovered := (hparse {} (List.forall_mem_nil _) s n s' parsed).1
    obtain ⟨passage, hpassage, rfl⟩ := List.mem_map.mp hpath
    obtain ⟨v, hv, hm⟩ := hcovered passage hpassage
    obtain rfl := Except.ok.inj (hl.symm.trans hv)
    rcases hm with ⟨m, hm⟩ | ⟨m, hm⟩
    · exact ihl view' m hm
    · exact ihf view' m hm

theorem not_cycle_of_acc (h : Acc (fun v v' => b.Refers context v' v) view)
    (hreach : Relation.ReflTransGen (b.Refers context) view view') :
    ¬ Relation.TransGen (b.Refers context) view' view' := by
  have hacc : Acc (fun v v' => b.Refers context v' v) view' := by
    induction hreach with
    | refl => exact h
    | tail _ hstep ih => exact ih.inv hstep
  induction hacc with
  | intro view' _ ih =>
    intro hcycle
    obtain ⟨next, hstep, hback⟩ := Relation.TransGen.head'_iff.mp hcycle
    exact ih next hstep (hreach.tail hstep) (Relation.TransGen.tail' hback hstep)

theorem load_run_ne_ok_of_cycle (hb : b.Regular) (hl : b.loader.Faithful) {path : String}
    (reference : Option Origin) (hv : b.loader.locate path = .ok view)
    (hreach : Relation.ReflTransGen (b.Refers context) view view')
    (hcycle : Relation.TransGen (b.Refers context) view' view') (n : Node) :
    ((b.load context path reference).run {}).1 ≠ .ok n := by
  intro hrun
  have haccounts := loadBy_accounts hb hl context true b.maxDepth [] path reference
  rw [loadBy_true] at haccounts
  obtain ⟨-, -, hok⟩ := haccounts {} trusts_empty _ _ rfl
  obtain ⟨v, hv', hmeans⟩ := hok n hrun
  obtain rfl := Except.ok.inj (hv.symm.trans hv')
  have hacc := acc_of_means hb (hmeans.mono fun _ _ => trivial)
  exact not_cycle_of_acc hacc hreach hcycle

/-- Resolution ends, keeps its stack and rejects every cycle. From a session whose stack is in order,
calls that may nest more often than the limit leaves room for come to what loading comes to,
whatever would be called below them, so nothing is. The stack is in order at every moment, and in
the end it is what it was, also after a failure. Where references lead to a cycle, loading in a
session of its own does not succeed. -/
theorem resolution_ends (limit : Nat) (directives : Directives) (preserve : List Scope → Bool)
    (strict : Bool) (library : Library) (d : Disk) (context : Context)
    (below : String → Option Origin → LoadM Node) (n : Nat) (s : Session)
    (hs : Ready limit s.resolving) (hn : limit < n + s.resolving.length) (path : String)
    (reference : Option Origin) :
    let b := nesting limit directives preserve strict (library.loader d)
    let deep := ((b.loadStep context)^[n] below path reference).run s
    let plain := (b.loadAt context (limit - s.resolving.length) s.resolving path reference).run s
    (deep.1 = plain.1 ∧ deep.2.unlogged = plain.2.unlogged) ∧
      deep.2.resolving = s.resolving ∧
      (∀ log, s.passages <+: log → log <+: deep.2.passages → Ready limit (stackOf log)) ∧
      (s = {} → ∀ view view', b.loader.locate path = .ok view →
        Relation.ReflTransGen (b.Refers context) view view' →
        Relation.TransGen (b.Refers context) view' view' → ∀ root, deep.1 ≠ .ok root) := by
  intro b deep plain
  have hb : b.Regular := nesting_regular limit directives preserve strict (library.loader d)
  obtain ⟨hdeep, -⟩ := iterate_loadStep_tracking hb context below n hs hn path reference s s rfl rfl
  refine ⟨⟨hdeep.outcome, hdeep.rest⟩, hdeep.keeps.stack, hdeep.keeps.ready, ?_⟩
  rintro rfl view view' hv hreach hcycle root
  have hload := load_run_ne_ok_of_cycle hb (library.faithful d) reference hv hreach hcycle root
  rw [hdeep.outcome]
  exact hload

/-- A page that includes a template which extends one that includes it. -/
def knot : Library :=
  .memory [("default:page", "<include:a/>"), ("default:a", "<p/><extends:b/>"),
    ("default:b", "<b><include:a/></b>")]

def knotBuilder : Builder :=
  nesting 3 .builtin (Pass.preserveIn defaultPreserveTags) false (knot.loader (.empty "/"))

def knotView (name : String) : View := ⟨"default/" ++ name ++ ".stm", ⟨"default", name⟩⟩

set_option maxRecDepth 100000 in
theorem knot_refers : knotBuilder.Refers .empty (knotView "page") (knotView "a") ∧
    knotBuilder.Refers .empty (knotView "a") (knotView "b") ∧
    knotBuilder.Refers .empty (knotView "b") (knotView "a") := by
  have hadmits : knotBuilder.Admits .empty fun _ => none := fun _ _ _ _ _ h => nomatch h
  refine ⟨⟨_, hadmits, "a", by decide +kernel, eq_ok_of_toOption (by decide +kernel)⟩,
    ⟨_, hadmits, "b", by decide +kernel, eq_ok_of_toOption (by decide +kernel)⟩,
    ⟨_, hadmits, "a", by decide +kernel, eq_ok_of_toOption (by decide +kernel)⟩⟩

/-- What is never called might as well succeed. -/
def blankPage (_ : String) (_ : Option Origin) : LoadM Node :=
  return .template [] ⟨⟨"", 1, .html, ""⟩, []⟩

theorem resolution_ends_knot : Ready 3 ({} : Session).resolving ∧
    ∀ root, (((knotBuilder.loadStep .empty)^[4] blankPage "page" none).run {}).1 ≠ .ok root := by
  have hready : Ready 3 ({} : Session).resolving := ⟨List.nodup_nil, Nat.zero_le _⟩
  obtain ⟨hpage, ha, hb⟩ := knot_refers
  have hends := resolution_ends 3 .builtin (Pass.preserveIn defaultPreserveTags) false knot
    (.empty "/") .empty blankPage 4 {} hready (by decide) "page" none
  refine ⟨hready, hends.2.2.2 rfl (knotView "page") (knotView "a") ?_ (.single hpage)
    ((Relation.TransGen.single ha).tail hb)⟩
  exact eq_ok_of_toOption (by decide +kernel)

end Builder

end Lamina
