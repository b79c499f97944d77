import Lamina.Proofs.Builder.Dependencies
import Lamina.Proofs.Builder.Meaning

/-! Fragments that a session remembers do not show. What it remembers are meanings, whatever was
loaded before and however that ended; so a template that loads in a session of its own, or with
every import resolved anew, loads to the same tree in any session. -/

namespace Lamina

def Session.Knows (s : Session) (identity : String) : Prop := ∃ n, (identity, n) ∈ s.fragments

/-- The identities that fragments may have: those remembered, if fragments are shared at all. -/
def Session.Covers (reuse : Bool) (s : Session) (identity : String) : Prop :=
  reuse = true → s.Knows identity

namespace Session

variable {s s' : Session}

theorem knows_consult (s : Session) (file : String) : (s.consult file).Knows = s.Knows := by
  funext identity
  rw [Knows, fragments_consult, Knows]

theorem knows_of_fragment? {identity : String} {n : Node} (h : s.fragment? identity = some n) :
    s.Knows identity := ⟨n, mem_of_fragment? h⟩

theorem exists_fragment? {identity : String} (h : s.Knows identity) :
    ∃ n, s.fragment? identity = some n := by
  obtain ⟨n, hn⟩ := h
  have hsome : (s.fragments.find? (·.1 == identity)).isSome = true :=
    List.find?_isSome.mpr ⟨_, hn, by simp⟩
  obtain ⟨p, hp⟩ := Option.isSome_iff_exists.mp hsome
  exact ⟨p.2, by rw [fragment?, hp]; rfl⟩

theorem knows_remember {identity identity' : String} {n : Node} :
    (s.remember identity n).Knows identity' ↔ identity' = identity ∨ s.Knows identity' := by
  simp [Knows, remember, exists_or]

theorem Covers.mono {reuse : Bool} (h : s.Knows ≤ s'.Knows) : s.Covers reuse ≤ s'.Covers reuse :=
  fun identity hc hr => h identity (hc hr)

end Session

namespace Builder

variable {b : Builder} {context : Context} {reuse : Bool} {path : String} {view : View} {n : Node}
  {s s' t t' : Session}

def fragmentBy (b : Builder) (reuse : Bool) (load : String → Origin → LoadM Node) :
    String → Origin → LoadM Node :=
  if reuse then b.fragmentVia load else load

/-- Loads the template that `path` names, with or without the fragments of the session. -/
def loadBy (b : Builder) (reuse : Bool) (context : Context) (budget : Nat) (chain : List String)
    (path : String) (reference : Option Origin) : LoadM Node := do
  let view ← b.locate path reference
  if chain.contains view.identity then
    refuse reference view (.cyclic (chain ++ [view.identity]))
  else
    match budget with
    | 0 => refuse reference view (.tooDeep b.maxDepth)
    | budget + 1 =>
      modify (·.consult view.filename)
      let load path (o : Origin) :=
        b.loadBy reuse context budget (chain ++ [view.identity]) path (some o)
      b.parse context ⟨load, b.fragmentBy reuse load⟩ view

theorem loadBy_true (b : Builder) : b.loadBy true = b.loadAt := by
  funext context budget
  induction budget with
  | zero =>
    funext chain path reference
    rw [loadBy, loadAt]
  | succ budget ih =>
    funext chain path reference
    rw [loadBy, loadAt]
    simp only [ih]
    rfl

/-- Loads a template and resolves every import anew. -/
def loadAnew (b : Builder) (context : Context) (path : String) (reference : Option Origin) :
    LoadM Node :=
  b.loadBy false context b.maxDepth [] path reference

theorem refuse_run (reference : Option Origin) (view : View) (fault : MergeFault) :
    ∃ failure, ∀ s, (refuse reference view fault : LoadM Node).run s = (.error failure, s) := by
  cases reference <;> exact ⟨_, fun _ => rfl⟩

theorem loadBy_cases (b : Builder) (context : Context) (budget : Nat) (chain : List String)
    (path : String) (reference : Option Origin) :
    (∃ failure, ∀ reuse s, (b.loadBy reuse context budget chain path reference).run s =
      (.error failure, s)) ∨
    ∃ view k, b.loader.locate path = .ok view ∧ budget = k + 1 ∧ ∀ reuse s,
      (b.loadBy reuse context budget chain path reference).run s =
        (b.parse context
          ⟨fun path o => b.loadBy reuse context k (chain ++ [view.identity]) path (some o),
            b.fragmentBy reuse fun path o =>
              b.loadBy reuse context k (chain ++ [view.identity]) path (some o)⟩ view).run
          (s.consult view.filename) := by
  cases hl : b.loader.locate path with
  | error failure =>
    have hlocate : ∃ failure, b.locate path reference = throw failure := by
      unfold locate
      rw [hl]
      cases reference <;> exact ⟨_, rfl⟩
    obtain ⟨failure, hlocate⟩ := hlocate
    refine .inl ⟨failure, fun reuse s => ?_⟩
    rw [loadBy, hlocate]
    rfl
  | ok view =>
    by_cases hc : chain.contains view.identity = true
    · obtain ⟨failure, hrefuse⟩ := refuse_run reference view (.cyclic (chain ++ [view.identity]))
      refine .inl ⟨failure, fun reuse s => ?_⟩
      rw [loadBy, locate_eq hl, pure_bind, if_pos hc, hrefuse]
    · cases budget with
      | zero =>
        obtain ⟨failure, hrefuse⟩ := refuse_run reference view (.tooDeep b.maxDepth)
        refine .inl ⟨failure, fun reuse s => ?_⟩
        rw [loadBy, locate_eq hl, pure_bind, if_neg hc]
        exact hrefuse s
      | succ k =>
        refine .inr ⟨view, k, rfl, rfl, fun reuse s => ?_⟩
        rw [loadBy, locate_eq hl, pure_bind, if_neg hc]
        rfl

/-- What the session remembers are meanings, and the fragments they were made with are remembered
as well. -/
def Trusts (b : Builder) (context : Context) (s : Session) : Prop :=
  ∀ path view n, b.loader.locate path = .ok view → (view.identity, n) ∈ s.fragments →
    b.Means context s.Knows view n

namespace Trusts

theorem congr (h : b.Trusts context s) (hf : s'.fragments = s.fragments) :
    b.Trusts context s' := by
  have hknows : s'.Knows = s.Knows := by
    funext identity
    rw [Session.Knows, hf, Session.Knows]
  intro path view n hl hm
  rw [hf] at hm
  rw [hknows]
  exact h path view n hl hm

theorem remember (hl : b.loader.Faithful) (h : b.Trusts context s)
    (hv : b.loader.locate path = .ok view) (hm : b.Means context s.Knows view n) :
    b.Trusts context (s.remember view.identity n) := by
  have hknows : s.Knows ≤ (s.remember view.identity n).Knows :=
    fun identity hk => Session.knows_remember.mpr (.inr hk)
  intro path' view' n' hv' hmem
  rcases List.mem_cons.mp hmem with he | hmem
  · obtain ⟨hi, rfl⟩ := Prod.mk.injEq .. ▸ he
    rw [hl path' path view' view hv' hv hi]
    exact hm.mono hknows
  · exact (h path' view' n' hv' hmem).mono hknows

end Trusts

/-- Loading keeps to meanings, also where it fails: what it adds to the session is one, and so is
what it gives. -/
def Accounts (b : Builder) (context : Context) (reuse : Bool) (path : String) (x : LoadM Node) :
    Prop :=
  ∀ s, b.Trusts context s → ∀ r s', x.run s = (r, s') →
    b.Trusts context s' ∧ s.Knows ≤ s'.Knows ∧ ∀ n, r = .ok n →
      ∃ view, b.loader.locate path = .ok view ∧ b.Means context (s'.Covers reuse) view n

/-- The same for any steps, where `y` answers by the meanings of what is known in the end. -/
def accounting (b : Builder) (context : Context) (reuse : Bool) (known : String → Prop) :
    Lockstep Throughout LoadM where
  holds _ x y Q := ∀ s, b.Trusts context s → ∀ r s', x.run s = (r, s') →
    b.Trusts context s' ∧ s.Knows ≤ s'.Knows ∧ ∀ a, r = .ok a →
      Q .stage a ∧ (s'.Covers reuse ≤ known → ∀ t, ∃ t', y.run t = (.ok a, t'))
  ofPure hQ s hs r s' hr := by
    cases hr
    refine ⟨hs, le_rfl, fun a ha => ?_⟩
    cases ha
    exact ⟨hQ, fun _ t => ⟨t, rfl⟩⟩
  ofBind {α β w x y f g Q R} hx hf s hs r s' hr := by
    rw [run_bind] at hr
    cases hxr : x.run s with
    | mk outcome s₁ =>
      rw [hxr] at hr
      obtain ⟨hs₁, hle₁, hx₁⟩ := hx s hs outcome s₁ hxr
      cases outcome with
      | error failure =>
        cases hr
        exact ⟨hs₁, hle₁, nofun⟩
      | ok a =>
        obtain ⟨ha, hy⟩ := hx₁ a rfl
        obtain ⟨hs', hle', hf'⟩ := hf .stage a trivial ha s₁ hs₁ r s' hr
        refine ⟨hs', hle₁.trans hle', fun c hc => ?_⟩
        obtain ⟨hc, hg⟩ := hf' c hc
        refine ⟨hc, fun hk t => ?_⟩
        obtain ⟨t₁, hyr⟩ := hy ((Session.Covers.mono hle').trans hk) t
        obtain ⟨t', hgr⟩ := hg hk t₁
        exact ⟨t', run_bind_eq_ok.mpr ⟨a, t₁, hyr, hgr⟩⟩
  ofFailure _ s hs r s' hr := by
    cases hr
    exact ⟨hs, le_rfl, nofun⟩

theorem fragmentVia_run_eq_ok {load : String → Origin → LoadM Node} {o : Origin}
    (hv : b.loader.locate path = .ok view)
    (h : (b.fragmentVia load path o).run s = (.ok n, s')) :
    (s.fragment? view.identity = some n ∧ s' = s) ∨
      (s.fragment? view.identity = none ∧
        ∃ s₁, (load path o).run s = (.ok n, s₁) ∧ s' = s₁.remember view.identity n) := by
  cases hf : s.fragment? view.identity with
  | some fragment =>
    rw [fragmentVia_run_of_some hv hf] at h
    cases h
    exact .inl ⟨rfl, rfl⟩
  | none =>
    rw [fragmentVia_run_of_none hv hf] at h
    obtain ⟨fragment, s₁, hx, h⟩ := run_bind_eq_ok.mp h
    cases h
    exact .inr ⟨rfl, s₁, hx, rfl⟩

theorem fragmentBy_accounts (hl : b.loader.Faithful) {load : String → Origin → LoadM Node}
    {o : Origin} (hload : b.Accounts context reuse path (load path o)) (hs : b.Trusts context s)
    {r : Except Failure Node} (hr : (b.fragmentBy reuse load path o).run s = (r, s')) :
    b.Trusts context s' ∧ s.Knows ≤ s'.Knows ∧ ∀ n, r = .ok n →
      ∃ view, b.loader.locate path = .ok view ∧ s'.Covers reuse view.identity ∧
        b.Means context (s'.Covers reuse) view n := by
  cases reuse with
  | false =>
    obtain ⟨hs', hle, hok⟩ := hload s hs r s' hr
    refine ⟨hs', hle, fun n hn => ?_⟩
    obtain ⟨view, hv, hm⟩ := hok n hn
    exact ⟨view, hv, nofun, hm⟩
  | true =>
    replace hr : (b.fragmentVia load path o).run s = (r, s') := hr
    cases hv : b.loader.locate path with
    | error failure =>
      rw [fragmentVia_run_of_error hv] at hr
      obtain ⟨hs', hle, hok⟩ := hload s hs r s' hr
      refine ⟨hs', hle, fun n hn => ?_⟩
      obtain ⟨view, hv', -⟩ := hok n hn
      rw [hv] at hv'
      cases hv'
    | ok view =>
      cases hf : s.fragment? view.identity with
      | some fragment =>
        rw [fragmentVia_run_of_some hv hf] at hr
        cases hr
        refine ⟨hs, le_rfl, fun n hn => ?_⟩
        cases hn
        have hmeans := hs path view fragment hv (Session.mem_of_fragment? hf)
        exact ⟨view, rfl, fun _ => Session.knows_of_fragment? hf, hmeans.mono fun _ hk _ => hk⟩
      | none =>
        rw [fragmentVia_run_of_none hv hf, run_bind] at hr
        cases hx : (load path o).run s with
        | mk outcome s₁ =>
          rw [hx] at hr
          obtain ⟨hs₁, hle, hok⟩ := hload s hs outcome s₁ hx
          cases outcome with
          | error failure =>
            cases hr
            exact ⟨hs₁, hle, nofun⟩
          | ok n =>
            cases hr
            obtain ⟨view', hv', hm⟩ := hok n rfl
            obtain rfl := Except.ok.inj (hv.symm.trans hv')
            replace hm : b.Means context s₁.Knows view n := hm.mono fun _ hk => hk rfl
            have hknows : s₁.Knows ≤ (s₁.remember view.identity n).Knows :=
              fun identity hk => Session.knows_remember.mpr (.inr hk)
            refine ⟨hs₁.remember hl hv hm, hle.trans hknows, fun m hm' => ?_⟩
            cases hm'
            exact ⟨view, rfl, fun _ => Session.knows_remember.mpr (.inl rfl),
              hm.mono fun identity hk _ => hknows identity hk⟩

theorem accounting_modify {known : String → Prop} {f : Session → Session}
    (h : ∀ s, (f s).fragments = s.fragments) (w : Throughout) :
    (b.accounting context reuse known).holds w (modify f) (modify f) fun _ _ => True := by
  intro s hs r s' hr
  cases hr
  refine ⟨hs.congr (h s), fun identity hk => ?_, fun a ha => ?_⟩
  · rw [Session.Knows, h s]
    exact hk
  · cases ha
    exact ⟨trivial, fun _ t => ⟨f t, rfl⟩⟩

theorem resolvers_accounting (hb : b.Regular) (hl : b.loader.Faithful)
    {load : String → Origin → LoadM Node}
    (hload : ∀ path o, b.Accounts context reuse path (load path o)) (known : String → Prop) :
    (b.accounting context reuse known).Resolvers (.anywhere Throughout) ⟨load, b.fragmentBy reuse load⟩
      ⟨b.answer (b.meaning? context known), b.answer (b.knownMeaning? context known)⟩ := by
  constructor
  · intro _ path o _ s hs r s' hr
    obtain ⟨hs', hle, hok⟩ := hload path o s hs r s' hr
    refine ⟨hs', hle, fun n hn => ⟨fun _ _ => trivial, fun hknown t => ⟨t, ?_⟩⟩⟩
    obtain ⟨view, hv, hm⟩ := hok n hn
    have hmeaning := (meaning?_eq_some_iff hb).mpr (hm.mono hknown)
    exact (answer_run_eq_ok o).mpr ⟨rfl, view, hv, hmeaning⟩
  · intro _ path o _ s hs r s' hr
    obtain ⟨hs', hle, hok⟩ := fragmentBy_accounts hl (hload path o) hs hr
    refine ⟨hs', hle, fun n hn => ⟨fun _ _ => trivial, fun hknown t => ⟨t, ?_⟩⟩⟩
    obtain ⟨view, hv, hc, hm⟩ := hok n hn
    have hmeaning := (knownMeaning?_eq_some_iff hb).mpr ⟨hknown _ hc, hm.mono hknown⟩
    exact (answer_run_eq_ok o).mpr ⟨rfl, view, hv, hmeaning⟩

theorem loadBy_accounts (hb : b.Regular) (hl : b.loader.Faithful) (context : Context)
    (reuse : Bool) (budget : Nat) (chain : List String) (path : String)
    (reference : Option Origin) :
    b.Accounts context reuse path (b.loadBy reuse context budget chain path reference) := by
  induction budget using Nat.strongRecOn generalizing chain path reference with
  | ind budget ih =>
    intro s hs r s' hr
    rcases b.loadBy_cases context budget chain path reference with
      ⟨failure, hrun⟩ | ⟨view, k, hv, rfl, hrun⟩
    · rw [hrun] at hr
      cases hr
      exact ⟨hs, le_rfl, nofun⟩
    · rw [hrun] at hr
      -- The answers are compared with meanings by what is known in the end, which covers all that
      -- was known on the way.
      have hresolvers := resolvers_accounting hb hl
        (fun path o => ih k k.lt_succ_self (chain ++ [view.identity]) path (some o))
        (s'.Covers reuse)
      have hparse := parse_alike hb context view hresolvers (accounting_modify fun _ => rfl) .stage
      have hconsult : b.Trusts context (s.consult view.filename) :=
        hs.congr (s.fragments_consult view.filename)
      obtain ⟨hs', hle, hok⟩ := hparse _ hconsult r s' hr
      rw [Session.knows_consult] at hle
      refine ⟨hs', hle, fun n hn => ⟨view, hv, ?_⟩⟩
      obtain ⟨t', hmeans⟩ := (hok n hn).2 le_rfl {}
      exact means_of_parse hb hmeans

def Within (b : Builder) (context : Context) (allowed : String → Prop) (path : String)
    (x : LoadM Node) : Prop :=
  ∀ s n s' view m, b.Trusts context s → s.Knows ≤ allowed → x.run s = (.ok n, s') →
    b.loader.locate path = .ok view → b.Means context allowed view m → s'.Knows ≤ allowed

theorem resolvers_within (hb : b.Regular) (hl : b.loader.Faithful) {allowed : String → Prop}
    {load : String → Origin → LoadM Node}
    (hload : ∀ path o, b.Accounts context true path (load path o))
    (hwithin : ∀ path o, b.Within context allowed path (load path o))
    {loads fragments : View → Option Node}
    (loaded : ∀ v m, loads v = some m → b.Means context allowed v m)
    (shared : ∀ v m, fragments v = some m → b.Means context allowed v m)
    (limit : ∀ v m, fragments v = some m → allowed v.identity) :
    (Lockstep.agreeing fun s => b.Trusts context s ∧ s.Knows ≤ allowed).Resolvers (.anywhere Throughout)
      ⟨load, b.fragmentBy true load⟩ ⟨b.answer loads, b.answer fragments⟩ := by
  constructor
  · rintro _ path o - s ⟨hs, ha⟩ n s' hr t m t' hr'
    obtain ⟨-, view, hv, hm⟩ := (answer_run_eq_ok o).mp hr'
    have hm := loaded view m hm
    obtain ⟨hs', -, hok⟩ := hload path o s hs _ s' hr
    obtain ⟨view', hv', hn⟩ := hok n rfl
    obtain rfl := Except.ok.inj (hv.symm.trans hv')
    exact ⟨hn.unique hb hm, ⟨hs', hwithin path o s n s' view m hs ha hr hv hm⟩, fun _ _ => trivial⟩
  · rintro _ path o - s ⟨hs, ha⟩ n s' hr t m t' hr'
    obtain ⟨-, view, hv, hfragment⟩ := (answer_run_eq_ok o).mp hr'
    have hm := shared view m hfragment
    obtain ⟨hs', -, hok⟩ := fragmentBy_accounts hl (hload path o) hs hr
    obtain ⟨view', hv', -, hn⟩ := hok n rfl
    obtain rfl := Except.ok.inj (hv.symm.trans hv')
    refine ⟨hn.unique hb hm, ⟨hs', ?_⟩, fun _ _ => trivial⟩
    rcases fragmentVia_run_eq_ok hv hr with ⟨-, rfl⟩ | ⟨-, s₁, hx, rfl⟩
    · exact ha
    · have ha₁ := hwithin path o s n s₁ view m hs ha hx hv hm
      intro identity hk
      rcases Session.knows_remember.mp hk with rfl | hk
      · exact limit view m hfragment
      · exact ha₁ identity hk

theorem loadBy_within (hb : b.Regular) (hl : b.loader.Faithful) (context : Context)
    (allowed : String → Prop) (budget : Nat) (chain : List String) (path : String)
    (reference : Option Origin) :
    b.Within context allowed path (b.loadBy true context budget chain path reference) := by
  induction budget using Nat.strongRecOn generalizing chain path reference with
  | ind budget ih =>
    intro s n s' view m hs ha hr hv hm
    rcases b.loadBy_cases context budget chain path reference with
      ⟨failure, hrun⟩ | ⟨view', k, hv', rfl, hrun⟩
    · rw [hrun] at hr
      cases hr
    · obtain rfl := Except.ok.inj (hv.symm.trans hv')
      rw [hrun] at hr
      cases hm with
      | intro loads fragments loaded shared limit parsed =>
        have hresolvers := resolvers_within hb hl
          (fun path o => loadBy_accounts hb hl context true k (chain ++ [view.identity]) path (some o))
          (fun path o => ih k k.lt_succ_self (chain ++ [view.identity]) path (some o))
          loaded shared limit
        have hnote := Lockstep.agreeing_modify
          (I := fun s => b.Trusts context s ∧ s.Knows ≤ allowed)
          (f := (·.noteRead view.identity)) fun s hs => ⟨hs.1.congr rfl, hs.2⟩
        have hparse := parse_alike hb context view hresolvers hnote .stage
        have hconsult : b.Trusts context (s.consult view.filename) ∧
            (s.consult view.filename).Knows ≤ allowed := by
          rw [Session.knows_consult]
          exact ⟨hs.congr (s.fragments_consult view.filename), ha⟩
        exact (hparse _ hconsult _ _ hr _ _ _ parsed).2.1.2

/-- Two sessions that hold meanings; if fragments are shared, the second has those of the first. -/
structure Behind (b : Builder) (context : Context) (reuse : Bool) (s t : Session) : Prop where
  first : b.Trusts context s
  second : b.Trusts context t
  knows : reuse = true → s.Knows ≤ t.Knows

theorem Behind.congr (h : b.Behind context reuse s t) (hs : s'.fragments = s.fragments)
    (ht : t'.fragments = t.fragments) : b.Behind context reuse s' t' := by
  refine ⟨h.first.congr hs, h.second.congr ht, fun hr identity hk => ?_⟩
  rw [Session.Knows, hs] at hk
  rw [Session.Knows, ht]
  exact h.knows hr identity hk

theorem fragmentBy_simulates (hb : b.Regular) (hl : b.loader.Faithful)
    {load load' : String → Origin → LoadM Node} {o : Origin}
    (hload : b.Accounts context reuse path (load path o))
    (hload' : b.Accounts context true path (load' path o))
    (hwithin : reuse = true → ∀ allowed, b.Within context allowed path (load path o))
    (hsim : (Lockstep.simulating (b.Behind context reuse)).holds .stage (load path o) (load' path o)
      fun _ _ => True) :
    (Lockstep.simulating (b.Behind context reuse)).holds .stage (b.fragmentBy reuse load path o)
      (b.fragmentBy true load' path o) fun _ _ => True := by
  intro s t h n s' hr
  obtain ⟨hs', -, hok⟩ := fragmentBy_accounts hl hload h.first hr
  obtain ⟨view, hv, -, hn⟩ := hok n rfl
  cases hf : t.fragment? view.identity with
  | some m =>
    -- Remembered here; loaded or remembered there. Both are meanings of the view.
    have hm := h.second path view m hv (Session.mem_of_fragment? hf)
    obtain rfl := hn.unique hb hm
    refine ⟨t, fragmentVia_run_of_some hv hf o, ⟨hs', h.second, fun hreuse => ?_⟩, trivial⟩
    subst hreuse
    rcases fragmentVia_run_eq_ok hv hr with ⟨-, rfl⟩ | ⟨-, s₁, hx, rfl⟩
    · exact h.knows rfl
    · -- The fragments loaded with it are among those of the remembered one.
      have hknows := hwithin rfl t.Knows s n s₁ view n h.first (h.knows rfl) hx hv hm
      intro identity hk
      rcases Session.knows_remember.mp hk with rfl | hk
      · exact Session.knows_of_fragment? hf
      · exact hknows identity hk
  | none =>
    -- What is not remembered here is not remembered there either, so both load.
    have hloaded : ∃ s₁, (load path o).run s = (.ok n, s₁) ∧ ∀ identity, reuse = true →
        s'.Knows identity → identity = view.identity ∨ s₁.Knows identity := by
      cases reuse with
      | false => exact ⟨s', hr, nofun⟩
      | true =>
        rcases fragmentVia_run_eq_ok hv hr with ⟨hfs, rfl⟩ | ⟨-, s₁, hx, rfl⟩
        · obtain ⟨m, hm⟩ := Session.exists_fragment?
            (h.knows rfl _ (Session.knows_of_fragment? hfs))
          rw [hf] at hm
          cases hm
        · exact ⟨s₁, hx, fun _ _ => Session.knows_remember.mp⟩
    obtain ⟨s₁, hx, hknows⟩ := hloaded
    obtain ⟨t₁, hy, h₁, -⟩ := hsim s t h n s₁ hx
    obtain ⟨-, -, hok'⟩ := hload' t h.second _ t₁ hy
    obtain ⟨view', hv', hm⟩ := hok' n rfl
    obtain rfl := Except.ok.inj (hv.symm.trans hv')
    have ht₁ := h₁.second.remember hl hv (hm.mono fun _ hk => hk rfl)
    refine ⟨t₁.remember view.identity n, ?_, ⟨hs', ht₁, fun hreuse identity hk => ?_⟩, trivial⟩
    · exact (fragmentVia_run_of_none hv hf o).trans (run_bind_eq_ok.mpr ⟨n, t₁, hy, rfl⟩)
    · refine Session.knows_remember.mpr ?_
      exact (hknows identity hreuse hk).imp_right (h₁.knows hreuse identity)

theorem loadBy_simulates (hb : b.Regular) (hl : b.loader.Faithful) (context : Context)
    (reuse : Bool) (budget : Nat) (chain : List String) (path : String)
    (reference : Option Origin) :
    (Lockstep.simulating (b.Behind context reuse)).holds .stage
      (b.loadBy reuse context budget chain path reference)
      (b.loadBy true context budget chain path reference) fun _ _ => True := by
  induction budget using Nat.strongRecOn generalizing chain path reference with
  | ind budget ih =>
    intro s t h n s' hr
    rcases b.loadBy_cases context budget chain path reference with
      ⟨failure, hrun⟩ | ⟨view, k, hv, rfl, hrun⟩
    · rw [hrun] at hr
      cases hr
    · rw [hrun] at hr
      rw [hrun]
      let load reuse path (o : Origin) :=
        b.loadBy reuse context k (chain ++ [view.identity]) path (some o)
      have hsim (path : String) (o : Origin) :=
        ih k k.lt_succ_self (chain ++ [view.identity]) path (some o)
      have hresolvers : (Lockstep.simulating (b.Behind context reuse)).Resolvers (.anywhere Throughout)
          ⟨load reuse, b.fragmentBy reuse (load reuse)⟩ ⟨load true, b.fragmentBy true (load true)⟩ := by
        constructor
        · intro _ path o _
          exact Lockstep.weaken (hsim path o) fun _ _ _ _ _ _ => trivial
        · intro _ path o _
          refine Lockstep.weaken (fragmentBy_simulates hb hl ?_ ?_ ?_ (hsim path o))
            fun _ _ _ _ _ _ => trivial
          · exact loadBy_accounts hb hl context reuse k _ path (some o)
          · exact loadBy_accounts hb hl context true k _ path (some o)
          · rintro rfl allowed
            exact loadBy_within hb hl context allowed k _ path (some o)
      have hnote := Lockstep.simulating_modify (R := b.Behind context reuse)
        (f := (·.noteRead view.identity)) fun s t h => h.congr rfl rfl
      have hconsult : b.Behind context reuse (s.consult view.filename)
          (t.consult view.filename) :=
        h.congr (s.fragments_consult _) (t.fragments_consult _)
      exact parse_alike hb context view hresolvers hnote .stage _ _ hconsult n s' hr

/-- The session after loads, one after the other, whether they succeed or not. -/
def loads (b : Builder) (context : Context) (history : List (String × Option Origin)) : Session :=
  history.foldl (fun s request => ((b.load context request.1 request.2).run s).2) {}

theorem trusts_empty : b.Trusts context {} := fun _ _ _ _ hm => nomatch hm

theorem trusts_loads (hb : b.Regular) (hl : b.loader.Faithful) (context : Context)
    (history : List (String × Option Origin)) : b.Trusts context (b.loads context history) := by
  have hstep (s : Session) (hs : b.Trusts context s) : b.Trusts context
      (history.foldl (fun s request => ((b.load context request.1 request.2).run s).2) s) := by
    induction history generalizing s with
    | nil => exact hs
    | cons request rest ih =>
      refine ih _ ?_
      have hload := loadBy_accounts hb hl context true b.maxDepth [] request.1 request.2
      rw [loadBy_true] at hload
      exact (hload s hs _ _ rfl).1
  exact hstep {} trusts_empty

theorem load_of_loadBy (hb : b.Regular) (hl : b.loader.Faithful) (reuse : Bool)
    {reference : Option Origin}
    (h : ((b.loadBy reuse context b.maxDepth [] path reference).run {}).1 = .ok n)
    (ht : b.Trusts context t) : ((b.load context path reference).run t).1 = .ok n := by
  have hbehind : b.Behind context reuse {} t := ⟨trusts_empty, ht, fun _ _ ⟨_, hm⟩ => nomatch hm⟩
  have hsim := loadBy_simulates hb hl context reuse b.maxDepth [] path reference
  rw [loadBy_true] at hsim
  obtain ⟨t', hrun, -⟩ := hsim {} t hbehind n _ (Prod.ext h rfl)
  exact congrArg Prod.fst hrun

/-- The fragments that a session remembers do not show. Whatever was loaded in it before, with or
without success, a template that loads in a new session loads to the same tree, and so does one
that loads with every import resolved anew. -/
theorem fragments_are_transparent (limit : Nat) (directives : Directives)
    (preserve : List Scope → Bool) (strict : Bool) (library : Library) (d : Disk)
    (context : Context) (history : List (String × Option Origin)) (path : String)
    (reference : Option Origin) (n : Node)
    (h : (((nesting limit directives preserve strict (library.loader d)).load context path
        reference).run {}).1 = .ok n ∨
      (((nesting limit directives preserve strict (library.loader d)).loadAnew context path
        reference).run {}).1 = .ok n) :
    (((nesting limit directives preserve strict (library.loader d)).load context path reference).run
      ((nesting limit directives preserve strict (library.loader d)).loads context history)).1 =
        .ok n := by
  have hb := nesting_regular limit directives preserve strict (library.loader d)
  have hl : (nesting limit directives preserve strict (library.loader d)).loader.Faithful :=
    library.faithful d
  have ht := trusts_loads hb hl context history
  rcases h with h | h
  · refine load_of_loadBy hb hl true ?_ ht
    rw [loadBy_true]
    exact h
  · exact load_of_loadBy hb hl false h ht

/-- A page with two cards, and one that fails after its card. -/
def album : Library :=
  .memory [("default:card", "<b>$\x7btitle\x7d</b>"),
    ("default:broken", "<include:card title=\"x\"/><include:lost/>"),
    ("default:page", "<include:card title=\"y\"/><p><include:card title=\"z\"/></p>")]

def albumBuilder : Builder := default (album.loader (.empty "/"))

def albumSession : Session := albumBuilder.loads .empty [("broken", none)]

set_option maxRecDepth 100000 in
theorem fragments_are_transparent_album :
    albumSession.fragments.map (·.1) = ["default:card"] ∧
      ∃ n, ((albumBuilder.load .empty "page" none).run {}).1 = .ok n ∧
        ((albumBuilder.loadAnew .empty "page" none).run {}).1 = .ok n ∧
        ((albumBuilder.load .empty "page" none).run albumSession).1 = .ok n := by
  have hkept : albumSession.fragments.map (·.1) = ["default:card"] := by decide +kernel
  have hloads : (((albumBuilder.load .empty "page" none).run {}).1.toOption.isSome &&
      ((albumBuilder.loadAnew .empty "page" none).run {}).1.toOption.isSome) = true := by
    decide +kernel
  obtain ⟨hfresh, hanew⟩ := Bool.and_eq_true_iff.mp hloads
  obtain ⟨n, hn⟩ := Option.isSome_iff_exists.mp hfresh
  obtain ⟨m, hm⟩ := Option.isSome_iff_exists.mp hanew
  have transparent (n : Node)
      (h : ((albumBuilder.load .empty "page" none).run {}).1 = .ok n ∨
        ((albumBuilder.loadAnew .empty "page" none).run {}).1 = .ok n) :
      ((albumBuilder.load .empty "page" none).run albumSession).1 = .ok n :=
    fragments_are_transparent defaultMaxDepth .builtin (Pass.preserveIn defaultPreserveTags) false
      album (.empty "/") .empty [("broken", none)] "page" none n h
  have hn := eq_ok_of_toOption hn
  have hm := eq_ok_of_toOption hm
  have hsame := (transparent n (.inl hn)).symm.trans (transparent m (.inr hm))
  obtain rfl := Except.ok.inj hsame
  exact ⟨hkept, n, hn, hm, transparent n (.inl hn)⟩

end Builder

end Lamina
