import Lamina.Proofs.Builder.Meaning
import Mathlib.Logic.Function.Iterate

/-! Resolving with a stack that is kept in the session. A call puts its template on the stack and
takes it off again however it ends; the log of the session tells the stack at every moment. Calls
nest no deeper than the limit, so what is below that many calls does not matter. -/

namespace Lamina

/-- The templates being resolved after a log of templates entered and left. -/
def stackOf (log : List Passage) : List String :=
  log.foldl (fun stack p => if p.leaving then stack.dropLast else stack ++ [p.identity]) []

theorem stackOf_concat (log : List Passage) (p : Passage) : stackOf (log ++ [p]) =
    if p.leaving then (stackOf log).dropLast else stackOf log ++ [p.identity] := by
  simp [stackOf]

/-- A stack that a template may be loaded with: no template is on it twice, and it is within the
limit. -/
structure Ready (limit : Nat) (stack : List String) : Prop where
  nodup : stack.Nodup
  within : stack.length ≤ limit

theorem Ready.push {limit : Nat} {stack : List String} (h : Ready limit stack) {identity : String}
    (hnew : identity ∉ stack) (hroom : stack.length < limit) :
    Ready limit (stack ++ [identity]) := by
  refine ⟨?_, ?_⟩
  · refine List.nodup_append.mpr ⟨h.nodup, List.pairwise_singleton _ _, fun x hx y hy he => ?_⟩
    exact hnew (List.mem_singleton.mp hy ▸ he ▸ hx)
  · rw [List.length_append, List.length_singleton]
    exact hroom

namespace Session

def resolving (s : Session) : List String := stackOf s.passages

/-- A template is entered or left. -/
def mark (s : Session) (leaving : Bool) (identity : String) : Session :=
  { s with passages := s.passages ++ [⟨leaving, identity⟩] }

def unlogged (s : Session) : Session := { s with passages := [] }

theorem resolving_mark (s : Session) (leaving : Bool) (identity : String) :
    (s.mark leaving identity).resolving =
      if leaving then s.resolving.dropLast else s.resolving ++ [identity] :=
  stackOf_concat _ _

theorem unlogged_consult (s : Session) (file : String) :
    (s.consult file).unlogged = s.unlogged.consult file := by
  by_cases h : file ∈ s.paths
  · simp [consult, unlogged, h]
  · simp [consult, unlogged, h]

theorem passages_consult (s : Session) (file : String) : (s.consult file).passages = s.passages := by
  rw [consult]
  split <;> rfl

/-- From `s` to `s'` the log has grown, the stack was in order at every moment, and in the end it is
what it was. -/
structure Keeps (limit : Nat) (s s' : Session) : Prop where
  stack : s'.resolving = s.resolving
  grows : s.passages <+: s'.passages
  ready : ∀ log, s.passages <+: log → log <+: s'.passages → Ready limit (stackOf log)

variable {limit : Nat} {s s' s'' : Session}

theorem Keeps.of_passages_eq (h : Ready limit s.resolving) (hv : s'.passages = s.passages) :
    Keeps limit s s' := by
  refine ⟨by rw [resolving, hv, resolving], hv ▸ List.prefix_rfl, fun log hl hl' => ?_⟩
  rw [hv] at hl'
  rw [← List.IsPrefix.eq_of_length_le hl hl'.length_le]
  exact h

theorem Keeps.trans (h : Keeps limit s s') (h' : Keeps limit s' s'') : Keeps limit s s'' := by
  refine ⟨h'.stack.trans h.stack, h.grows.trans h'.grows, fun log hl hl' => ?_⟩
  rcases List.prefix_or_prefix_of_prefix hl' h'.grows with hp | hp
  · exact h.ready log hl hp
  · exact h'.ready log hp hl'

theorem Keeps.around {identity : String} (hs : Ready limit s.resolving)
    (hin : Ready limit (s.mark false identity).resolving)
    (h : Keeps limit (s.mark false identity) s') : Keeps limit s (s'.mark true identity) := by
  have hout : (s'.mark true identity).resolving = s.resolving := by
    rw [resolving_mark, if_pos rfl, h.stack, resolving_mark]
    simp
  have hgrows : s.passages <+: (s.mark false identity).passages := List.prefix_append _ _
  refine ⟨hout, (hgrows.trans h.grows).trans (List.prefix_append _ _), fun log hl hl' => ?_⟩
  -- the moment is the last one, or one before the template was left
  rcases List.prefix_concat_iff.mp hl' with rfl | hl'
  · change Ready limit (s'.mark true identity).resolving
    rw [hout]
    exact hs
  · rcases List.prefix_or_prefix_of_prefix hl' h.grows with hp | hp
    · rcases List.prefix_concat_iff.mp hp with rfl | hp
      · exact hin
      · rw [← List.IsPrefix.eq_of_length_le hl hp.length_le]
        exact hs
    · exact h.ready log hp hl'

end Session

structure Tracks (limit : Nat) (s : Session) {α : Type} (p q : Except Failure α × Session) :
    Prop where
  outcome : p.1 = q.1
  rest : p.2.unlogged = q.2.unlogged
  keeps : s.Keeps limit p.2

def Lockstep.tracking {limit : Nat} {stack : List String} (hstack : Ready limit stack) :
    Lockstep Throughout LoadM where
  holds _ x y Q := ∀ s t, s.resolving = stack → s.unlogged = t.unlogged →
    Tracks limit s (x.run s) (y.run t) ∧ ∀ a, (x.run s).1 = .ok a → Q .stage a
  ofPure hQ s t hs ht := by
    refine ⟨⟨rfl, ht, .of_passages_eq (hs ▸ hstack) rfl⟩, fun a ha => ?_⟩
    cases ha
    exact hQ
  ofBind {α β w x y f g Q R} hx hf s t hs ht := by
    obtain ⟨⟨hr, hrest, hkeeps⟩, hQ⟩ := hx s t hs ht
    rw [run_bind, run_bind]
    cases hxr : x.run s with
    | mk r s₁ =>
      cases hyr : y.run t with
      | mk r' t₁ =>
        rw [hxr] at hr hrest hkeeps hQ
        rw [hyr] at hr hrest
        obtain rfl : r = r' := hr
        cases r with
        | error failure => exact ⟨⟨rfl, hrest, hkeeps⟩, nofun⟩
        | ok a =>
          obtain ⟨⟨hr', hrest', hkeeps'⟩, hR⟩ :=
            hf .stage a trivial (hQ a rfl) s₁ t₁ (hkeeps.stack.trans hs) hrest
          exact ⟨⟨hr', hrest', hkeeps.trans hkeeps'⟩, hR⟩
  ofFailure _ s t hs ht := ⟨⟨rfl, ht, .of_passages_eq (hs ▸ hstack) rfl⟩, nofun⟩

theorem Lockstep.tracking_modify {limit : Nat} {stack : List String} (hstack : Ready limit stack)
    {f : Session → Session} (hpassages : ∀ s, (f s).passages = s.passages)
    (hrest : ∀ s, (f s).unlogged = f s.unlogged) (w : Throughout) :
    (Lockstep.tracking hstack).holds w (modify f) (modify f) fun _ _ => True := by
  intro s t hs ht
  have hsame : (f s).unlogged = (f t).unlogged := by rw [hrest, hrest, ht]
  exact ⟨⟨rfl, hsame, .of_passages_eq (hs ▸ hstack) (hpassages s)⟩, fun _ _ => trivial⟩

namespace Builder

/-- Resolves the template with its identity on the stack, which is taken off again whether that
succeeds or fails. -/
def during (identity : String) (x : LoadM Node) : LoadM Node :=
  ExceptT.mk fun s =>
    let (r, s') := x.run (s.mark false identity)
    (r, s'.mark true identity)

/-- One call of loading: the stack of the session decides, and `load` is called for references. -/
def loadStep (b : Builder) (context : Context) (load : String → Option Origin → LoadM Node)
    (path : String) (reference : Option Origin) : LoadM Node := do
  let view ← b.locate path reference
  let stack := (← get).resolving
  if stack.contains view.identity then
    refuse reference view (.cyclic (stack ++ [view.identity]))
  else if b.maxDepth ≤ stack.length then
    refuse reference view (.tooDeep b.maxDepth)
  else
    modify (·.consult view.filename)
    during view.identity (b.parse context (b.resolver load) view)

variable {b : Builder} {context : Context} {stack : List String}

theorem fragmentVia_tracking (hstack : Ready b.maxDepth stack) {load load' : String → Origin → LoadM Node}
    {path : String} {o : Origin}
    (h : (Lockstep.tracking hstack).holds .stage (load path o) (load' path o) fun _ _ => True) :
    (Lockstep.tracking hstack).holds .stage (b.fragmentVia load path o)
      (b.fragmentVia load' path o) fun _ _ => True := by
  intro s t hs ht
  have hfragments : s.unlogged.fragments = t.unlogged.fragments := congrArg Session.fragments ht
  cases hl : b.loader.locate path with
  | error failure =>
    rw [fragmentVia_run_of_error hl, fragmentVia_run_of_error hl]
    exact h s t hs ht
  | ok view =>
    have hsame : s.fragment? view.identity = t.fragment? view.identity := by
      exact congrArg (fun list : List (String × Node) =>
        (list.find? (·.1 == view.identity)).map (·.2)) hfragments
    cases hf : s.fragment? view.identity with
    | some fragment =>
      rw [fragmentVia_run_of_some hl hf, fragmentVia_run_of_some hl (hsame ▸ hf)]
      exact ⟨⟨rfl, ht, .of_passages_eq (hs ▸ hstack) rfl⟩, fun _ _ => trivial⟩
    | none =>
      rw [fragmentVia_run_of_none hl hf, fragmentVia_run_of_none hl (hsame ▸ hf)]
      have hremember (w : Throughout) (fragment : Node) : (Lockstep.tracking hstack).holds w
          (modify (·.remember view.identity fragment) >>= fun _ => pure fragment)
          (modify (·.remember view.identity fragment) >>= fun _ => pure fragment)
          fun _ _ => True := by
        have hmodify := Lockstep.tracking_modify hstack
          (f := (·.remember view.identity fragment)) (fun _ => rfl) (fun _ => rfl) w
        exact Lockstep.ofBind _ hmodify fun _ _ _ _ => Lockstep.ofPure _ trivial
      exact Lockstep.ofBind _ h (fun w fragment _ _ => hremember w fragment) s t hs ht

theorem resolver_tracking (hstack : Ready b.maxDepth stack)
    {load load' : String → Option Origin → LoadM Node}
    (h : ∀ path reference, (Lockstep.tracking hstack).holds .stage (load path reference)
      (load' path reference) fun _ _ => True) :
    (Lockstep.tracking hstack).Resolvers (.anywhere Throughout) (b.resolver load)
      (b.resolver load') := by
  constructor
  · intro _ path o _
    exact Lockstep.weaken (h path (some o)) fun _ _ _ _ _ _ => trivial
  · intro _ path o _
    have hfragment : (Lockstep.tracking hstack).holds .stage
        (b.fragmentVia (fun path o => load path (some o)) path o)
        (b.fragmentVia (fun path o => load' path (some o)) path o) fun _ _ => True :=
      fragmentVia_tracking hstack (h path (some o))
    exact Lockstep.weaken hfragment fun _ _ _ _ _ _ => trivial

theorem during_tracks {identity : String} {x y : LoadM Node} (hstack : Ready b.maxDepth stack)
    (hpush : Ready b.maxDepth (stack ++ [identity])) {s t : Session} (hs : s.resolving = stack)
    (ht : s.unlogged = t.unlogged)
    (h : (Lockstep.tracking hpush).holds .stage x y fun _ _ => True) :
    Tracks b.maxDepth s ((during identity x).run s) (y.run t) := by
  have hmark : (s.mark false identity).resolving = stack ++ [identity] := by
    rw [Session.resolving_mark, hs]
    rfl
  obtain ⟨⟨hr, hrest, hkeeps⟩, -⟩ := h (s.mark false identity) t hmark ht
  exact ⟨hr, hrest, hkeeps.around (hs ▸ hstack) (hmark ▸ hpush)⟩

theorem locate_lockstep {W : Type} [Preorder W] {L : Lockstep W LoadM} (path : String)
    (reference : Option Origin) (w : W) :
    L.holds w (b.locate path reference) (b.locate path reference) fun _ view =>
      b.loader.locate path = .ok view := by
  unfold locate
  split
  · next hl => exact L.ofPure hl
  · exact L.ofThrow
  · exact L.ofThrow

theorem refuse_lockstep {W : Type} [Preorder W] {L : Lockstep W LoadM} (reference : Option Origin)
    (view : View) (fault : MergeFault) (w : W) :
    L.holds w (refuse reference view fault : LoadM Node) (refuse reference view fault)
      fun _ _ => True := by
  cases reference <;> exact L.ofThrow

theorem iterate_loadStep_tracking (hb : b.Regular) (context : Context)
    (below : String → Option Origin → LoadM Node) (n : Nat) (hstack : Ready b.maxDepth stack)
    (hn : b.maxDepth < n + stack.length) (path : String) (reference : Option Origin) :
    (Lockstep.tracking hstack).holds .stage ((b.loadStep context)^[n] below path reference)
      (b.loadAt context (b.maxDepth - stack.length) stack path reference) fun _ _ => True := by
  -- `n` shrinks while the stack grows, so it is gone only when there is no room on the stack
  induction n generalizing stack path reference with
  | zero =>
    have hwithin := hstack.within
    omega
  | succ n ih =>
    rw [Function.iterate_succ_apply', loadStep, loadAt]
    refine Lockstep.ofBind _ (locate_lockstep path reference Throughout.stage) fun w view _ hl => ?_
    intro s t hs ht
    rw [run_get_bind, hs]
    by_cases hold : stack.contains view.identity = true
    · rw [if_pos hold, if_pos hold]
      exact refuse_lockstep (L := .tracking hstack) reference view _ w s t hs ht
    · rw [if_neg hold, if_neg hold]
      by_cases hfull : b.maxDepth ≤ stack.length
      · have hbudget : b.maxDepth - stack.length = 0 := by omega
        rw [if_pos hfull, hbudget]
        exact refuse_lockstep (L := .tracking hstack) reference view _ w s t hs ht
      · have hbudget : b.maxDepth - stack.length =
            b.maxDepth - (stack ++ [view.identity]).length + 1 := by
          simp only [List.length_append, List.length_singleton]
          omega
        have hpush := hstack.push (by simpa using hold) (Nat.not_le.mp hfull)
        have hroom : b.maxDepth < n + (stack ++ [view.identity]).length := by
          simp only [List.length_append, List.length_singleton]
          omega
        have hnested := resolver_tracking hpush (ih hpush hroom)
        have hnote := Lockstep.tracking_modify hpush (f := (·.noteRead view.identity))
          (fun _ => rfl) (fun _ => rfl)
        have hparse := parse_alike hb context view hnested hnote .stage
        have hconsult : (s.consult view.filename).passages = s.passages := s.passages_consult _
        have hs₁ : (s.consult view.filename).resolving = stack := by
          rw [Session.resolving, hconsult]
          exact hs
        have ht₁ : (s.consult view.filename).unlogged = (t.consult view.filename).unlogged := by
          rw [Session.unlogged_consult, ht, Session.unlogged_consult]
        obtain ⟨hr, hrest, hkeeps⟩ := during_tracks hstack hpush hs₁ ht₁ hparse
        have hstart : Session.Keeps b.maxDepth s (s.consult view.filename) :=
          .of_passages_eq (hs ▸ hstack) hconsult
        rw [if_neg hfull, hbudget]
        exact ⟨⟨hr, hrest, hstart.trans hkeeps⟩, fun _ _ => trivial⟩

end Builder

end Lamina
