import Lamina.Proofs.Text
import Lamina.Token.Scan
import Mathlib.Data.List.Infix

/-! Text that can stand between delimiters. Its string literals are terminated, and the brackets
outside of them balance; the scanners then stop at the delimiter behind it and nowhere before. -/

namespace Lamina.Scan

open Lamina.Text

def Quoting.next (q : Quoting) (c : Char) : Quoting :=
  match q with
  | outside => if isQuote c then inside c else outside
  | inside quote => inLiteral quote c
  | escaped quote => inside quote

def Quoting.after (q : Quoting) (s : List Char) : Quoting := s.foldl next q

/-- The characters of a text that are in no string literal. The quote that opens a literal is still
outside of it. -/
def unquoted (q : Quoting) : List Char → List Char
  | [] => []
  | c :: s => if q = .outside then c :: unquoted (q.next c) s else unquoted (q.next c) s

/-- Literals are terminated, and outside of them brackets balance once `depth` open ones are closed:
no closing bracket comes too early, and none is missing at the end. -/
structure Closes (opening closing : Char) (q : Quoting) (depth : Nat) (s : List Char) : Prop where
  terminated : q.after s = .outside
  covered : ∀ t, t <+: unquoted q s → t.count closing ≤ depth + t.count opening
  level : (unquoted q s).count closing = depth + (unquoted q s).count opening

instance (opening closing : Char) (q : Quoting) (depth : Nat) (s : List Char) :
    Decidable (Closes opening closing q depth s) :=
  decidable_of_iff (q.after s = .outside ∧
      (∀ t ∈ (unquoted q s).inits, t.count closing ≤ depth + t.count opening) ∧
      (unquoted q s).count closing = depth + (unquoted q s).count opening)
    ⟨fun h => ⟨h.1, fun t ht => h.2.1 t ((List.mem_inits t _).mpr ht), h.2.2⟩,
      fun h => ⟨h.terminated, fun t ht => h.covered t ((List.mem_inits t _).mp ht), h.level⟩⟩

/-- Text with terminated literals and balanced brackets outside of them. -/
def Balanced (opening closing : Char) (s : List Char) : Prop := Closes opening closing .outside 0 s

instance (opening closing : Char) (s : List Char) : Decidable (Balanced opening closing s) :=
  inferInstanceAs (Decidable (Closes opening closing .outside 0 s))

namespace Closes

variable {opening closing c : Char} {q : Quoting} {depth : Nat} {s : List Char}

theorem nil_iff : Closes opening closing q depth [] ↔ q = .outside ∧ depth = 0 := by
  constructor
  · intro h
    have hlevel : 0 = depth + 0 := h.level
    exact ⟨h.terminated, by omega⟩
  · rintro ⟨rfl, rfl⟩
    refine ⟨rfl, fun t ht => ?_, rfl⟩
    rw [List.prefix_nil.mp ht]
    rfl

theorem quoted_iff (hq : q ≠ .outside) :
    Closes opening closing q depth (c :: s) ↔ Closes opening closing (q.next c) depth s := by
  have hsame : unquoted q (c :: s) = unquoted (q.next c) s := by rw [unquoted, if_neg hq]
  constructor
  · rintro ⟨hterm, hcov, hlevel⟩
    rw [hsame] at hcov hlevel
    exact ⟨hterm, hcov, hlevel⟩
  · rintro ⟨hterm, hcov, hlevel⟩
    rw [← hsame] at hcov hlevel
    exact ⟨hterm, hcov, hlevel⟩

theorem step_iff {depth' : Nat}
    (hcount : ∀ t : List Char, (c :: t).count closing + depth' + t.count opening =
      depth + (c :: t).count opening + t.count closing) :
    Closes opening closing .outside depth (c :: s) ↔
      Closes opening closing (Quoting.outside.next c) depth' s := by
  have hcons : unquoted .outside (c :: s) = c :: unquoted (Quoting.outside.next c) s := rfl
  constructor
  · rintro ⟨hterm, hcov, hlevel⟩
    refine ⟨hterm, fun t ht => ?_, ?_⟩
    · have := hcov (c :: t) (hcons ▸ List.cons_prefix_cons.mpr ⟨rfl, ht⟩)
      have := hcount t
      omega
    · rw [hcons] at hlevel
      have := hcount (unquoted (Quoting.outside.next c) s)
      omega
  · rintro ⟨hterm, hcov, hlevel⟩
    refine ⟨hterm, fun t ht => ?_, ?_⟩
    · rw [hcons] at ht
      cases t with
      | nil => exact Nat.zero_le _
      | cons d t =>
        obtain ⟨rfl, ht⟩ := List.cons_prefix_cons.mp ht
        have := hcov t ht
        have := hcount t
        omega
    · rw [hcons]
      have := hcount (unquoted (Quoting.outside.next c) s)
      omega

theorem plain_iff (ho : c ≠ opening) (hc : c ≠ closing) :
    Closes opening closing .outside depth (c :: s) ↔
      Closes opening closing (Quoting.outside.next c) depth s := by
  refine step_iff fun t => ?_
  rw [List.count_cons_of_ne hc, List.count_cons_of_ne ho]
  omega

theorem opening_iff (hne : opening ≠ closing) :
    Closes opening closing .outside depth (opening :: s) ↔
      Closes opening closing (Quoting.outside.next opening) (depth + 1) s := by
  refine step_iff fun t => ?_
  rw [List.count_cons_of_ne hne, List.count_cons_self]
  omega

theorem closing_iff (hne : opening ≠ closing) :
    Closes opening closing .outside (depth + 1) (closing :: s) ↔
      Closes opening closing (Quoting.outside.next closing) depth s := by
  refine step_iff fun t => ?_
  rw [List.count_cons_of_ne hne.symm, List.count_cons_self]
  omega

theorem not_closing (hne : opening ≠ closing) :
    ¬ Closes opening closing .outside 0 (closing :: s) := by
  intro h
  have hcov := h.covered [closing] (List.cons_prefix_cons.mpr ⟨rfl, List.nil_prefix⟩)
  rw [List.count_cons_self, List.count_cons_of_ne hne.symm] at hcov
  exact absurd hcov (by simp)

end Closes

section Parentheses

variable {q q' : Quoting} {depth depth' : Nat} {c : Char} {s a b : List Char}

theorem balanced_quoted (hq : q ≠ .outside) : balanced q depth (c :: s) =
    (balanced (q.next c) depth s).map fun p => (c :: p.1, p.2) := by
  cases q with
  | outside => exact absurd rfl hq
  | inside quote | escaped quote => rw [balanced]; rfl

theorem balanced_cons_iff
    (hscan : balanced q depth (c :: s) = (balanced q' depth' s).map fun p => (c :: p.1, p.2))
    (hcloses : ∀ a, Closes '(' ')' q depth (c :: a) ↔ Closes '(' ')' q' depth' a)
    (hends : c = ')' → ¬ Closes '(' ')' q depth [])
    (ih : ∀ a, balanced q' depth' s = some (a, b) ↔
      s = a ++ ')' :: b ∧ Closes '(' ')' q' depth' a) :
    balanced q depth (c :: s) = some (a, b) ↔
      c :: s = a ++ ')' :: b ∧ Closes '(' ')' q depth a := by
  rw [hscan, Option.map_eq_some_iff]
  constructor
  · rintro ⟨⟨a', b'⟩, hrest, heq⟩
    cases heq
    obtain ⟨rfl, hclose⟩ := (ih a').mp hrest
    exact ⟨rfl, (hcloses a').mpr hclose⟩
  · rintro ⟨happ, hclose⟩
    cases a with
    | nil => exact absurd hclose (hends (List.cons.inj happ).1)
    | cons d a =>
      obtain ⟨rfl, hs⟩ := List.cons.inj happ
      exact ⟨(a, b), (ih a).mpr ⟨hs, (hcloses a).mp hclose⟩, rfl⟩

/-- The search for the closing parenthesis finds the first one that closes what has been opened. -/
theorem balanced_eq_some_iff :
    balanced q depth s = some (a, b) ↔ s = a ++ ')' :: b ∧ Closes '(' ')' q depth a := by
  induction s generalizing q depth a with
  | nil => cases q <;> simp [balanced]
  | cons c s ih =>
    by_cases hq : q = .outside
    · subst hq
      by_cases hclose : c = ')'
      · subst hclose
        cases depth with
        | succ depth =>
          refine balanced_cons_iff (by rw [balanced]; rfl)
            (fun a => Closes.closing_iff (by decide)) ?_ (fun a => ih)
          intro _ hnil
          exact absurd (Closes.nil_iff.mp hnil).2 (by simp)
        | zero =>
          have hfound : balanced .outside 0 (')' :: s) = some ([], s) := by rw [balanced]; rfl
          rw [hfound]
          constructor
          · rintro heq
            cases heq
            exact ⟨rfl, Closes.nil_iff.mpr ⟨rfl, rfl⟩⟩
          · rintro ⟨happ, hcloses⟩
            cases a with
            | nil => rw [(List.cons.inj happ).2]
            | cons d a =>
              obtain ⟨rfl, -⟩ := List.cons.inj happ
              exact absurd hcloses (Closes.not_closing (by decide))
      · by_cases hopen : c = '('
        · subst hopen
          exact balanced_cons_iff (by rw [balanced]; rfl) (fun a => Closes.opening_iff (by decide))
            (fun h => absurd h hclose) (fun a => ih)
        · refine balanced_cons_iff ?_ (fun a => Closes.plain_iff hopen hclose)
            (fun h => absurd h hclose) (fun a => ih)
          rw [balanced, if_neg hclose]
          simp only [if_neg hopen]
          rfl
    · refine balanced_cons_iff (balanced_quoted hq) (fun a => Closes.quoted_iff hq) ?_ (fun a => ih)
      exact fun _ hnil => hq (Closes.nil_iff.mp hnil).1

end Parentheses

section Delimiters

variable {q : Quoting} {depth : Nat} {c : Char} {s front back e : List Char}

theorem unquoted_append (h : ∀ c ∈ front, isQuote c = false) (s : List Char) :
    unquoted .outside (front ++ s) = front ++ unquoted .outside s := by
  induction front with
  | nil => rfl
  | cons c front ih =>
    obtain ⟨hc, hfront⟩ := List.forall_mem_cons.mp h
    have hnext : Quoting.outside.next c = .outside := by simp [Quoting.next, hc]
    rw [List.cons_append, unquoted, if_pos rfl, hnext, ih hfront, List.cons_append]

def Marks (front : List Char) : Prop := ∀ c ∈ front, isQuote c = false ∧ c ≠ '{' ∧ c ≠ '}'

theorem Marks.not_prefix (hfront : Marks front) (h : Closes '{' '}' .outside 0 e) :
    ¬ front ++ ['}'] <+: e := by
  rintro ⟨t, rfl⟩
  have hplain : unquoted .outside (front ++ ['}'] ++ t) = front ++ '}' :: unquoted .outside t := by
    rw [List.append_assoc, unquoted_append fun c hc => (hfront c hc).1]
    rfl
  have hcov := h.covered (front ++ ['}']) ⟨unquoted .outside t, by rw [hplain]; simp⟩
  have hopen : front.count '{' = 0 := List.count_eq_zero.mpr fun hc => (hfront _ hc).2.1 rfl
  simp [hopen] at hcov

theorem Marks.not_prefix_append (hfront : Marks front) (h : Closes '{' '}' .outside 0 e)
    (hne : e ≠ []) (rest : List Char) :
    ¬ front ++ '}' :: back <+: e ++ (front ++ '}' :: back ++ rest) := by
  intro hclose
  have hbrace : front ++ ['}'] <+: e ++ (front ++ '}' :: back ++ rest) :=
    List.IsPrefix.trans ⟨back, by simp⟩ hclose
  rcases List.prefix_or_prefix_of_prefix hbrace (List.prefix_append e _) with hin | hout
  · exact hfront.not_prefix h hin
  · rcases List.prefix_concat_iff.mp hout with rfl | ⟨t, rfl⟩
    · exact hfront.not_prefix h List.prefix_rfl
    · -- the brace would lie in the marks that follow the text
      rw [List.append_assoc, List.append_assoc, List.append_assoc, List.prefix_append_right_inj,
        ← List.append_assoc] at hbrace
      have hmarks : t ++ ['}'] <+: e ++ t := by
        refine List.prefix_of_prefix_length_le hbrace (List.prefix_append _ _) ?_
        have := List.length_pos_iff.mpr hne
        simp only [List.length_append, List.length_singleton]
        omega
      exact (hfront '}' (hmarks.subset (by simp))).2.2 rfl

theorem delimited_quoted {close : List Char} (hq : q ≠ .outside) :
    delimited close q depth (c :: s) =
      (delimited close (q.next c) depth s).map fun p => (c :: p.1, p.2) := by
  cases q with
  | outside => exact absurd rfl hq
  | inside quote | escaped quote => rw [delimited]; rfl

theorem delimited_of_closes (hfront : Marks front) (h : Closes '{' '}' q depth e)
    (rest : List Char) :
    delimited (front ++ '}' :: back) q depth (e ++ (front ++ '}' :: back ++ rest)) =
      some (e, rest) := by
  induction e generalizing q depth with
  | nil =>
    obtain ⟨rfl, rfl⟩ := Closes.nil_iff.mp h
    obtain ⟨c, s, hs⟩ : ∃ c s, front ++ '}' :: back ++ rest = c :: s := by
      cases front <;> exact ⟨_, _, rfl⟩
    rw [List.nil_append, hs, delimited, if_pos rfl, ← hs, isPrefixOf?_eq_some.mpr rfl]
  | cons c e ih =>
    by_cases hq : q = .outside
    · subst hq
      have hnone : (if depth = 0 then
          (front ++ '}' :: back).isPrefixOf? (c :: (e ++ (front ++ '}' :: back ++ rest)))
        else none) = none := by
        split
        · next hzero =>
          subst hzero
          exact isPrefixOf?_eq_none_iff.mpr (hfront.not_prefix_append h (List.cons_ne_nil _ _) rest)
        · rfl
      rw [List.cons_append, delimited, hnone]
      by_cases hclose : c = '}'
      · subst hclose
        cases depth with
        | zero => exact absurd h (Closes.not_closing (by decide))
        | succ depth =>
          have hrest := ih ((Closes.closing_iff (by decide)).mp h)
          exact congrArg (Option.map fun p => ('}' :: p.1, p.2)) hrest
      · by_cases hopen : c = '{'
        · subst hopen
          have hrest := ih ((Closes.opening_iff (by decide)).mp h)
          exact congrArg (Option.map fun p => ('{' :: p.1, p.2)) hrest
        · have hrest := ih ((Closes.plain_iff hopen hclose).mp h)
          simp only [if_neg hopen, if_neg hclose]
          exact congrArg (Option.map fun p => (c :: p.1, p.2)) hrest
    · rw [List.cons_append, delimited_quoted hq, ih ((Closes.quoted_iff hq).mp h)]
      rfl

end Delimiters

end Lamina.Scan
