import Lamina.Proofs.Loader
import Mathlib.Data.List.DropRight

/-! Names under which templates are listed. Blanks, slashes in front and the extension are dropped
from a name once when a template is added and once more when it is looked up, so a listed name leads
back to its template exactly if there is nothing left to drop. -/

namespace Lamina

namespace Text

theorem trim_sublist (s : List Char) : (trim s).Sublist s :=
  ((List.rdropWhile_prefix _ (trimStart s)).sublist).trans (List.dropWhile_suffix _).sublist

theorem trim_eq_self_iff {s : List Char} :
    trim s = s ↔ (∀ c ∈ s.head?, isBlank c = false) ∧ ∀ c ∈ s.getLast?, isBlank c = false := by
  have hstart : trimStart s = s ↔ ∀ c ∈ s.head?, isBlank c = false := by
    cases s <;> simp [trimStart, List.dropWhile_eq_self_iff]
  have hend : trimEnd s = s ↔ ∀ c ∈ s.getLast?, isBlank c = false := by
    refine List.rdropWhile_eq_self_iff.trans ?_
    rcases List.eq_nil_or_concat s with rfl | ⟨s, c, rfl⟩ <;> simp
  rw [← hstart, ← hend]
  constructor
  · intro h
    -- both steps drop characters, so neither does if none is gone in the end
    have hsub : (trimStart s).Sublist s := (List.dropWhile_suffix _).sublist
    have hlen : s.length ≤ (trimStart s).length := by
      have := (List.rdropWhile_prefix isBlank (trimStart s)).length_le
      rwa [show List.rdropWhile isBlank (trimStart s) = s from h] at this
    have hs := hsub.eq_of_length_le hlen
    rw [trim, hs] at h
    exact ⟨hs, h⟩
  · rintro ⟨hs, he⟩
    rw [trim, hs, he]

end Text

open Lamina.Text

namespace Reference

def settle (extension name : String) : String :=
  dropExtension extension (onChars (fun s => (trim s).dropWhile (· == '/')) name)

/-- A name without blanks at its ends that does not end with the extension. -/
structure Settled (extension name : String) : Prop where
  first : ∀ c ∈ name.toList.head?, isBlank c = false
  last : ∀ c ∈ name.toList.getLast?, isBlank c = false
  stem : ¬ '.' :: extension.toList <:+ name.toList

theorem length_dropExtension_le (extension name : String) :
    (dropExtension extension name).toList.length ≤ name.toList.length := by
  rw [dropExtension]
  split
  · next stem h =>
    obtain ⟨dotted, hdotted, hstem⟩ := Option.bind_eq_some_iff.mp h
    rw [dropSuffix?_eq_some.mp hdotted, dropSuffix?_eq_some.mp hstem]
    simp only [String.toList_append, List.length_append]
    omega
  · exact Nat.le_refl _

theorem dropExtension_eq_self_iff {extension name : String} :
    dropExtension extension name = name ↔ ¬ '.' :: extension.toList <:+ name.toList := by
  rw [dropExtension]
  split
  · next stem h =>
    obtain ⟨dotted, hdotted, hstem⟩ := Option.bind_eq_some_iff.mp h
    have hname : name.toList = stem.toList ++ '.' :: extension.toList := by
      rw [dropSuffix?_eq_some.mp hdotted, dropSuffix?_eq_some.mp hstem]
      simp
    constructor
    · rintro rfl
      have := congrArg List.length hname
      simp at this
    · exact fun hsuffix => absurd ⟨_, hname.symm⟩ hsuffix
  · next h =>
    refine iff_of_true rfl ?_
    rintro ⟨stem, hstem⟩
    have hdotted : dropSuffix? extension name = some (String.ofList stem ++ ".") :=
      dropSuffix?_eq_some.mpr (String.toList_inj.mp (by simp [← hstem]))
    rw [hdotted, Option.bind_some, dropSuffix?_eq_some.mpr rfl] at h
    cases h

theorem settle_eq_self_iff (extension : String) {name : String}
    (hslash : ∀ c ∈ name.toList.head?, c ≠ '/') :
    settle extension name = name ↔ Settled extension name := by
  have hdrop : name.toList.dropWhile (· == '/') = name.toList := by
    rw [List.dropWhile_eq_self_iff]
    intro hpos
    have := hslash (name.toList.get ⟨0, hpos⟩) (by simp [List.head?_eq_getElem?])
    simpa using this
  constructor
  · intro h
    have hlength := length_dropExtension_le extension
      (onChars (fun s => (trim s).dropWhile (· == '/')) name)
    rw [show dropExtension extension _ = name from h, onChars, String.toList_ofList] at hlength
    have htrim : trim name.toList = name.toList :=
      (trim_sublist _).eq_of_length_le
        (hlength.trans (List.dropWhile_suffix _).sublist.length_le)
    rw [settle, onChars, htrim, hdrop, String.ofList_toList] at h
    exact ⟨(trim_eq_self_iff.mp htrim).1, (trim_eq_self_iff.mp htrim).2,
      dropExtension_eq_self_iff.mp h⟩
  · intro h
    rw [settle, onChars, trim_eq_self_iff.mpr ⟨h.first, h.last⟩, hdrop, String.ofList_toList]
    exact dropExtension_eq_self_iff.mpr h.stem

theorem space_ne_empty (path extension : String) : (parse path extension).space ≠ "" := by
  have hdefault : defaultNamespace ≠ "" := by decide
  unfold parse
  dsimp only
  split
  · split
    · exact hdefault
    · next hempty => simpa using hempty
  · exact hdefault

theorem parse_identity {r : Reference} (hspace : ':' ∉ r.space.toList) (hne : r.space ≠ "")
    (extension : String) : parse r.identity extension = ⟨r.space, settle extension r.name⟩ := by
  have hcut : splitOnce ':' r.identity = some (r.space, r.name) := by
    rw [splitOnce, identity, String.toList_append, String.toList_append, List.append_assoc]
    rw [show (":" : String).toList ++ r.name.toList = ':' :: r.name.toList from rfl,
      cut_append_sep hspace]
    simp
  rw [parse, hcut]
  simp [hne, settle]

theorem head_ne_slash_of_check {r : Reference} {path : String} (h : r.check path = .ok ()) :
    ∀ c ∈ r.name.toList.head?, c ≠ '/' := by
  rintro c hc rfl
  obtain ⟨rest, hrest⟩ := List.head?_eq_some_iff.mp hc
  unfold check at h
  split at h
  · cases h
  · simp [hrest, List.splitOn_cons_eq_if_modifyHead] at h

end Reference

namespace Templates

/-- The source that was added last under an identity. -/
def latest? (pairs : List (String × String)) (identity : String) : Option String :=
  (pairs.reverse.find? fun p => (Reference.parse p.1 defaultExtension).identity == identity).map
    (·.2)

theorem get?_ofPairs (pairs : List (String × String)) (identity : String) :
    (ofPairs pairs).get? identity = latest? pairs identity := by
  induction pairs using List.reverseRecOn with
  | nil => rfl
  | append_singleton pairs p ih =>
    have hadd : ofPairs (pairs ++ [p]) = (ofPairs pairs).add p.1 p.2 := by simp [ofPairs]
    rw [hadd, add, Table.get?_set, ih]
    by_cases hp : identity = (Reference.parse p.1 defaultExtension).identity
    · simp [latest?, hp]
    · simp [latest?, hp, Ne.symm hp]

theorem exists_reference_of_listed {pairs : List (String × String)} {s : String}
    (h : s ∈ (ofPairs pairs).keys) : ∃ r : Reference, r.space ≠ "" ∧ ':' ∉ r.space.toList ∧
      r.identity = s ∧ ∃ source, latest? pairs s = some source := by
  obtain ⟨source, hsource⟩ := Table.contains_iff.mp (Table.contains_iff_mem_keys.mpr h)
  rw [get?_ofPairs] at hsource
  obtain ⟨p, hp, -⟩ := Option.map_eq_some_iff.mp hsource
  exact ⟨Reference.parse p.1 defaultExtension, Reference.space_ne_empty _ _,
    Reference.colon_not_mem_space _ _, by simpa using List.find?_some hp, source, hsource⟩

/-- A listed template is found under its listed name exactly if that name is settled. Then the name
spells its namespace and its name, and what is read is the source that was added last. -/
theorem listed_loads_iff_settled (pairs : List (String × String)) (names : List String) (s : String)
    (hlist : (ofPairs pairs).loader.list = .ok names) (hs : s ∈ names) :
    ∃ r : Reference, r.space ≠ "" ∧ ':' ∉ r.space.toList ∧ r.identity = s ∧
      (r.check s = .ok () →
        ((∃ view, (ofPairs pairs).loader.locate s = .ok view ∧ view.identity = s) ↔
          Reference.Settled defaultExtension r.name) ∧
        (Reference.Settled defaultExtension r.name →
          Reference.parse s defaultExtension = r ∧ ∃ view source,
            (ofPairs pairs).loader.locate s = .ok view ∧ view.reference = r ∧
              latest? pairs s = some source ∧ (ofPairs pairs).loader.read view = .ok source)) := by
  cases hlist
  obtain ⟨r, hne, hspace, rfl, source, hsource⟩ := exists_reference_of_listed hs
  refine ⟨r, hne, hspace, rfl, fun hcheck => ?_⟩
  have hparse := Reference.parse_identity hspace hne defaultExtension
  have hsettle := Reference.settle_eq_self_iff defaultExtension
    (Reference.head_ne_slash_of_check hcheck)
  have hfound (h : Reference.Settled defaultExtension r.name) :
      Reference.parse r.identity defaultExtension = r ∧
        (ofPairs pairs).loader.locate r.identity = .ok ⟨r.file, r⟩ := by
    rw [hsettle.mpr h] at hparse
    rw [loader_locate]
    exact ⟨hparse, locate_eq_ok.mpr ⟨r, hparse.symm, hcheck, Table.contains_iff_mem_keys.mpr hs, rfl⟩⟩
  refine ⟨⟨?_, fun h => ⟨⟨r.file, r⟩, (hfound h).2, rfl⟩⟩, fun h => ?_⟩
  · rintro ⟨view, hview, hidentity⟩
    rw [loader_locate] at hview
    obtain ⟨r', hr', -, -, rfl⟩ := locate_eq_ok.mp hview
    have hspace' := Reference.colon_not_mem_space r.identity defaultExtension
    rw [← hr'] at hspace'
    have he : r' = r := Reference.eq_of_identity_eq hspace' hspace hidentity
    rw [he, hparse] at hr'
    have hname := congrArg Reference.name hr'
    dsimp only at hname
    exact hsettle.mp hname.symm
  · obtain ⟨hspelled, hlocate⟩ := hfound h
    refine ⟨hspelled, ⟨r.file, r⟩, source, hlocate, rfl, hsource, ?_⟩
    rw [loader_read]
    simp only [read, View.identity, get?_ofPairs, hsource]

/-- Two spellings of one template in a namespace, with another template between them. -/
def drawer : List (String × String) :=
  [("mail:/letters/reply.stm", "a"), ("home", "b"), ("mail:letters/reply ", "c")]

theorem listed_loads_iff_settled_drawer :
    (ofPairs drawer).loader.list = .ok ["default:home", "mail:letters/reply"] ∧
      ∃ view, (ofPairs drawer).loader.locate "mail:letters/reply" = .ok view ∧
        (ofPairs drawer).loader.read view = .ok "c" := by
  have hlist : (ofPairs drawer).loader.list = .ok ["default:home", "mail:letters/reply"] := by
    decide +kernel
  obtain ⟨r, -, hspace, hr, h⟩ := listed_loads_iff_settled drawer _ "mail:letters/reply" hlist
    (.tail _ (.head _))
  obtain rfl : r = ⟨"mail", "letters/reply"⟩ :=
    Reference.eq_of_identity_eq hspace (by decide) hr
  have hhead : "letters/reply".toList.head? = some 'l' := by decide
  have hlast : "letters/reply".toList.getLast? = some 'y' := by decide
  have hsettled : Reference.Settled defaultExtension "letters/reply" := by
    refine ⟨fun c hc => ?_, fun c hc => ?_, by decide +kernel⟩
    · cases Option.some.inj (hhead.symm.trans hc)
      decide
    · cases Option.some.inj (hlast.symm.trans hc)
      decide
  obtain ⟨-, view, source, hview, -, hlatest, hread⟩ := (h (by decide +kernel)).2 hsettled
  obtain rfl : "c" = source := Option.some.inj (.trans (by decide +kernel) hlatest)
  exact ⟨hlist, view, hview, hread⟩

/-- A listed name that still carries an extension, or a blank in front, leads nowhere. -/
theorem unsettled_name_is_lost :
    (ofPairs [("page.stm.stm", "x"), ("/ page", "y")]).loader.list =
        .ok ["default: page", "default:page.stm"] ∧
      Reference.check "default:page.stm" ⟨"default", "page.stm"⟩ = .ok () ∧
      Reference.check "default: page" ⟨"default", " page"⟩ = .ok () ∧
      ∀ s ∈ ["default: page", "default:page.stm"],
        failure? ((ofPairs [("page.stm.stm", "x"), ("/ page", "y")]).loader.locate s) =
          some (.loader (.notFound "default:page" none)) := by
  decide +kernel

end Templates

end Lamina
