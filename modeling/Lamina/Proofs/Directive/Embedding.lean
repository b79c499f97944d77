import Lamina.Directive.Provider
import Lamina.Pass.Finalize
import Lamina.Proofs.Node.Insets
import Mathlib.Data.List.DropRight

/-! Code with the text of a construct in it. An echo and most directives put their text between two
pieces of code, without the blanks around it; those in front of it are lost, line feeds and all. -/

namespace Lamina

open Lamina.Text

namespace Text

theorem trim_prefix_trimStart (s : List Char) : trim s <+: trimStart s :=
  List.rdropWhile_prefix isBlank (trimStart s)

theorem exists_trim (s : List Char) : ∃ trail, s = s.takeWhile isBlank ++ (trim s ++ trail) := by
  obtain ⟨trail, htrail⟩ := trim_prefix_trimStart s
  refine ⟨trail, ?_⟩
  rw [htrail]
  exact List.takeWhile_append_dropWhile.symm

theorem isBlank_head_of_trim {s rest : List Char} {c : Char} (h : trim s = c :: rest) :
    isBlank c = false := by
  obtain ⟨trail, htrail⟩ := trim_prefix_trimStart s
  have hhead := List.head?_dropWhile_not isBlank s
  rw [h, trimStart] at htrail
  rw [← htrail] at hhead
  simpa using hhead

theorem trimStart_cons {c : Char} (h : isBlank c = false) (s : List Char) :
    trimStart (c :: s) = c :: s :=
  List.dropWhile_cons_of_neg (by simp [h])

theorem trim_trim (s : List Char) : trim (trim s) = trim s := by
  have hstart : trimStart (trim s) = trim s := by
    cases h : trim s with
    | nil => rfl
    | cons c rest => exact trimStart_cons (isBlank_head_of_trim h) rest
  calc trim (trim s) = trimEnd (trim s) := by rw [trim, hstart]
    _ = trim s := List.rdropWhile_idempotent isBlank (trimStart s)

theorem exists_trim_front {s front back : List Char} (hne : front ≠ [])
    (h : trim s = front ++ back) : ∃ trail, front = trim front ++ trail := by
  obtain ⟨c, rest, rfl⟩ := List.exists_cons_of_ne_nil hne
  obtain ⟨trail, htrail⟩ := trim_prefix_trimStart (c :: rest)
  rw [trimStart_cons (isBlank_head_of_trim h)] at htrail
  exact ⟨trail, htrail.symm⟩

end Text

/-- A stretch of a text that stands in some code as well, on the first line of that. -/
structure Embedding (text code : List Char) where
  lead : List Char
  core : List Char
  trail : List Char
  pre : List Char
  post : List Char
  text_eq : text = lead ++ (core ++ trail)
  code_eq : code = pre ++ (core ++ post)
  feeds_pre : feeds pre = 0

/-- The code has the stretch `core` of the text in it, which stands behind `lead` there. -/
def Embeds (text code lead core : List Char) : Prop :=
  ∃ e : Embedding text code, e.lead = lead ∧ e.core = core

theorem embeds_self (text : List Char) : Embeds text text [] text :=
  ⟨⟨[], text, [], [], [], by simp, by simp, rfl⟩, rfl, rfl⟩

theorem embeds_trim {text code : String} (pre post : String)
    (h : code = pre ++ onChars trim text ++ post) (hpre : feeds pre.toList = 0) :
    Embeds text.toList code.toList (text.toList.takeWhile isBlank) (trim text.toList) := by
  obtain ⟨trail, htrail⟩ := exists_trim text.toList
  have hcode : code.toList = pre.toList ++ (trim text.toList ++ post.toList) := by simp [h, onChars]
  exact ⟨⟨_, _, trail, _, _, htrail, hcode, hpre⟩, rfl, rfl⟩

theorem Pass.embeds_echoCode (text : String) (escape : Bool) :
    Embeds text.toList (echoCode (onChars trim text) escape).toList
      (text.toList.takeWhile isBlank) (trim text.toList) := by
  cases escape with
  | true => exact embeds_trim "__write(__escape(" "))" rfl (by decide)
  | false => exact embeds_trim "__write(__tostring(" "))" rfl (by decide)

namespace Provider

variable {call : Call} {code : String}

theorem bodyOf_eq_ok {what body : String} (h : bodyOf what call = .ok body) :
    ∃ text, call.body = some text ∧ body = onChars trim text := by
  unfold bodyOf at h
  split at h
  · next text hbody =>
    obtain ⟨text, htext, rfl⟩ := Option.map_eq_some_iff.mp hbody
    split at h
    · cases h
    · cases h
      exact ⟨text, htext, rfl⟩
  · cases h

theorem code_of_bodyOf {what : String} {f : String → String} {g : CallFault → Failure}
    (h : ((bodyOf what call).map f).mapError g = .ok code) :
    ∃ text, call.body = some text ∧ code = f (onChars trim text) := by
  obtain ⟨body, hbody, rfl⟩ := map_eq_ok.mp (eq_ok_of_mapError h)
  obtain ⟨text, htext, rfl⟩ := bodyOf_eq_ok hbody
  exact ⟨text, htext, rfl⟩

/-- The directives that put their trimmed text between two pieces of code, and these. -/
def wrapping : List (String × String × String) :=
  [("if", "if ", " then"), ("elseif", "elseif ", " then"), ("unless", "if not (", ") then"),
    ("isset", "if (", ") ~= nil then"), ("for", "for ", " do"), ("while", "while ", " do"),
    ("json", "__write(__json(", "))"), ("lua", "", "")]

theorem expand_wrapping {name pre post : String} (hname : (name, pre, post) ∈ wrapping)
    {values : List String} {body : Option String} {o : Origin}
    (h : Directives.builtin.expand ⟨name, values, body, o⟩ = .ok code) :
    ∃ text, body = some text ∧ code = pre ++ onChars trim text ++ post := by
  simp only [wrapping, List.mem_cons, Prod.mk.injEq, List.not_mem_nil, or_false] at hname
  rcases hname with ⟨rfl, rfl, rfl⟩ | ⟨rfl, rfl, rfl⟩ | ⟨rfl, rfl, rfl⟩ | ⟨rfl, rfl, rfl⟩ |
    ⟨rfl, rfl, rfl⟩ | ⟨rfl, rfl, rfl⟩ | ⟨rfl, rfl, rfl⟩ | ⟨rfl, rfl, rfl⟩
  -- script code is put nowhere, it is all there is
  case inr.inr.inr.inr.inr.inr.inr =>
    obtain ⟨text, htext, rfl⟩ := bodyOf_eq_ok (eq_ok_of_mapError h)
    exact ⟨text, htext, by simp⟩
  all_goals exact code_of_bodyOf h

theorem feeds_wrapping : ∀ entry ∈ wrapping, feeds entry.2.1.toList = 0 := by decide

theorem splitAs?_eq_some {s source targets : List Char} (h : splitAs? s = some (source, targets)) :
    source ≠ [] ∧ source <+: s := by
  induction s generalizing source with
  | nil => cases h
  | cons c s ih =>
    rw [splitAs?] at h
    split at h
    · cases h
      exact ⟨List.cons_ne_nil _ _, s, rfl⟩
    · obtain ⟨⟨front, back⟩, hsplit, he⟩ := Option.map_eq_some_iff.mp h
      cases he
      exact ⟨List.cons_ne_nil _ _, (List.cons_prefix_cons.mpr ⟨rfl, (ih hsplit).2⟩)⟩

theorem feeds_of_variableOf {value name : String} (h : variableOf value = .ok name) :
    feeds name.toList = 0 := by
  unfold variableOf at h
  dsimp only at h
  split at h
  · next hname =>
    cases h
    rw [String.toList_ofList]
    generalize (trim value.toList).dropWhile (· == '$') = chars at hname
    cases chars with
    | nil => cases hname
    | cons c rest =>
      simp only [isIdentifier, Bool.and_eq_true, List.all_eq_true] at hname
      exact Scan.IsIdent.feeds_eq_zero ⟨c, rest, rfl, hname⟩
  · cases h

theorem foreach_eq_ok (h : foreach call = .ok code) : ∃ text source targets pre post,
    call.body = some text ∧ splitAs? (trim text.toList) = some (source, targets) ∧
      feeds pre.toList = 0 ∧ code = pre ++ String.ofList (trim source) ++ post := by
  unfold foreach at h
  obtain ⟨body, hbody, h⟩ := bind_eq_ok.mp h
  obtain ⟨text, htext, rfl⟩ := bodyOf_eq_ok hbody
  rw [onChars, String.toList_ofList] at h
  split at h
  · cases h
  · next source targets hsplit =>
    dsimp only at h
    split at h
    · obtain ⟨item, hitem, h⟩ := bind_eq_ok.mp h
      cases h
      refine ⟨text, source, targets, "for _, " ++ item ++ " in ipairs(", ") do", htext, hsplit, ?_,
        by simp [String.append_assoc]; rfl⟩
      simp only [String.toList_append, feeds_append, feeds_of_variableOf hitem]
      decide
    · obtain ⟨key, hkey, h⟩ := bind_eq_ok.mp h
      obtain ⟨value, hvalue, h⟩ := bind_eq_ok.mp h
      cases h
      refine ⟨text, source, targets, "for " ++ key ++ ", " ++ value ++ " in pairs(", ") do", htext,
        hsplit, ?_, by simp [String.append_assoc]; rfl⟩
      simp only [String.toList_append, feeds_append, feeds_of_variableOf hkey,
        feeds_of_variableOf hvalue]
      decide
    · cases h

/-- A loop has the text in front of `as` in its header, which starts where the trimmed text does. -/
theorem embeds_foreach {text : String} {source targets : List Char} (hbody : call.body = some text)
    (hsplit : splitAs? (trim text.toList) = some (source, targets)) (h : foreach call = .ok code) :
    Embeds text.toList code.toList (text.toList.takeWhile isBlank) (trim source) := by
  obtain ⟨text', source', targets', pre, post, htext, hsplit', hpre, rfl⟩ := foreach_eq_ok h
  cases hbody.symm.trans htext
  cases hsplit.symm.trans hsplit'
  obtain ⟨hne, back, hback⟩ := splitAs?_eq_some hsplit
  obtain ⟨after, hafter⟩ := exists_trim_front hne hback.symm
  obtain ⟨trail, htrail⟩ := exists_trim text.toList
  have htext : text.toList =
      text.toList.takeWhile isBlank ++ (trim source ++ (after ++ (back ++ trail))) := by
    rw [← List.append_assoc (trim source), ← hafter, ← List.append_assoc source, hback]
    exact htrail
  exact ⟨⟨_, _, _, pre.toList, post.toList, htext, by simp, hpre⟩, rfl, rfl⟩

end Provider

namespace Directives

theorem find?_builtin : ∀ p ∈ builtin.providers, ∀ name ∈ p.names,
    builtin.providers.find? (·.names.contains name) = some p := by
  have hproviders : builtin.providers =
      [Provider.conditional, .loop, .json, .container, .route, .lua] := rfl
  simp only [hproviders, List.forall_mem_cons]
  refine ⟨?_, ?_, ?_, ?_, ?_, ?_, List.forall_mem_nil _⟩
  all_goals
    intro name hname
    simp only [Provider.conditional, Provider.loop, Provider.json, Provider.container,
      Provider.route, Provider.lua, List.mem_cons, List.not_mem_nil, or_false] at hname
    rcases hname with rfl | rfl | rfl | rfl | rfl | rfl | rfl | rfl <;> rfl

theorem expand_builtin {d : Directives} (hd : d.providers ⊆ builtin.providers) {call : Call}
    {code : String} (h : d.expand call = .ok code) : builtin.expand call = .ok code := by
  unfold expand at h ⊢
  split at h
  · cases h
  · next p hfind =>
    have hname : call.name ∈ p.names := by simpa using List.find?_some hfind
    rw [find?_builtin p (hd (List.mem_of_find?_eq_some hfind)) call.name hname]
    exact h

/-- The code that a construct stands for. -/
def Yields (directives : Directives) (o : Origin) : TokenKind → String → Prop
  | .host code, code' => code' = code
  | .echo expr escape, code' => code' = Pass.echoCode (onChars trim expr) escape
  | .directive name body, code' => ∃ values, body.elim (.ok []) Arguments.split = .ok values ∧
    directives.expand ⟨name, values, body, o⟩ = .ok code'
  | _, _ => False

end Directives

namespace TokenKind

/-- The part of the text inside that a construct has in its code, behind what is lost of it. -/
def core? : TokenKind → List Char → Option (List Char × List Char)
  | .host _, inner => some ([], inner)
  | .echo _ _, inner => some (inner.takeWhile isBlank, trim inner)
  | .directive name _, inner =>
    if name = "foreach" then
      (Provider.splitAs? (trim inner)).map fun split => (inner.takeWhile isBlank, trim split.1)
    else if name ∈ Provider.wrapping.map Prod.fst then some (inner.takeWhile isBlank, trim inner)
    else none
  | _, _ => none

theorem Encloses.embeds {kind : TokenKind} {opening inner closing lead core : List Char}
    {directives : Directives} {o : Origin} {code : String}
    (h : kind.Encloses opening inner closing) (hcode : directives.Yields o kind code)
    (hd : ∀ name body, kind = .directive name body →
      directives.providers ⊆ Directives.builtin.providers)
    (hcore : kind.core? inner = some (lead, core)) : Embeds inner code.toList lead core := by
  have hecho (inner : List Char) (escape : Bool) : Embeds inner
      (Pass.echoCode (onChars trim (String.ofList (trim inner))) escape).toList
      (inner.takeWhile isBlank) (trim inner) := by
    simpa [onChars, trim_trim] using Pass.embeds_echoCode (String.ofList inner) escape
  cases h with
  | block =>
    cases hcore
    cases hcode
    simpa using embeds_self inner
  | escaped =>
    cases hcore
    cases hcode
    exact hecho inner true
  | unescaped =>
    cases hcore
    cases hcode
    exact hecho inner false
  | directive ident =>
    obtain ⟨values, -, hexpand⟩ := hcode
    have hbuiltin := Directives.expand_builtin (hd _ _ rfl) hexpand
    rw [core?] at hcore
    split at hcore
    · next hname =>
      obtain ⟨split, hsplit, hpair⟩ := Option.map_eq_some_iff.mp hcore
      cases hpair
      rw [hname] at hbuiltin
      have hsplit' : Provider.splitAs? (trim (String.ofList inner).toList) = some split := by
        rwa [String.toList_ofList]
      simpa using Provider.embeds_foreach rfl hsplit' (eq_ok_of_mapError hbuiltin)
    · split at hcore
      · next hname =>
        cases hcore
        obtain ⟨entry, hentry, hname⟩ := List.mem_map.mp hname
        rw [← hname] at hbuiltin
        obtain ⟨text, htext, hcode⟩ := Provider.expand_wrapping hentry hbuiltin
        cases htext
        simpa using embeds_trim _ _ hcode (Provider.feeds_wrapping entry hentry)
      · cases hcore
  | bare ident =>
    obtain ⟨values, -, hexpand⟩ := hcode
    have hbuiltin := Directives.expand_builtin (hd _ _ rfl) hexpand
    rw [core?] at hcore
    split at hcore
    · cases hcore
    · split at hcore
      · next hname =>
        obtain ⟨entry, hentry, hname⟩ := List.mem_map.mp hname
        rw [← hname] at hbuiltin
        obtain ⟨text, htext, -⟩ := Provider.expand_wrapping hentry hbuiltin
        cases htext
      · cases hcore

end TokenKind

end Lamina
