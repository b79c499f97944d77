import Lamina.Proofs.Json.Lexemes

/-! Printed JSON is read as a draft of what was printed. -/

namespace Lamina.Json

mutual

/-- Values without fractions and negative numbers. -/
def Printable : Json → Prop
  | null | bool _ | str _ => True
  | int n => 0 ≤ n
  | float _ => False
  | arr items => PrintableItems items
  | obj members => PrintableMembers members

def PrintableItems : List Json → Prop
  | [] => True
  | item :: rest => item.Printable ∧ PrintableItems rest

def PrintableMembers : List (String × Json) → Prop
  | [] => True
  | (_, value) :: rest => value.Printable ∧ PrintableMembers rest

end

mutual

/-- `Drafts j d`: the draft is of that value, where a number out of range is no integer and one in
range is itself. -/
inductive Drafts : Json → Draft → Prop
  | null : Drafts .null (.leaf (some .null))
  | bool (b : Bool) : Drafts (.bool b) (.leaf (some (.bool b)))
  | int {n : Int} {value : Option Json} (h : ∀ m, value = some (.int m) → m = n)
    (fits : n.toNat < UInt64.size → value = some (.int n)) : Drafts (.int n) (.leaf value)
  | str (s : String) : Drafts (.str s) (.text (printed s))
  | arr {items : List Json} {drafts : List Draft} (h : DraftsItems items drafts) :
    Drafts (.arr items) (.arr drafts)
  | obj {members : List (String × Json)} {drafts : List (Literal × Draft)}
    (h : DraftsMembers members drafts) : Drafts (.obj members) (.obj drafts)

inductive DraftsItems : List Json → List Draft → Prop
  | nil : DraftsItems [] []
  | cons {item : Json} {draft : Draft} {items : List Json} {drafts : List Draft}
    (h : Drafts item draft) (hrest : DraftsItems items drafts) :
    DraftsItems (item :: items) (draft :: drafts)

inductive DraftsMembers : List (String × Json) → List (Literal × Draft) → Prop
  | nil : DraftsMembers [] []
  | cons {name : String} {value : Json} {draft : Draft} {members : List (String × Json)}
    {drafts : List (Literal × Draft)} (h : Drafts value draft)
    (hrest : DraftsMembers members drafts) :
    DraftsMembers ((name, value) :: members) ((printed name, draft) :: drafts)

end

def readAfter (d : Draft) (stack : List Frame) (rest : List Lexeme) : Option Draft :=
  match deliver d stack with
  | some (.inl d) => if rest.isEmpty then some d else none
  | some (.inr stack) => readFrom .more stack rest
  | none => none

/-- The tokens of a printed value, and what they are read as. -/
structure Reads (j : Json) (d : Draft) (tokens : List Lexeme) : Prop where
  lexed : ∀ rest, Stops rest →
    lexemes (j.compact.toList ++ rest) = (lexemes rest).map (tokens ++ ·)
  read : ∀ expect, expect = .value ∨ expect = .first → ∀ stack rest,
    readFrom expect stack (tokens ++ rest) = readAfter d stack rest

structure ReadsItems (items : List Json) (drafts : List Draft) (tokens : List Lexeme) : Prop where
  lexed : ∀ rest, lexemes ([','].intercalate ((compactItems items).map String.toList) ++ ']' :: rest) =
    (lexemes rest).map (tokens ++ ·)
  read : ∀ expect, expect = .value ∨ expect = .first → ∀ sofar outer rest,
    readFrom expect (.arr sofar :: outer) (tokens ++ rest) =
      readAfter (.arr (sofar.reverse ++ drafts)) outer rest

structure ReadsMembers (members : List (String × Json)) (drafts : List (Literal × Draft))
    (tokens : List Lexeme) : Prop where
  lexed : ∀ rest,
    lexemes ([','].intercalate ((compactMembers members).map String.toList) ++ '\x7d' :: rest) =
      (lexemes rest).map (tokens ++ ·)
  read : ∀ expect, expect = .name ∨ expect = .firstName → ∀ sofar outer rest,
    readFrom expect (.obj sofar :: outer) (tokens ++ rest) =
      readAfter (.obj (sofar.reverse ++ drafts)) outer rest

section

variable (d : Draft) (sofar : List Draft) (members : List (Literal × Draft)) (name : Literal)
  (outer : List Frame) (rest : List Lexeme)

theorem readAfter_arr : readAfter d (.arr sofar :: outer) rest =
    readFrom .more (.arr (d :: sofar) :: outer) rest := rfl

theorem readAfter_member : readAfter d (.member members name :: outer) rest =
    readFrom .more (.obj ((name, d) :: members) :: outer) rest := rfl

theorem readFrom_comma_arr : readFrom .more (.arr sofar :: outer) (.mark ',' :: rest) =
    readFrom .value (.arr sofar :: outer) rest := rfl

theorem readFrom_comma_obj : readFrom .more (.obj members :: outer) (.mark ',' :: rest) =
    readFrom .name (.obj members :: outer) rest := rfl

theorem readFrom_end_arr : readFrom .more (.arr sofar :: outer) (.mark ']' :: rest) =
    readAfter (.arr sofar.reverse) outer rest := rfl

theorem readFrom_end_obj : readFrom .more (.obj members :: outer) (.mark '\x7d' :: rest) =
    readAfter (.obj members.reverse) outer rest := rfl

theorem readFrom_member {expect : Expect} (h : expect = .name ∨ expect = .firstName) :
    readFrom expect (.obj members :: outer) (.value (.text name) :: .mark ':' :: rest) =
      readFrom .value (.member members name :: outer) rest := by
  rcases h with rfl | rfl <;> rfl

end

theorem reads_leaf {j : Json} {value : Option Json}
    (h : ∀ rest, Stops rest → lexemes (j.compact.toList ++ rest) =
      (lexemes rest).map (.value (.leaf value) :: ·)) :
    Reads j (.leaf value) [.value (.leaf value)] := by
  refine ⟨h, ?_⟩
  rintro expect (rfl | rfl) stack rest <;> rfl

theorem isAlpha_of_isDigit {c : Char} (h : c.isDigit = true) : c.isAlpha = false := by
  have halpha : c.isAlpha =
      (decide (65 ≤ c.val ∧ c.val ≤ 90) || decide (97 ≤ c.val) && decide (c.val ≤ 122)) :=
    rfl
  have hdigit : c.isDigit = (decide (48 ≤ c.val) && decide (c.val ≤ 57)) := rfl
  rw [hdigit] at h
  rw [halpha]
  simp only [Bool.and_eq_true, Bool.or_eq_false_iff, Bool.and_eq_false_iff, decide_eq_true_eq,
    decide_eq_false_iff_not, UInt32.le_iff_toNat_le, UInt32.reduceToNat] at h ⊢
  omega

theorem exists_reads_int {n : Int} (h : 0 ≤ n) :
    ∃ d tokens, Drafts (.int n) d ∧ Reads (.int n) d tokens := by
  obtain ⟨m, rfl⟩ := Int.eq_ofNat_of_zero_le h
  obtain ⟨value, hnumber, hfits, hvalue⟩ := number?_toDigits m
  refine ⟨.leaf value, _, .int hvalue hfits, reads_leaf fun rest hrest => ?_⟩
  have htext : (compact (.int m)).toList = Nat.toDigits 10 m := by
    rw [compact]
    exact Nat.toList_repr
  have hdigit : ∀ c ∈ Nat.toDigits 10 m, c.isDigit = true :=
    fun c hc => Nat.isDigit_of_mem_toDigits (by decide) (by decide) hc
  rw [htext]
  cases hd : Nat.toDigits 10 m with
  | nil => exact absurd hd Nat.toDigits_ne_nil
  | cons c plain =>
    rw [hd] at hdigit hnumber
    refine lexemes_plain c plain (fun x hx => ?_) hrest ?_
    · simp [isPlain, Char.isAlphanum, hdigit x hx]
    · have halpha := isAlpha_of_isDigit (hdigit c List.mem_cons_self)
      simpa [halpha] using hnumber

theorem reads_null : Reads .null (.leaf (some .null)) [.value (.leaf (some .null))] :=
  reads_leaf fun _ hrest =>
    lexemes_plain 'n' ['u', 'l', 'l'] (List.all_eq_true.mp (by decide)) hrest rfl

theorem reads_bool (b : Bool) :
    Reads (.bool b) (.leaf (some (.bool b))) [.value (.leaf (some (.bool b)))] := by
  refine reads_leaf fun rest hrest => ?_
  cases b with
  | true => exact lexemes_plain 't' ['r', 'u', 'e'] (List.all_eq_true.mp (by decide)) hrest rfl
  | false =>
    exact lexemes_plain 'f' ['a', 'l', 's', 'e'] (List.all_eq_true.mp (by decide)) hrest rfl

theorem reads_str (s : String) :
    Reads (.str s) (.text (printed s)) [.value (.text (printed s))] := by
  refine ⟨fun rest _ => lexemes_quote s rest, ?_⟩
  rintro expect (rfl | rfl) stack rest <;> rfl

section Items

variable {item : Json} {draft : Draft} {tokens : List Lexeme} (h : Reads item draft tokens)

include h

theorem readsItems_singleton : ReadsItems [item] [draft] (tokens ++ [.mark ']']) := by
  refine ⟨fun rest => ?_, fun expect he sofar outer rest => ?_⟩
  · have hstops : Stops (']' :: rest) := stops_cons (by decide) rest
    simp only [compactItems, List.map_cons, List.map_nil, List.intercalate_singleton,
      h.lexed _ hstops, lexemes_mark (c := ']') (by decide), Option.map_map]
    simp [Function.comp_def]
  · rw [List.append_assoc, h.read expect he, readAfter_arr, List.singleton_append,
      readFrom_end_arr, List.reverse_cons]

theorem readsItems_cons {next : Json} {items : List Json} {drafts : List Draft}
    {more : List Lexeme} (hrest : ReadsItems (next :: items) drafts more) :
    ReadsItems (item :: next :: items) (draft :: drafts) (tokens ++ .mark ',' :: more) := by
  refine ⟨fun rest => ?_, fun expect he sofar outer rest => ?_⟩
  · have hlexed := hrest.lexed rest
    simp only [compactItems, List.map_cons] at hlexed ⊢
    rw [List.intercalate_cons_cons, List.append_assoc, List.append_assoc, List.singleton_append,
      h.lexed _ (stops_cons (by decide) _), lexemes_mark (by decide), hlexed]
    simp [Function.comp_def]
  · rw [List.append_assoc, h.read expect he, readAfter_arr, List.cons_append, readFrom_comma_arr,
      hrest.read .value (.inl rfl), List.reverse_cons, List.append_assoc, List.singleton_append]

end Items

section Members

variable {value : Json} {draft : Draft} {tokens : List Lexeme} (h : Reads value draft tokens)
  (name : String)

include h

theorem readsMembers_singleton : ReadsMembers [(name, value)] [(printed name, draft)]
    (.value (.text (printed name)) :: .mark ':' :: tokens ++ [.mark '\x7d']) := by
  refine ⟨fun rest => ?_, fun expect he sofar outer rest => ?_⟩
  · have hstops : Stops ('\x7d' :: rest) := stops_cons (by decide) rest
    simp only [compactMembers, List.map_cons, List.map_nil, List.intercalate_singleton,
      String.toList_append, List.append_assoc, lexemes_quote]
    rw [show ":".toList = [':'] from rfl, List.singleton_append, lexemes_mark (by decide),
      h.lexed _ hstops, lexemes_mark (by decide)]
    simp [Function.comp_def]
  · rw [List.cons_append, List.cons_append, List.cons_append, List.cons_append, readFrom_member _ _ _ _ he,
      List.append_assoc, h.read .value (.inl rfl), readAfter_member, List.singleton_append,
      readFrom_end_obj, List.reverse_cons]

theorem readsMembers_cons {next : String × Json} {members : List (String × Json)}
    {drafts : List (Literal × Draft)} {more : List Lexeme}
    (hrest : ReadsMembers (next :: members) drafts more) :
    ReadsMembers ((name, value) :: next :: members) ((printed name, draft) :: drafts)
      (.value (.text (printed name)) :: .mark ':' :: tokens ++ .mark ',' :: more) := by
  refine ⟨fun rest => ?_, fun expect he sofar outer rest => ?_⟩
  · have hlexed := hrest.lexed rest
    obtain ⟨text, texts, htexts⟩ : ∃ text texts,
        (compactMembers (next :: members)).map String.toList = text :: texts := ⟨_, _, rfl⟩
    rw [htexts] at hlexed
    rw [compactMembers, List.map_cons, htexts, List.intercalate_cons_cons]
    simp only [String.toList_append, List.append_assoc, lexemes_quote]
    rw [show ":".toList = [':'] from rfl, List.singleton_append, lexemes_mark (by decide),
      List.singleton_append, h.lexed _ (stops_cons (by decide) _), lexemes_mark (by decide), hlexed]
    simp [Function.comp_def]
  · rw [List.cons_append, List.cons_append, List.cons_append, List.cons_append, readFrom_member _ _ _ _ he,
      List.append_assoc, h.read .value (.inl rfl), readAfter_member, List.cons_append,
      readFrom_comma_obj, hrest.read .name (.inl rfl), List.reverse_cons, List.append_assoc,
      List.singleton_append]

end Members

theorem reads_arr {items : List Json} {drafts : List Draft} {tokens : List Lexeme}
    (h : ReadsItems items drafts tokens) : Reads (.arr items) (.arr drafts) (.mark '[' :: tokens) := by
  refine ⟨fun rest _ => ?_, ?_⟩
  · have htext : (compact (.arr items)).toList ++ rest =
        '[' :: ([','].intercalate ((compactItems items).map String.toList) ++ ']' :: rest) := by
      simp [compact, String.toList_intercalate]
    rw [htext, lexemes_mark (by decide), h.lexed]
    simp [Function.comp_def]
  · rintro expect (rfl | rfl) stack rest
    · exact h.read .first (.inr rfl) [] stack rest
    · exact h.read .first (.inr rfl) [] stack rest

theorem reads_obj {members : List (String × Json)} {drafts : List (Literal × Draft)}
    {tokens : List Lexeme} (h : ReadsMembers members drafts tokens) :
    Reads (.obj members) (.obj drafts) (.mark '\x7b' :: tokens) := by
  refine ⟨fun rest _ => ?_, ?_⟩
  · have htext : (compact (.obj members)).toList ++ rest =
        '\x7b' :: ([','].intercalate ((compactMembers members).map String.toList) ++
          '\x7d' :: rest) := by
      simp [compact, String.toList_intercalate]
    rw [htext, lexemes_mark (by decide), h.lexed]
    simp [Function.comp_def]
  · rintro expect (rfl | rfl) stack rest
    · exact h.read .firstName (.inr rfl) [] stack rest
    · exact h.read .firstName (.inr rfl) [] stack rest

theorem reads_arr_nil : Reads (.arr []) (.arr []) [.mark '[', .mark ']'] := by
  refine ⟨fun rest _ => ?_, ?_⟩
  · have htext : (compact (.arr [])).toList ++ rest = '[' :: ']' :: rest := by
      simp [compact, compactItems]
    rw [htext, lexemes_mark (by decide), lexemes_mark (by decide)]
    simp [Function.comp_def]
  · rintro expect (rfl | rfl) stack rest <;> rfl

theorem reads_obj_nil : Reads (.obj []) (.obj []) [.mark '\x7b', .mark '\x7d'] := by
  refine ⟨fun rest _ => ?_, ?_⟩
  · have htext : (compact (.obj [])).toList ++ rest = '\x7b' :: '\x7d' :: rest := by
      simp [compact, compactMembers]
    rw [htext, lexemes_mark (by decide), lexemes_mark (by decide)]
    simp [Function.comp_def]
  · rintro expect (rfl | rfl) stack rest <;> rfl

mutual

theorem exists_reads : ∀ (j : Json), j.Printable → ∃ d tokens, Drafts j d ∧ Reads j d tokens
  | .null, _ => ⟨_, _, .null, reads_null⟩
  | .bool b, _ => ⟨_, _, .bool b, reads_bool b⟩
  | .int _, h => exists_reads_int h
  | .str s, _ => ⟨_, _, .str s, reads_str s⟩
  | .arr items, h => by
    rcases exists_readsItems items h with rfl | ⟨drafts, tokens, hd, hr⟩
    · exact ⟨_, _, .arr .nil, reads_arr_nil⟩
    · exact ⟨_, _, .arr hd, reads_arr hr⟩
  | .obj members, h => by
    rcases exists_readsMembers members h with rfl | ⟨drafts, tokens, hd, hr⟩
    · exact ⟨_, _, .obj .nil, reads_obj_nil⟩
    · exact ⟨_, _, .obj hd, reads_obj hr⟩

theorem exists_readsItems : ∀ (items : List Json), PrintableItems items →
    items = [] ∨ ∃ drafts tokens, DraftsItems items drafts ∧ ReadsItems items drafts tokens
  | [], _ => .inl rfl
  | item :: items, h => by
    obtain ⟨d, tokens, hd, hr⟩ := exists_reads item h.1
    rcases exists_readsItems items h.2 with rfl | ⟨drafts, more, hdrafts, hmore⟩
    · exact .inr ⟨_, _, .cons hd .nil, readsItems_singleton hr⟩
    · cases hdrafts with
      | nil => exact .inr ⟨_, _, .cons hd .nil, readsItems_singleton hr⟩
      | cons hd' hdrafts => exact .inr ⟨_, _, .cons hd (.cons hd' hdrafts), readsItems_cons hr hmore⟩

theorem exists_readsMembers : ∀ (members : List (String × Json)), PrintableMembers members →
    members = [] ∨
      ∃ drafts tokens, DraftsMembers members drafts ∧ ReadsMembers members drafts tokens
  | [], _ => .inl rfl
  | (name, value) :: members, h => by
    obtain ⟨d, tokens, hd, hr⟩ := exists_reads value h.1
    rcases exists_readsMembers members h.2 with rfl | ⟨drafts, more, hdrafts, hmore⟩
    · exact .inr ⟨_, _, .cons hd .nil, readsMembers_singleton hr name⟩
    · cases hdrafts with
      | nil => exact .inr ⟨_, _, .cons hd .nil, readsMembers_singleton hr name⟩
      | cons hd' hdrafts =>
        exact .inr ⟨_, _, .cons hd (.cons hd' hdrafts), readsMembers_cons hr name hmore⟩

end

theorem draft?_compact {j : Json} (h : j.Printable) : ∃ d, Drafts j d ∧ draft? j.compact = some d := by
  obtain ⟨d, tokens, hd, hr⟩ := exists_reads j h
  refine ⟨d, hd, ?_⟩
  have hlexed := hr.lexed [] nofun
  have hread := hr.read .value (.inl rfl) [] []
  rw [List.append_nil] at hlexed hread
  rw [draft?, hlexed, show lexemes [] = some [] by rw [lexemes]]
  simp only [Option.map_some, Option.bind_some, List.append_nil, hread]
  rfl

end Lamina.Json
