import Lamina.Proofs.Chunk.Lines
import Lamina.Proofs.Chunk.Literal

/-! Code generation prints the tree. The plain print of a tree is made of stretches of text with
script code between them; a chunk has one line for each stretch that is not empty, and the lines
of the code. -/

namespace Lamina

open Lamina.Text

/-- What a tree prints: a stretch of text, given by its pieces, up to script code or the end. -/
inductive Printed
  | stretch (pieces : List (String × Origin))
  | upTo (pieces : List (String × Origin)) (code : String) (origin : Origin) (rest : Printed)

namespace Printed

def text (s : String) (o : Origin) : Printed := stretch [(s, o)]

def code (s : String) (o : Origin) : Printed := upTo [] s o (stretch [])

def append : Printed → Printed → Printed
  | stretch a, stretch b => stretch (a ++ b)
  | stretch a, upTo b code o rest => upTo (a ++ b) code o rest
  | upTo a code o rest, b => upTo a code o (append rest b)

instance : Append Printed := ⟨append⟩

def joined (pieces : List (String × Origin)) : String := String.join (pieces.map Prod.fst)

/-- The line that writes a stretch, with the origin of the first piece that is not empty; there is
none for an empty stretch. -/
def written (pieces : List (String × Origin)) : List (String × Origin) :=
  match pieces.find? (·.1 ≠ "") with
  | none => []
  | some first => [("__write(\"" ++ Output.escape (joined pieces) ++ "\")", first.2)]

def lines : Printed → List (String × Origin)
  | stretch pieces => written pieces
  | upTo pieces code o rest =>
    written pieces ++ (linesOf code).mapIdx (fun i line => (line, o.down i)) ++ lines rest

end Printed

namespace Node

/-- The constructs that can be written. -/
def Printable : Node → Prop
  | directive .. | echo .. | fragment .. => False
  | _ => True

instance : DecidablePred Printable
  | directive .. | echo .. | fragment .. => .isFalse id
  | template .. | raw .. | tag .. | host .. | block .. | stack .. | push .. => .isTrue trivial

mutual

/-- The plain print. What cannot be written has none. -/
def print : Node → Printed
  | template children _ => printAll children
  | block _ children _ => printAll children
  | stack _ children _ => printAll children
  | raw text o => .text text o
  | host code o => .code code o
  | tag name attrs children closing o =>
    match closing with
    | .selfClosing => .text ("<" ++ name) o ++ printAttrs attrs ++ .text "/>" o
    | .void => .text ("<" ++ name) o ++ printAttrs attrs ++ .text ">" o
    | .pair =>
      .text ("<" ++ name) o ++ printAttrs attrs ++ .text ">" o ++ printAll children ++
        .text ("</" ++ name ++ ">") o
  | push .. => .stretch []
  | directive .. => .stretch []
  | echo .. => .stretch []
  | fragment .. => .stretch []

def printAll : List Node → Printed
  | [] => .stretch []
  | node :: rest => print node ++ printAll rest

def printAttrs : List (Attr Node) → Printed
  | [] => .stretch []
  | attr :: rest => printAttr attr ++ printAttrs rest

def printAttr : Attr Node → Printed
  | ⟨name, .bare, o⟩ => .text (" " ++ name) o
  | ⟨name, .unquoted text, o⟩ => .text (" " ++ name ++ "=" ++ text) o
  | ⟨name, .quoted quote nodes, o⟩ =>
    .text (" " ++ name ++ "=" ++ String.singleton quote) o ++ printAll nodes ++
      .text (String.singleton quote) o
  | ⟨_, .dynamic nodes, o⟩ => .text " " o ++ printAll nodes

end

end Node

namespace Printed

theorem stretch_append_stretch (a b : List (String × Origin)) :
    stretch a ++ stretch b = stretch (a ++ b) := rfl

theorem upTo_append (a : List (String × Origin)) (c : String) (o : Origin) (rest b : Printed) :
    upTo a c o rest ++ b = upTo a c o (rest ++ b) := rfl

theorem stretch_append_upTo (a b : List (String × Origin)) (c : String) (o : Origin)
    (rest : Printed) : stretch a ++ upTo b c o rest = upTo (a ++ b) c o rest := rfl

@[simp]
theorem nil_append (b : Printed) : stretch [] ++ b = b := by
  cases b <;> rfl

@[simp]
theorem append_nil (a : Printed) : a ++ stretch [] = a := by
  induction a with
  | stretch pieces => rw [stretch_append_stretch, List.append_nil]
  | upTo pieces c o rest ih => rw [upTo_append, ih]

theorem append_assoc (a b c : Printed) : a ++ b ++ c = a ++ (b ++ c) := by
  induction a with
  | stretch pieces =>
    cases b with
    | stretch pieces' =>
      cases c with
      | stretch => simp only [stretch_append_stretch, List.append_assoc]
      | upTo => simp only [stretch_append_stretch, stretch_append_upTo, List.append_assoc]
    | upTo pieces' code o rest => rfl
  | upTo pieces code o rest ih => rw [upTo_append, upTo_append, upTo_append, ih]

def ofOutput : List Output → Printed
  | [] => stretch []
  | .text t o :: rest => text t o ++ ofOutput rest
  | .code c o :: rest => code c o ++ ofOutput rest

theorem ofOutput_append (a b : List Output) : ofOutput (a ++ b) = ofOutput a ++ ofOutput b := by
  induction a with
  | nil => rw [List.nil_append, ofOutput, nil_append]
  | cons out a ih => cases out <;> rw [List.cons_append, ofOutput, ofOutput, ih, append_assoc]

end Printed

namespace Output

open Printed

theorem codeLines_eq (o : Origin) (n : Nat) (code : List String) :
    codeLines o n code = code.mapIdx fun i line => (line, o.down (n + i)) := by
  induction code generalizing n with
  | nil => rfl
  | cons line rest ih =>
    rw [codeLines, ih, List.mapIdx_cons]
    simp only [Nat.add_zero, Nat.add_assoc, Nat.add_comm 1]

/-- Pending text of a stretch: all of it so far, with the origin of the first piece that is not
empty. -/
def pendingOf (pieces : List (String × Origin)) : Option (String × Origin) :=
  (pieces.find? (·.1 ≠ "")).map fun first => (joined pieces, first.2)

theorem flush_pendingOf (pieces : List (String × Origin)) :
    flush (pendingOf pieces) = written pieces := by
  rw [pendingOf, written]
  cases pieces.find? (·.1 ≠ "") <;> rfl

theorem joined_append (pieces : List (String × Origin)) (t : String) (o : Origin) :
    joined (pieces ++ [(t, o)]) = joined pieces ++ t := by
  simp [joined]

theorem joined_eq_empty {pieces : List (String × Origin)}
    (h : pieces.find? (·.1 ≠ "") = none) : joined pieces = "" := by
  have hall : ∀ p ∈ pieces, p.1 = "" := by simpa using h
  induction pieces with
  | nil => rfl
  | cons p pieces ih =>
    obtain ⟨hp, hrest⟩ := List.forall_mem_cons.mp hall
    have := ih (List.find?_eq_none.mpr (by simpa using hrest)) hrest
    simp_all [joined]

theorem linesFrom_pendingOf (pieces : List (String × Origin)) (output : List Output) :
    linesFrom (pendingOf pieces) output = (stretch pieces ++ ofOutput output).lines := by
  induction output generalizing pieces with
  | nil => rw [linesFrom, flush_pendingOf, ofOutput, append_nil, Printed.lines]
  | cons out rest ih =>
    cases out with
    | text t o =>
      have hnext : stretch pieces ++ ofOutput (.text t o :: rest) =
          stretch (pieces ++ [(t, o)]) ++ ofOutput rest := by
        rw [ofOutput, ← append_assoc]
        rfl
      have hstep : linesFrom (pendingOf pieces) (.text t o :: rest) =
          linesFrom (pendingOf (pieces ++ [(t, o)])) rest := by
        by_cases ht : t = ""
        · subst ht
          have hsame : pendingOf (pieces ++ [("", o)]) = pendingOf pieces := by
            rw [pendingOf, pendingOf, joined_append, List.find?_append]
            simp
          rw [hsame]
          cases pendingOf pieces <;> simp [linesFrom]
        · have htake : List.find? (·.1 ≠ "") [(t, o)] = some (t, o) := by simp [ht]
          rw [pendingOf, pendingOf, joined_append, List.find?_append, htake]
          cases hfind : pieces.find? (·.1 ≠ "") with
          | none => simp [linesFrom, joined_eq_empty hfind, ht]
          | some first => simp [linesFrom, ht]
      rw [hstep, hnext, ih]
    | code c o =>
      have hnext : stretch pieces ++ ofOutput (.code c o :: rest) =
          upTo pieces c o (ofOutput rest) := by
        rw [ofOutput, Printed.code, upTo_append, nil_append, stretch_append_upTo, List.append_nil]
      have hrest := ih []
      rw [nil_append] at hrest
      rw [linesFrom, hnext, Printed.lines, flush_pendingOf, codeLines_eq]
      simp only [Nat.zero_add]
      exact congrArg _ hrest

theorem lines_eq_print (output : List Output) : lines output = (ofOutput output).lines := by
  rw [← nil_append (ofOutput output)]
  exact linesFrom_pendingOf [] output

theorem content_eq_ite (lines : List String) :
    content lines = if lines = [""] then "" else Program.joinLines lines := by
  by_cases h : lines = [""]
  · subst h
    decide
  · rw [if_neg h, content_eq_joinLines h]

end Output

namespace Node

open Printed

def Prints (emitted : Except Failure (List Output)) (printed : Printed) : Prop :=
  ∃ output, emitted = .ok output ∧ ofOutput output = printed

theorem prints_emitAll {nodes : List Node} (h : ∀ n ∈ nodes, Prints (n.emit .all) n.print) :
    Prints (emitAll .all nodes) (printAll nodes) := by
  induction nodes with
  | nil => exact ⟨[], rfl, rfl⟩
  | cons n nodes ih =>
    obtain ⟨⟨first, hfirst, hf⟩, hrest⟩ := List.forall_mem_cons.mp h
    obtain ⟨rest, hok, hr⟩ := ih hrest
    refine ⟨first ++ rest, ?_, ?_⟩
    · rw [emitAll, hfirst, hok]
      rfl
    · rw [ofOutput_append, hf, hr, printAll]

theorem prints_emitAttr {a : Attr Node}
    (h : ∀ c ∈ a.value.inner, Prints (c.emit .all) c.print) :
    Prints (emitAttr .all a) (printAttr a) := by
  obtain ⟨name, value, o⟩ := a
  cases value with
  | bare | unquoted => exact ⟨_, rfl, append_nil _⟩
  | quoted quote nodes =>
    have hall : Prints (emitAll .all nodes) (printAll nodes) := prints_emitAll h
    obtain ⟨inner, hinner, hi⟩ := hall
    refine ⟨_, by rw [emitAttr, hinner]; rfl, ?_⟩
    rw [printAttr, ofOutput_append, ofOutput, hi, ofOutput, ofOutput, append_nil]
  | dynamic nodes =>
    have hall : Prints (emitAll .all nodes) (printAll nodes) := prints_emitAll h
    obtain ⟨inner, hinner, hi⟩ := hall
    refine ⟨_, by rw [emitAttr, hinner]; rfl, ?_⟩
    rw [printAttr, ofOutput, hi]

theorem prints_emitAttrs {attrs : List (Attr Node)}
    (h : ∀ a ∈ attrs, ∀ c ∈ a.value.inner, Prints (c.emit .all) c.print) :
    Prints (emitAttrs .all attrs) (printAttrs attrs) := by
  induction attrs with
  | nil => exact ⟨[], rfl, rfl⟩
  | cons a attrs ih =>
    obtain ⟨ha, hrest⟩ := List.forall_mem_cons.mp h
    obtain ⟨first, hfirst, hf⟩ := prints_emitAttr ha
    obtain ⟨rest, hok, hr⟩ := ih hrest
    refine ⟨first ++ rest, ?_, ?_⟩
    · rw [emitAttrs, hfirst, hok]
      rfl
    · rw [ofOutput_append, hf, hr, printAttrs]

theorem prints_emit (n : Node) (h : n.Everywhere Printable) : Prints (n.emit .all) n.print := by
  induction n using byParts with
  | parts n iha ihc =>
    obtain ⟨hhere, ha, hc⟩ := everywhere_iff.mp h
    have hall : Prints (emitAll .all n.children) (printAll n.children) :=
      prints_emitAll fun c hm => ihc c hm (hc c hm)
    have hattrs : Prints (emitAttrs .all n.attrs) (printAttrs n.attrs) :=
      prints_emitAttrs fun a hm c hm' => iha a hm c hm' (ha a hm c hm')
    cases n with
    | directive | echo | fragment => exact hhere.elim
    | template | block | stack => exact hall
    | push => exact ⟨[], rfl, rfl⟩
    | raw | host => exact ⟨_, rfl, append_nil _⟩
    | tag name attrs children closing o =>
      replace hattrs : Prints (emitAttrs .all attrs) (printAttrs attrs) := hattrs
      replace hall : Prints (emitAll .all children) (printAll children) := hall
      obtain ⟨as, has, hpa⟩ := hattrs
      obtain ⟨inner, hinner, hpi⟩ := hall
      cases closing with
      | selfClosing | void =>
        refine ⟨_, by rw [emit, has]; rfl, ?_⟩
        rw [print, ofOutput_append, ofOutput, hpa, ofOutput, ofOutput, append_nil]
      | pair =>
        refine ⟨_, by rw [emit, has, hinner]; rfl, ?_⟩
        rw [print, ofOutput_append, ofOutput_append, ofOutput, ofOutput, ofOutput, ofOutput, hpa,
          hpi, append_nil]
        simp only [append_assoc]

/-- A tree of constructs that can be written compiles to the lines of its plain print, each mapped
to its origin; the literals in them read back as the printed text. Only the text of a lone blank
line is missing. -/
theorem compile_eq_print (root : Node) (h : root.Everywhere Printable) (paths : List String) :
    let lines := root.print.lines
    root.compile .all paths =
      .ok ⟨if lines.map Prod.fst = [""] then "" else Program.joinLines (lines.map Prod.fst), paths,
        ⟨paths, .numbered 1 (lines.map Prod.snd)⟩⟩ ∧
    ∀ text, Script.Token.Denotes (Output.escape text) text := by
  refine ⟨?_, Output.denotes_escape⟩
  obtain ⟨output, hok, hprint⟩ := prints_emit root h
  rw [compile, hok, Except.map, Chunk.ofOutput, Output.lines_eq_print, hprint,
    Output.content_eq_ite]

/-- A paragraph, script code of two lines and a push, which prints nothing. -/
theorem compile_eq_print_paragraph :
    let site (line : Nat) := Origin.of "a.stm" line .html ""
    let root := template [.tag "p" [⟨"class", .quoted '"' [.raw "a\"b" (site 1)], site 1⟩]
      [.raw "" (site 1), .raw "x\n" (site 2)] .pair (site 1), .host "local y\n\n" (site 3),
      .push "s" false [.raw "z" (site 5)] (site 5), .raw "" (site 6), .raw "w" (site 7)] (site 1)
    root.Everywhere Printable ∧
    root.compile .all [] = .ok
      ⟨"__write(\"<p class=\\\"a\\\"b\\\">x\\n</p>\")\nlocal y\n\n__write(\"w\")\n", [],
        ⟨[], .numbered 1 [site 1, site 3, site 4, site 7]⟩⟩ := by
  intro site root
  have h : root.Everywhere Printable := by decide
  exact ⟨h, (compile_eq_print root h []).1.trans (congrArg Except.ok (by decide +kernel))⟩

/-- Code that is one blank line is mapped, but its line is not in the text. -/
theorem lone_blank_code_is_lost :
    let root := template [.host "\n" (.of "a.stm" 1 .host "<?lua")] (.of "a.stm" 1 .html "template")
    root.Everywhere Printable ∧
    root.print.lines = [("", .of "a.stm" 1 .host "<?lua")] ∧
    root.compile .all ["a.stm"] =
      .ok ⟨"", ["a.stm"], ⟨["a.stm"], .single 1 (.of "a.stm" 1 .host "<?lua")⟩⟩ := by
  refine ⟨by decide, by decide, by rfl⟩

end Node

end Lamina
