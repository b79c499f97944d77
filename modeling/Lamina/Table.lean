/-! Tables: keys with values, sorted by key, each key once. -/

namespace Lamina

/-- Keys are in a linear order. -/
class KeyOrder (κ : Type) [LT κ] : Prop where
  irrefl (a : κ) : ¬ a < a
  trans {a b c : κ} : a < b → b < c → a < c
  eq_of_not_lt {a b : κ} : ¬ a < b → ¬ b < a → a = b

instance : KeyOrder Nat where
  irrefl := Nat.lt_irrefl
  trans := Nat.lt_trans
  eq_of_not_lt h h' := Nat.le_antisymm (Nat.not_lt.mp h') (Nat.not_lt.mp h)

instance : KeyOrder String where
  irrefl := String.lt_irrefl
  trans := String.lt_trans
  eq_of_not_lt h h' := String.le_antisymm h' h

instance : KeyOrder (List String) where
  irrefl := List.lt_irrefl
  trans := List.lt_trans
  eq_of_not_lt h h' := List.le_antisymm h' h

@[ext]
structure Table (κ α : Type) [LT κ] where
  entries : List (κ × α)
  sorted : entries.Pairwise (·.1 < ·.1)
  deriving DecidableEq, Repr

namespace Table

variable {κ α β : Type} [LT κ]

instance : EmptyCollection (Table κ α) := ⟨⟨[], .nil⟩⟩

instance : CoeDep (List β) [] (Table κ α) := ⟨{}⟩

instance : Inhabited (Table κ α) := ⟨{}⟩

instance : Membership (κ × α) (Table κ α) := ⟨fun t e => e ∈ t.entries⟩

def single (key : κ) (value : α) : Table κ α := ⟨[(key, value)], List.pairwise_singleton _ _⟩

/-- The values at the numbers from `n` on. -/
def numbered (n : Nat) (values : List α) : Table Nat α where
  entries := (List.range' n values.length).zip values
  sorted := by
    rw [← List.pairwise_map, List.map_fst_zip (Nat.le_of_eq List.length_range')]
    exact List.pairwise_lt_range'

def length (t : Table κ α) : Nat := t.entries.length

def isEmpty (t : Table κ α) : Bool := t.entries.isEmpty

def keys (t : Table κ α) : List κ := t.entries.map Prod.fst

def map (f : κ × α → β) (t : Table κ α) : List β := t.entries.map f

section

variable [DecidableEq κ]

def get? (t : Table κ α) (key : κ) : Option α := t.entries.lookup key

def contains (t : Table κ α) (key : κ) : Bool := (t.get? key).isSome

def erase (t : Table κ α) (key : κ) : Table κ α :=
  ⟨t.entries.filter (·.1 ≠ key), t.sorted.filter _⟩

end

variable [KeyOrder κ] [DecidableLT κ]

def set (t : Table κ α) (key : κ) (value : α) : Table κ α where
  entries := t.entries.filter (·.1 < key) ++ (key, value) :: t.entries.filter (key < ·.1)
  sorted := by
    refine List.pairwise_append.mpr ⟨t.sorted.filter _, List.pairwise_cons.mpr
      ⟨fun e he => ?_, t.sorted.filter _⟩, fun e he e' he' => ?_⟩
    · exact of_decide_eq_true (List.mem_filter.mp he).2
    · have hlt : e.1 < key := of_decide_eq_true (List.mem_filter.mp he).2
      rcases List.mem_cons.mp he' with rfl | he'
      · exact hlt
      · exact KeyOrder.trans hlt (of_decide_eq_true (List.mem_filter.mp he').2)

def ofPairs (pairs : List (κ × α)) : Table κ α :=
  pairs.foldl (fun t (key, value) => t.set key value) {}

instance : Coe (List (κ × α)) (Table κ α) := ⟨ofPairs⟩

end Table

end Lamina
