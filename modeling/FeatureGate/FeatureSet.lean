import FeatureGate.Text.Bytes

/-!
Sets of feature names. A set is kept as the ascending list of its names in byte
order, so equal sets are equal values and the names are listed in order without
further work.
-/

namespace FeatureGate

/-- A set of feature names, listed in ascending byte order. -/
@[ext]
structure FeatureSet where
  names : List Bytes
  ascending : names.Pairwise (· < ·)
deriving DecidableEq, Repr

namespace FeatureSet

/-- Put a name into an ascending list. -/
def insertInto (name : Bytes) : List Bytes → List Bytes
  | [] => [name]
  | other :: names =>
      if name < other then name :: other :: names
      else if name = other then other :: names
      else other :: insertInto name names

theorem mem_insertInto {name other : Bytes} {names : List Bytes} :
    other ∈ insertInto name names ↔ other = name ∨ other ∈ names := by
  induction names with
  | nil => simp [insertInto]
  | cons head tail ih =>
      simp only [insertInto]
      split
      · simp
      · split
        · next h => simp [h]
        · simp only [List.mem_cons, ih]
          grind

/-- Of two different byte strings one comes first. -/
theorem lt_of_not_lt {a b : Bytes} (hlt : ¬ a < b) (hne : a ≠ b) : b < a := by
  rcases List.le_iff_lt_or_eq.mp (List.not_lt.mp hlt) with h | h
  · exact h
  · exact absurd h.symm hne

theorem pairwise_insertInto {name : Bytes} {names : List Bytes}
    (h : names.Pairwise (· < ·)) :
    (insertInto name names).Pairwise (· < ·) := by
  induction names with
  | nil => simp [insertInto]
  | cons head tail ih =>
      rw [List.pairwise_cons] at h
      simp only [insertInto]
      split
      · rename_i hlt
        simp only [List.pairwise_cons, List.mem_cons]
        refine ⟨?_, h.1, h.2⟩
        rintro other (rfl | hmem)
        · exact hlt
        · exact List.lt_trans hlt (h.1 other hmem)
      · rename_i hlt
        split
        · exact List.pairwise_cons.mpr h
        · rename_i hne
          rw [List.pairwise_cons]
          refine ⟨?_, ih h.2⟩
          intro other hmem
          rcases mem_insertInto.mp hmem with rfl | hmem
          · exact lt_of_not_lt hlt hne
          · exact h.1 other hmem

def empty : FeatureSet := ⟨[], List.Pairwise.nil⟩

instance : Membership Bytes FeatureSet := ⟨fun set name => name ∈ set.names⟩

instance (name : Bytes) (set : FeatureSet) : Decidable (name ∈ set) :=
  inferInstanceAs (Decidable (name ∈ set.names))

def insert (set : FeatureSet) (name : Bytes) : FeatureSet :=
  ⟨insertInto name set.names, pairwise_insertInto set.ascending⟩

def erase (set : FeatureSet) (name : Bytes) : FeatureSet :=
  ⟨set.names.filter (· ≠ name), set.ascending.filter _⟩

/-- The set of the names in a list. -/
def ofList (names : List Bytes) : FeatureSet := names.foldl insert empty

@[simp] theorem not_mem_empty (name : Bytes) : name ∉ empty :=
  fun h => nomatch h

@[simp] theorem mem_insert {set : FeatureSet} {name other : Bytes} :
    other ∈ set.insert name ↔ other = name ∨ other ∈ set :=
  mem_insertInto

@[simp] theorem mem_erase {set : FeatureSet} {name other : Bytes} :
    other ∈ set.erase name ↔ other ≠ name ∧ other ∈ set := by
  change other ∈ set.names.filter (· ≠ name) ↔ other ≠ name ∧ other ∈ set.names
  simp [and_comm]

theorem mem_foldl_insert {names : List Bytes} {set : FeatureSet}
    {name : Bytes} :
    name ∈ names.foldl insert set ↔ name ∈ names ∨ name ∈ set := by
  induction names generalizing set with
  | nil => simp
  | cons head tail ih => simp [ih]; grind

@[simp] theorem mem_ofList {names : List Bytes} {name : Bytes} :
    name ∈ ofList names ↔ name ∈ names := by
  simp [ofList, mem_foldl_insert]

end FeatureSet

end FeatureGate
