import Mathlib
import FeatureGate.Proofs.GraphExactness
import FeatureGate.Proofs.Resolution

/-!
Options that are derived from one another, as memory holds them. A program fills
one register after the other with options, made from nothing or from an earlier
register. Options refer to their set of features: a change may hand the set on
that it finds, and where it makes a difference it copies the set and writes to
the copy. What is made so are the options that the change leads to, and no set
that was there is written to.
-/

namespace FeatureGate

namespace CompileOptions

theorem enable_eq_self {o : CompileOptions} {name : Bytes}
    (h : o.hasFeature name = true) :
    o.enable name = o := by
  apply eq_of_hasFeature_iff
  · rfl
  · intro other
    by_cases hother : other = name
    · simp [hother, h]
    · simp [hother]

theorem disable_eq_self {o : CompileOptions} {name : Bytes}
    (h : ¬ o.hasFeature name = true) :
    o.disable name = o := by
  apply eq_of_hasFeature_iff
  · rfl
  · intro other
    by_cases hother : other = name
    · simp [hother, h]
    · simp [hother]

end CompileOptions

namespace Registers

open FeatureSet

/-- A way to make options from nothing. -/
inductive Origin where
  | new
  | forTesting
  | withFeatures (names : List Bytes)
  | forTestingWithFeatures (names : List Bytes)
deriving DecidableEq, Repr

namespace Origin

def test : Origin → Bool
  | .new | .withFeatures _ => false
  | .forTesting | .forTestingWithFeatures _ => true

def names : Origin → List Bytes
  | .new | .forTesting => []
  | .withFeatures names | .forTestingWithFeatures names => names

def options : Origin → CompileOptions
  | .new => {}
  | .forTesting => .forTesting []
  | .withFeatures names => .withFeatures names
  | .forTestingWithFeatures names => .forTesting names

theorem options_eq (origin : Origin) :
    origin.options = ⟨origin.test, .ofList origin.names⟩ := by
  cases origin <;> rfl

end Origin

/-- A way to make options from other ones. -/
inductive Change where
  | setTest (value : Bool)
  | enable (name : Bytes)
  | disable (name : Bytes)
deriving DecidableEq, Repr

namespace Change

def apply (o : CompileOptions) : Change → CompileOptions
  | .setTest value => o.setTest value
  | .enable name => o.enable name
  | .disable name => o.disable name

def test? : Change → Option Bool
  | .setTest value => some value
  | _ => none

def feature? (name : Bytes) : Change → Option Bool
  | .setTest _ => none
  | .enable other => if other = name then some true else none
  | .disable other => if other = name then some false else none

theorem test_apply (o : CompileOptions) (change : Change) :
    (change.apply o).test = change.test?.getD o.test := by
  cases change <;> rfl

theorem hasFeature_apply (name : Bytes) (o : CompileOptions) (change : Change) :
    (change.apply o).hasFeature name = (change.feature? name).getD
      (o.hasFeature name) := by
  cases change with
  | setTest value => rfl
  | enable other =>
      by_cases hname : other = name
      · simp [apply, feature?, hname]
      · simp [apply, feature?, hname, Ne.symm hname]
  | disable other =>
      by_cases hname : other = name
      · simp [apply, feature?, hname]
      · simp [apply, feature?, hname, Ne.symm hname]

/-- Where each change either says what is seen afterwards or leaves it as it
was, the last one that says something has its way. -/
theorem foldl_apply_eq_last {α : Type} (seen : CompileOptions → α)
    (sets? : Change → Option α)
    (h : ∀ o change, seen (apply o change) = (sets? change).getD (seen o))
    (o : CompileOptions) (changes : List Change) :
    seen (changes.foldl apply o) = (changes.filterMap sets?).getLast?.getD
      (seen o) := by
  induction changes generalizing o with
  | nil => rfl
  | cons change changes ih =>
      rw [List.foldl_cons, ih, h]
      cases hsets : sets? change with
      | none => simp [hsets]
      | some value => simp [hsets, List.getLast?_cons]

end Change

/-- Options as they are held. The features are those of the set referred to;
without a reference there are none. -/
structure Handle where
  test : Bool
  ref : Option Nat
deriving DecidableEq, Repr

/-- Put a new set into memory and write names into it, one after the other. -/
def allocate (heap : List FeatureSet) (names : List Bytes) : List FeatureSet :=
  names.foldl (fun written name => written.modify heap.length fun set =>
    set.insert name)
      (heap ++ [.empty])

namespace Handle

def options (o : Handle) (heap : List FeatureSet) : CompileOptions where
  test := o.test
  features := (o.ref.bind fun ref => heap[ref]?).getD .empty

/-- The reference, if there is one, leads to a set. -/
def Valid (o : Handle) (heap : List FeatureSet) : Prop :=
  ∀ ref ∈ o.ref, ref < heap.length

/-- Copy the set and write to the copy. The keys are those of the set, in the
order in which they are copied. -/
def copyWith (o : Handle) (heap : List FeatureSet) (keys : List Bytes)
    (write : FeatureSet → FeatureSet) : List FeatureSet × Handle :=
  ((allocate heap keys).modify heap.length write, ⟨o.test, some heap.length⟩)

/-- Memory and options after a change. A set is copied only where the change
makes a difference to it. -/
def change (o : Handle) (heap : List FeatureSet) (keys : List Bytes) :
    Change → List FeatureSet × Handle
  | .setTest value => (heap, ⟨value, o.ref⟩)
  | .enable name =>
      if (o.options heap).hasFeature name then (heap, o)
      else o.copyWith heap keys fun set => set.insert name
  | .disable name =>
      if (o.options heap).hasFeature name then
        o.copyWith heap keys fun set => set.erase name
      else (heap, o)

end Handle

/-- Memory and options after options are made from nothing. -/
def construct (heap : List FeatureSet) (origin : Origin) :
    List FeatureSet × Handle :=
  if origin.names.isEmpty then (heap, ⟨origin.test, none⟩)
  else (allocate heap origin.names, ⟨origin.test, some heap.length⟩)

theorem modify_append_length (heap : List FeatureSet) (set : FeatureSet)
    (write : FeatureSet → FeatureSet) :
    (heap ++ [set]).modify heap.length write = heap ++ [write set] :=
  List.modifyTailIdx_add (List.modifyHead write) 0 heap [set]

theorem allocate_eq (heap : List FeatureSet) (names : List Bytes) :
    allocate heap names = heap ++ [.ofList names] := by
  -- Every name is written to the last place, and the sets before it stay as
  -- they are.
  have hfill : ∀ set : FeatureSet,
      names.foldl (fun written name => written.modify heap.length fun set =>
        set.insert name)
          (heap ++ [set]) = heap ++ [names.foldl FeatureSet.insert set] := by
    induction names with
    | nil => intro set; rfl
    | cons name names ih =>
        intro set
        rw [List.foldl_cons, modify_append_length]
        exact ih (set.insert name)
  exact hfill .empty

/-- What the loop that copies a set makes of its keys, whatever their order. -/
theorem ofList_of_ranges {set : FeatureSet} {keys : List Bytes}
    (h : set.Ranges keys) :
    FeatureSet.ofList keys = set := by
  apply FeatureSet.eq_of_mem_iff
  intro name
  rw [mem_ofList]
  exact h.mem_iff

/-- Options are made in memory: nothing that was there is written to. -/
structure Makes (heap : List FeatureSet) (o : CompileOptions)
    (made : List FeatureSet × Handle) : Prop where
  grows : heap <+: made.1
  valid : made.2.Valid made.1
  options_eq : made.2.options made.1 = o

namespace Handle

variable {o : Handle} {heap : List FeatureSet}

/-- What is held stays held while the heap grows. -/
theorem Valid.mono (h : o.Valid heap) {heap' : List FeatureSet}
    (hgrows : heap <+: heap') :
    o.Valid heap' := by
  intro ref href
  exact (h ref href).trans_le hgrows.length_le

/-- What options hold does not change while memory grows. -/
theorem Valid.options_mono (h : o.Valid heap) {heap' : List FeatureSet}
    (hgrows : heap <+: heap') :
    o.options heap' = o.options heap := by
  obtain ⟨test, ref⟩ := o
  cases ref with
  | none => rfl
  | some ref =>
      obtain ⟨rest, rfl⟩ := hgrows
      have hbound : ref < heap.length := h ref rfl
      simp [options, List.getElem?_append_left hbound]

end Handle

/-- A set that is put behind all others is what the new options refer to. -/
theorem makes_appended (heap : List FeatureSet) (test : Bool)
    (set : FeatureSet) :
    Makes heap ⟨test, set⟩ (heap ++ [set], ⟨test, some heap.length⟩) := by
  constructor
  · exact List.prefix_append heap [set]
  · intro ref href
    obtain rfl := Option.mem_some.mp href
    simp
  · simp [Handle.options]

/-- Options that are handed on, perhaps in another test mode, refer to the same
set. -/
theorem makes_shared {o : Handle} {heap : List FeatureSet}
    (hvalid : o.Valid heap) (test : Bool) :
    Makes heap ((o.options heap).setTest test) (heap, ⟨test, o.ref⟩) := by
  constructor
  · exact List.prefix_refl heap
  · exact hvalid
  · rfl

/-- A constructor puts a new set on the heap. -/
theorem makes_construct (heap : List FeatureSet) (origin : Origin) :
    Makes heap origin.options (construct heap origin) := by
  rw [Origin.options_eq, construct]
  split
  · rename_i hempty
    rw [List.isEmpty_iff.mp hempty]
    constructor
    · exact List.prefix_refl heap
    · simp [Handle.Valid]
    · rfl
  · rw [allocate_eq]
    exact makes_appended heap origin.test _

/-- A copy is written to before anyone else holds it. -/
theorem makes_copyWith (o : Handle) {heap : List FeatureSet} {keys : List Bytes}
    (hkeys : (o.options heap).features.Ranges keys)
    (write : FeatureSet → FeatureSet) :
    Makes heap ⟨o.test, write (o.options heap).features⟩
      (o.copyWith heap keys write) := by
  rw [Handle.copyWith, allocate_eq, modify_append_length,
    ofList_of_ranges hkeys]
  exact makes_appended heap o.test _

/-- A change in memory makes the options that the change leads to. -/
theorem makes_change {o : Handle} {heap : List FeatureSet}
    (hvalid : o.Valid heap) {keys : List Bytes}
    (hkeys : (o.options heap).features.Ranges keys) (change : Change) :
    Makes heap (change.apply (o.options heap)) (o.change heap keys change) := by
  have hsame : Makes heap (o.options heap) (heap, o) :=
    makes_shared hvalid o.test
  cases change with
  | setTest value => exact makes_shared hvalid value
  | enable name =>
      rw [Handle.change, Change.apply]
      split
      · rename_i hhas
        rwa [CompileOptions.enable_eq_self hhas]
      · exact makes_copyWith o hkeys fun set => set.insert name
  | disable name =>
      rw [Handle.change, Change.apply]
      split
      · exact makes_copyWith o hkeys fun set => set.erase name
      · rename_i hhas
        rwa [CompileOptions.disable_eq_self hhas]

/-- A step of a program; it fills the next register. -/
inductive Instruction where
  | construct (origin : Origin)
  | derive (source : Nat) (change : Change)
deriving DecidableEq, Repr

def Instruction.source? : Instruction → Option Nat
  | .construct _ => none
  | .derive source _ => some source

/-- Every step starts from an earlier register, if from any. -/
def WellFormed (program : List Instruction) : Prop :=
  ∀ r < program.length, ∀ source ∈ program[r]?.bind Instruction.source?,
    source < r

/-- The sets in memory, and the registers filled so far. -/
structure State where
  heap : List FeatureSet := []
  registers : List Handle := []
deriving DecidableEq, Repr

def State.push (s : State) (made : List FeatureSet × Handle) : State :=
  ⟨made.1, s.registers ++ [made.2]⟩

/-- What a step can do. Loops over a set may go through it in any order. -/
inductive Step (s : State) : Instruction → State → Prop
  | construct (origin : Origin) :
      Step s (.construct origin) (s.push (construct s.heap origin))
  | derive {source : Nat} {o : Handle} {keys : List Bytes} (change : Change)
      (ho : s.registers[source]? = some o)
        (hkeys : (o.options s.heap).features.Ranges keys) :
      Step s (.derive source change) (s.push (o.change s.heap keys change))

/-- What a program can do. -/
inductive Runs (s : State) : List Instruction → State → Prop
  | nil : Runs s [] s
  | snoc {program : List Instruction} {instruction : Instruction}
      {s' s'' : State}
      (h : Runs s program s') (hstep : Step s' instruction s'') :
      Runs s (program ++ [instruction]) s''

/-- The way to a register: its origin, and the changes from there on. -/
inductive Lineage (program : List Instruction) :
    Nat → Origin → List Change → Prop
  | construct {r : Nat} {origin : Origin}
      (h : program[r]? = some (.construct origin)) :
      Lineage program r origin []
  | derive {r source : Nat} {change : Change} {origin : Origin}
      {changes : List Change}
      (h : program[r]? = some (.derive source change))
      (hsource : Lineage program source origin changes) :
      Lineage program r origin (changes ++ [change])

namespace Lineage

variable {program : List Instruction} {r : Nat} {origin origin' : Origin}
  {changes changes' : List Change}

theorem append (h : Lineage program r origin changes)
    (more : List Instruction) :
    Lineage (program ++ more) r origin changes := by
  have hstep : ∀ {r : Nat} {instruction : Instruction},
      program[r]? = some instruction →
      (program ++ more)[r]? = some instruction := by
    intro r instruction hinstruction
    rw [List.getElem?_append_left (List.getElem?_eq_some_iff.mp hinstruction).1,
      hinstruction]
  induction h with
  | construct h => exact .construct (hstep h)
  | derive h _ ih => exact .derive (hstep h) ih

/-- A register has one lineage. -/
theorem unique (h : Lineage program r origin changes)
    (h' : Lineage program r origin' changes') :
    origin' = origin ∧ changes' = changes := by
  induction h generalizing origin' changes' with
  | construct h =>
      cases h' with
      | construct h' =>
          rw [h] at h'
          cases h'
          exact ⟨rfl, rfl⟩
      | derive h' _ =>
          rw [h] at h'
          cases h'
  | derive h _ ih =>
      cases h' with
      | construct h' =>
          rw [h] at h'
          cases h'
      | derive h' hsource' =>
          rw [h] at h'
          cases h'
          obtain ⟨rfl, rfl⟩ := ih hsource'
          exact ⟨rfl, rfl⟩

end Lineage

end Registers

end FeatureGate
