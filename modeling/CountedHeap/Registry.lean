import CountedHeap.Heap.Scratch
import CountedHeap.Table.Basic

/-!
Contract: callables by name, and making them available to programs.

A registry keeps its names in the order of their first registration.  A later registration
of a name replaces the function and keeps the place.

Owns:
- registries and their questions;
- the registration of all core natives;
- storing every entry of a registry in a hash.
-/

namespace CountedHeap

/-- Put an entry in the place of the one with its name, or at the end if there is none. -/
def putEntry {α : Type} (name : String) (entry : α) :
    List (String × α) → List (String × α)
  | [] => [(name, entry)]
  | (other, present) :: rest =>
      if other = name then (name, entry) :: rest
      else (other, present) :: putEntry name entry rest

/-- A name that is new comes last; one that is known stays where it is. -/
theorem names_putEntry {α : Type} (name : String) (entry : α)
    (entries : List (String × α)) :
    (putEntry name entry entries).map (·.1) =
      if name ∈ entries.map (·.1) then entries.map (·.1) else entries.map (·.1) ++ [name] := by
  induction entries with
  | nil => rfl
  | cons head rest inductionHypothesis =>
      obtain ⟨other, present⟩ := head
      simp only [putEntry]
      by_cases same : other = name
      · simp [same]
      · have different : ¬name = other := fun equal => same equal.symm
        simp only [if_neg same, List.map_cons, inductionHypothesis, List.mem_cons, different,
          false_or]
        split <;> rfl

private theorem lookup_entry {α : Type} (name other : String) (entry : α)
    (rest : List (String × α)) :
    ((name, entry) :: rest).lookup other =
      if other = name then some entry else rest.lookup other := by
  rw [List.lookup_cons]
  by_cases same : other = name
  · simp [same]
  · rw [beq_eq_false_iff_ne.mpr same, if_neg same]

/-- The entry of a name is the one that was put last. -/
theorem lookup_putEntry {α : Type} (name other : String) (entry : α)
    (entries : List (String × α)) :
    (putEntry name entry entries).lookup other =
      if other = name then some entry else entries.lookup other := by
  induction entries with
  | nil => exact lookup_entry name other entry []
  | cons head rest inductionHypothesis =>
      obtain ⟨first, present⟩ := head
      simp only [putEntry]
      by_cases replaced : first = name
      · subst replaced
        rw [if_pos rfl, lookup_entry, lookup_entry]
        split <;> rfl
      · rw [if_neg replaced, lookup_entry, lookup_entry, inductionHypothesis]
        by_cases found : other = first
        · rw [if_pos found, if_pos found, found, if_neg replaced]
        · rw [if_neg found, if_neg found]

/-- Functions by name. -/
structure Registry (σ : Signature) where
  entries : List (String × Function σ) := []
  /-- Every name has one entry. -/
  distinct : (entries.map (·.1)).Nodup := by exact List.nodup_nil

namespace Registry

variable {σ : Signature}

/-- The names, in the order of their first registration. -/
def names (registry : Registry σ) : List String :=
  registry.entries.map (·.1)

/-- The function registered under a name. -/
def get? (registry : Registry σ) (name : String) : Option (Function σ) :=
  registry.entries.lookup name

/-- How many names are registered. -/
def size (registry : Registry σ) : Nat :=
  registry.entries.length

/-- Whether no name is registered. -/
def isEmpty (registry : Registry σ) : Bool :=
  registry.entries.isEmpty

private theorem distinct_putEntry (registry : Registry σ) (name : String)
    (function : Function σ) :
    ((putEntry name function registry.entries).map (·.1)).Nodup := by
  rw [names_putEntry]
  split
  next => exact registry.distinct
  next fresh =>
    refine List.nodup_append.mpr ⟨registry.distinct, by simp, ?_⟩
    intro present member other isName equal
    rw [List.mem_singleton.mp isName] at equal
    exact fresh (equal ▸ member)

/-- Register a function under a name. -/
def register (registry : Registry σ) (name : String) (function : Function σ) :
    Registry σ where
  entries := putEntry name function registry.entries
  distinct := registry.distinct_putEntry name function

/-- Register all core natives under their own names. -/
def registerCore (registry : Registry σ) : Registry σ :=
  CoreNative.all.foldl (fun known native => known.register native.name (.core native)) registry

theorem names_register (registry : Registry σ) (name : String) (function : Function σ) :
    (registry.register name function).names =
      if name ∈ registry.names then registry.names else registry.names ++ [name] :=
  names_putEntry name function registry.entries

theorem get?_register (registry : Registry σ) (name other : String) (function : Function σ) :
    (registry.register name function).get? other =
      if other = name then some function else registry.get? other :=
  lookup_putEntry name other function registry.entries

/-- Store entries in a hash, each under a key that is made as a scratch string. -/
def installEntries (table : Value) :
    List (String × Function σ) → Heap σ → Except Exhausted (Heap σ)
  | [], heap => .ok heap
  | (name, function) :: rest, heap => do
      let (callable, heap) := heap.native function
      let (key, heap) := heap.scratchString name
      let (_, heap) ← heap.setKey table key callable
      installEntries table rest heap

/-- Store every entry in a hash and answer how many there were.  Nothing is stored in any
other value. -/
def installInto (registry : Registry σ) (heap : Heap σ) (table : Value) :
    Except Exhausted (Nat × Heap σ) :=
  if heap.kind table = .hash then
    heap.inScope fun heap => do
      let heap ← installEntries table registry.entries heap
      return (registry.size, heap)
  else .ok (0, heap)

end Registry

end CountedHeap
