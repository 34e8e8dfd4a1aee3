import VoteCounting.Data.Counters
import VoteCounting.Strings

namespace VoteCounting.Server

open Counters

/-! The region table of the election server.

The list behind `PUBLICROOT` only grows at its end, so a position in it stands for
the address of a node.  Fields of a fresh node read as zero.
-/

abbrev Counter := Entry CStr

/-- `rootCounter` is the list after the empty node the source allocates as its head. -/
structure Node where
  name : CStr := []
  children : List Nat := []
  isOpen : Bool := false
  closed : Bool := false
  rootCounter : List Counter := []
  hasdata : Bool := false
deriving DecidableEq, Repr

def create (name : CStr) : Node := { name }

/-- A null pointer given to a C library function stops the server.  Running out of
fuel never happens in a reachable state. -/
inductive Fault where
  | nullPointer
  | outOfFuel
deriving DecidableEq, Repr

structure Table where
  nodes : List Node
deriving DecidableEq, Repr

namespace Table

abbrev size (table : Table) : Nat := table.nodes.length

def node (table : Table) (i : Nat) : Node := table.nodes.getD i {}

def children (table : Table) (i : Nat) : List Nat := (table.node i).children

def names (table : Table) : List CStr := table.nodes.map Node.name

def modify (table : Table) (i : Nat) (change : Node → Node) : Table :=
  { nodes := table.nodes.modify i change }

/-- The search every handler starts with: the first node with exactly this name. -/
def lookup (table : Table) (nodeName : CStr) : Option Nat :=
  table.nodes.findIdx? fun node => node.name == nodeName

variable {table : Table} {i j : Nat} {change : Node → Node} {name : CStr}

@[simp] theorem size_modify : (table.modify i change).size = table.size := by
  simp [size, modify]

theorem node_of_size_le (outside : table.size ≤ i) : table.node i = {} := by
  simp [node, List.getD, List.getElem?_eq_none outside]

theorem node_eq_getElem (inside : i < table.size) : table.node i = table.nodes[i] := by
  simp [node, List.getD, List.getElem?_eq_getElem inside]

theorem node_modify_self (inside : i < table.size) :
    (table.modify i change).node i = change (table.node i) := by
  rw [node_eq_getElem inside, node_eq_getElem (by simpa using inside)]
  simp [modify]

theorem node_modify_of_ne (different : i ≠ j) :
    (table.modify i change).node j = table.node j := by
  simp [node, modify, List.getD, different]

theorem node_modify (inside : i < table.size) :
    (table.modify i change).node j = if i = j then change (table.node i) else table.node j := by
  split
  · rename_i same
    rw [← same, node_modify_self inside]
  · rename_i different
    exact node_modify_of_ne different

/-- A projection the change keeps has the same value at every node. -/
theorem node_modify_proj {β : Type} (proj : Node → β) (kept : ∀ node, proj (change node) = proj node) :
    proj ((table.modify i change).node j) = proj (table.node j) := by
  by_cases same : i = j
  · subst same
    by_cases inside : i < table.size
    · rw [node_modify_self inside, kept]
    · rw [node_of_size_le (by simpa using inside), node_of_size_le (by simpa using inside)]
  · rw [node_modify_of_ne same]

/-- What holds of every node, and of the changed one, still holds of every node. -/
theorem forall_node_modify {P : Node → Prop} (all : ∀ j, P (table.node j))
    (changed : P (change (table.node i))) (j : Nat) : P ((table.modify i change).node j) := by
  by_cases same : i = j
  · subst same
    by_cases inside : i < table.size
    · rwa [node_modify_self inside]
    · have blank := all i
      rw [node_of_size_le (Nat.le_of_not_lt inside)] at blank
      rwa [node_of_size_le (by simpa using inside)]
  · rw [node_modify_of_ne same]
    exact all j

theorem lookup_eq_names : table.lookup name = table.names.findIdx? (· == name) := by
  simp [lookup, names, List.findIdx?_map, Function.comp_def]

theorem lookup_some (found : table.lookup name = some i) :
    i < table.size ∧ (table.node i).name = name := by
  obtain ⟨inside, hit, _⟩ := List.findIdx?_eq_some_iff_getElem.mp found
  refine ⟨inside, ?_⟩
  rw [node_eq_getElem inside]
  simpa using hit

theorem ext_node {other : Table} (size : table.size = other.size)
    (same : ∀ i, table.node i = other.node i) : table = other := by
  obtain ⟨nodes⟩ := table
  obtain ⟨otherNodes⟩ := other
  congr
  apply List.ext_getElem size
  intro k left right
  have equal := same k
  rwa [node_eq_getElem left, node_eq_getElem right] at equal

theorem names_eq_of_node {other : Table} (size : table.size = other.size)
    (same : ∀ i, (table.node i).name = (other.node i).name) : table.names = other.names := by
  apply List.ext_getElem
  · simpa [names] using size
  · intro k left right
    simp only [names, List.length_map] at left right
    have named := same k
    rw [node_eq_getElem left, node_eq_getElem right] at named
    simpa [names] using named

theorem lookup_name (distinct : table.names.Nodup) (inside : i < table.size) :
    table.lookup (table.node i).name = some i := by
  rw [lookup_eq_names, List.findIdx?_eq_some_iff_getElem]
  have bound : i < table.names.length := by simpa [names, size] using inside
  refine ⟨bound, ?_, ?_⟩
  · simp [names, node_eq_getElem inside]
  · intro k earlier
    have differ : table.names[k] ≠ table.names[i] := fun same =>
      absurd ((List.Nodup.getElem_inj_iff distinct).mp same) (Nat.ne_of_lt earlier)
    simpa [names, node_eq_getElem inside] using differ

end Table

/-- A string passed to a C library function: a field of the argument vector, which
is a null pointer beyond the last token. -/
def arg (argvp : List CStr) (k : Nat) : Except Fault CStr :=
  match argvp[k]? with
  | some str => .ok str
  | none => .error .nullPointer

/-- `Open_Polls` and `Close_Polls` are given a request field or the name buffer of
a node. -/
inductive NameArg where
  | field (str : CStr)
  | nameOf (region : Nat)
deriving DecidableEq, Repr

/-- `trimwhitespace(name)`: the trimmed text, and the table with the buffer trimmed
in place where it belongs to a node. -/
def trimName (table : Table) : NameArg → CStr × Table
  | .field str => (trimwhitespace str, table)
  | .nameOf region =>
      (trimwhitespace (table.node region).name,
        table.modify region fun node => { node with name := trimwhitespaceBuffer node.name })

end VoteCounting.Server
