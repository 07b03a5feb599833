import SqlOptimizer.Parse.Builder
import SqlOptimizer.Tree.Walks
import SqlOptimizer.Logic.NumberedNames
import SqlOptimizer.Logic.Triples

/-!
The state of `RaTree::optimize` and the operations that its passes share. The optimizer
changes objects in place: a node that two trees share is changed in both. The state also
records the names that a run generates and the casts of a node to a class that is not its
own.
-/

set_option autoImplicit false
set_option relaxedAutoImplicit false

namespace SqlOptimizer.Unnesting.Objects

open Algebra.RelationalAlgebra
open Tree.Frames Tree.Walks
open Logic.NumberedNames Logic.Triples

/-- A failing assertion, a null pointer or undefined behaviour ends the run; `outOfFuel`
stands for a loop that has not ended yet. -/
inductive Fault where
  | crash
  | outOfFuel
  deriving DecidableEq, Repr

/-- The classes that nodes are cast to without a test of their `node_case`. -/
inductive NodeClass where
  | projection
  | selection
  | boolPredicate
  deriving DecidableEq, Repr

/-- A cast of the node to a class that is not its own. -/
structure BadCast where
  node : Nat
  toClass : NodeClass
  deriving DecidableEq, Repr

structure State where
  tree : RaTree
  names : List String := []
  badCasts : List BadCast := []

/-- The `RaTree` that `SQLtoRA::parse` makes of what it has built. -/
def ofParser (root : RaNode) (s : Parse.Builder.ParserState) : State where
  tree := { root := root, ctes := s.ctes, counter := s.counter, nextId := s.nextId }

abbrev Optimizer := Program State Fault

variable {α : Type}

def crash : Optimizer α := throw .crash

/-- A value that may be missing, or an assertion that it is there. -/
def orCrash : Option α → Optimizer α
  | some a => pure a
  | none => crash

def assert (p : Prop) [Decidable p] : Optimizer Unit := if p then pure () else crash

def getRoot : Optimizer RaNode := return (← get).tree.root

/-- The change of the main tree. -/
def modifyRoot (f : RaNode → RaNode) : Optimizer Unit :=
  modify fun s => { s with tree := { s.tree with root := f s.tree.root } }

/-- The change of an object that may be in the main tree or in a CTE. -/
def modifyObject (i : Nat) (f : RaNode → RaNode) : Optimizer Unit :=
  modify fun s => { s with tree := { s.tree with
    root := update i f s.tree.root
    ctes := s.tree.ctes.map (update i f) } }

/-- The object in the main tree or in a CTE. -/
def findObject (t : RaTree) (i : Nat) : Option RaNode :=
  (find? i t.root).or (t.ctes.findSome? (find? i))

/-- `std::make_shared`. -/
def newNode : Optimizer Nat := do
  let s ← get
  set { s with tree := { s.tree with nextId := s.tree.nextId + 1 } }
  return s.tree.nextId

/-- `stem + std::to_string(counter++)`. -/
def newName (stem : String) : Optimizer String := do
  let s ← get
  let name := numbered stem s.tree.counter
  set { s with
    tree := { s.tree with counter := s.tree.counter + 1 }
    names := s.names ++ [name] }
  return name

/-- A name that is not numbered comes into use. -/
def logName (name : String) : Optimizer Unit :=
  modify fun s => { s with names := s.names ++ [name] }

/-- `ctes.push_back`. -/
def pushCte (cte : RaNode) : Optimizer Unit :=
  modify fun s => { s with tree := { s.tree with ctes := s.tree.ctes ++ [cte] } }

def logCasts (casts : List BadCast) : Optimizer Unit :=
  modify fun s => { s with badCasts := s.badCasts ++ casts }

/-- A cast whose result cannot be used. -/
def badCast (node : RaNode) (toClass : NodeClass) : Optimizer α := do
  logCasts ((node.id?.map fun i => ⟨i, toClass⟩).toList)
  crash

section

variable {s s' : State} {a : α}

theorem outcome_orCrash_eq_ok {o : Option α} :
    outcome (orCrash o) s = (.ok a, s') ↔ o = some a ∧ s' = s := by
  cases o with
  | none => simp [orCrash, crash]
  | some b => simp [orCrash, eq_comm]

theorem outcome_assert_eq_ok {p : Prop} [Decidable p] {u : Unit} :
    outcome (assert p) s = (.ok u, s') ↔ p ∧ s' = s := by
  rw [assert]
  by_cases h : p
  · simp [h, eq_comm]
  · simp [h, crash]

theorem outcome_newNode (s : State) : outcome newNode s =
    (.ok s.tree.nextId, { s with tree := { s.tree with nextId := s.tree.nextId + 1 } }) := rfl

theorem outcome_newName (stem : String) (s : State) : outcome (newName stem) s =
    (.ok (numbered stem s.tree.counter), { s with
      tree := { s.tree with counter := s.tree.counter + 1 }
      names := s.names ++ [numbered stem s.tree.counter] }) := rfl

theorem outcome_badCast_ne_ok {node : RaNode} {toClass : NodeClass} :
    outcome (badCast node toClass : Optimizer α) s ≠ (.ok a, s') := by
  intro h
  obtain ⟨b, s₁, -, hcrash⟩ := outcome_bind_eq_ok.mp h
  cases hcrash

end

/-- `node_case == RA__NODE__PROJECTION`. -/
def isProjection : RaNode → Bool
  | .projection _ _ _ => true
  | _ => false

/-- `childNodes[0] = child` at a node with one child. -/
def setOnlyChild (child : RaNode) : RaNode → RaNode
  | .unary i op _ => .unary i op child
  | t => t

/-- The change of the children of a node. -/
def mapChildren (f : RaNode → RaNode) : RaNode → RaNode
  | .unary i op c => .unary i op (f c)
  | .join i join l r => .join i join (f l) (f r)
  | t => t

/-- A join that is no longer what a pointer to it leads to. -/
def replaceJoin (t : RaNode) : RaNode → RaNode
  | .join _ _ _ _ => t
  | s => s

/-- `childNodes[0]`. -/
def firstChild (t : RaNode) : Option RaNode := t.childNodes.head?

/-- The nodes above the node with the given address, the nearest first; `none` when there is
no such node below `t`. -/
def ancestors (i : Nat) : RaNode → Option (List RaNode)
  | .hole => none
  | .leaf _ _ => none
  | .unary j op c =>
      if c.id? = some i then some [.unary j op c]
      else (ancestors i c).map (· ++ [.unary j op c])
  | .join j join l r =>
      if l.id? = some i ∨ r.id? = some i then some [.join j join l r]
      else ((ancestors i l).or (ancestors i r)).map (· ++ [.join j join l r])

end SqlOptimizer.Unnesting.Objects
