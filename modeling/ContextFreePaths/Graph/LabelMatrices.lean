import ContextFreePaths.BoolMatrix.Basic
import ContextFreePaths.Graph.Labelled
import ContextFreePaths.SortedList

namespace ContextFreePaths

structure UnknownLabel where
  label : Label
  deriving DecidableEq

def UnknownLabel.message (e : UnknownLabel) : String :=
  "no matrix for label `" ++ e.label ++ "`"

structure LabelMatrices where
  dimension : Nat := 0
  entries : List (Label × BoolMatrix) := []
  deriving DecidableEq

namespace LabelMatrices

def ofDimension (n : Nat) : LabelMatrices :=
  { dimension := n }

def grow (d : LabelMatrices) (n : Nat) : LabelMatrices :=
  if n ≤ d.dimension then d
  else { dimension := n, entries := d.entries.map (fun p => (p.1, p.2.resize n n)) }

def addEdge (d : LabelMatrices) (u v : Nat) (label : Label) : LabelMatrices :=
  let d := d.grow (max u v + 1)
  { d with entries :=
      SortedList.alter label (fun m => (m.getD (.square d.dimension)).set u v true) d.entries }

def labels (d : LabelMatrices) : List Label :=
  d.entries.map Prod.fst

def matrix? (d : LabelMatrices) (label : Label) : Option BoolMatrix :=
  d.entries.lookup label

def contains (d : LabelMatrices) (label : Label) : Bool :=
  (d.matrix? label).isSome

def get (d : LabelMatrices) (label : Label) : Except UnknownLabel BoolMatrix :=
  match d.matrix? label with
  | some m => .ok m
  | none => .error ⟨label⟩

def HasEdge (d : LabelMatrices) (i : Nat) (a : Label) (j : Nat) : Prop :=
  ∃ m, d.matrix? a = some m ∧ m.get i j = true

inductive Walk (d : LabelMatrices) : Nat → Word → Nat → Prop
  | nil {i : Nat} (lt : i < d.dimension) : Walk d i [] i
  | cons {i k j : Nat} {a : Label} {w : Word} (edge : d.HasEdge i a k) (rest : Walk d k w j) :
      Walk d i (a :: w) j

theorem Walk.append {d : LabelMatrices} {i j k : Nat} {w w' : Word} (h : d.Walk i w j)
    (h' : d.Walk j w' k) : d.Walk i (w ++ w') k := by
  induction h with
  | nil => exact h'
  | cons edge _ ih => exact .cons edge (ih h')

variable {V : Type} [DecidableEq V]

def addEdgeOf (vertices : List V) (d : LabelMatrices) (e : Edge V) : LabelMatrices :=
  match vertices.idxOf? e.source, vertices.idxOf? e.target with
  | some u, some v => d.addEdge u v e.label
  | _, _ => d

def decompose (g : LabelledGraph V) : LabelMatrices × List V :=
  let index := FirstSeen.ofList g.vertices
  (g.edges.foldl (addEdgeOf index) (ofDimension index.length), index)

def ofGraph (g : LabelledGraph V) : LabelMatrices :=
  (decompose g).1

theorem ofGraph_eq (g : LabelledGraph V) :
    ofGraph g = g.edges.foldl (addEdgeOf g.vertices) (ofDimension g.vertices.length) := by
  rw [ofGraph, decompose, FirstSeen.ofList_of_nodup g.vertices_nodup]

theorem vertices_decompose (g : LabelledGraph V) : (decompose g).2 = g.vertices :=
  FirstSeen.ofList_of_nodup g.vertices_nodup

end LabelMatrices

end ContextFreePaths
