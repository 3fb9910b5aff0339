import ContextFreePaths.FirstSeen
import ContextFreePaths.Symbol

namespace ContextFreePaths

structure Edge (V : Type) where
  source : V
  target : V
  label : Label
  deriving DecidableEq

/-- A directed multigraph. Vertices stand in the order in which they were first mentioned, and edges
in the order in which they were added. -/
structure LabelledGraph (V : Type) where
  vertices : List V
  edges : List (Edge V)
  vertices_nodup : vertices.Nodup
  endpoints_mem : ∀ e ∈ edges, e.source ∈ vertices ∧ e.target ∈ vertices

namespace LabelledGraph

variable {V : Type} {g : LabelledGraph V} {u v : V} {w : Word}

inductive Walk (g : LabelledGraph V) : V → Word → V → Prop
  | nil {v : V} (mem : v ∈ g.vertices) : Walk g v [] v
  | cons {e : Edge V} {w : Word} {v : V} (mem : e ∈ g.edges) (rest : Walk g e.target w v) :
      Walk g e.source (e.label :: w) v

theorem Walk.source_mem (h : g.Walk u w v) : u ∈ g.vertices := by
  cases h with
  | nil mem => exact mem
  | cons mem _ => exact (g.endpoints_mem _ mem).1

theorem Walk.target_mem (h : g.Walk u w v) : v ∈ g.vertices := by
  induction h with
  | nil mem => exact mem
  | cons _ _ ih => exact ih

variable [DecidableEq V]

def empty : LabelledGraph V :=
  ⟨[], [], List.nodup_nil, by simp⟩

def addVertex (g : LabelledGraph V) (v : V) : LabelledGraph V where
  vertices := FirstSeen.add g.vertices v
  edges := g.edges
  vertices_nodup := FirstSeen.nodup_add g.vertices_nodup
  endpoints_mem e he := by
    have := g.endpoints_mem e he
    simp only [FirstSeen.mem_add]
    exact ⟨.inl this.1, .inl this.2⟩

def addEdge (g : LabelledGraph V) (e : Edge V) : LabelledGraph V where
  vertices := FirstSeen.add (FirstSeen.add g.vertices e.source) e.target
  edges := g.edges ++ [e]
  vertices_nodup := FirstSeen.nodup_add (FirstSeen.nodup_add g.vertices_nodup)
  endpoints_mem f hf := by
    simp only [FirstSeen.mem_add]
    rcases List.mem_append.mp hf with h | h
    · have := g.endpoints_mem f h
      exact ⟨.inl (.inl this.1), .inl (.inl this.2)⟩
    · obtain rfl := List.mem_singleton.mp h
      exact ⟨.inl (.inr rfl), .inr rfl⟩

def ofEdges (edges : List (Edge V)) : LabelledGraph V :=
  edges.foldl addEdge empty

end LabelledGraph

end ContextFreePaths
