import Mathlib.Data.List.Induction
import ContextFreePaths.Proofs.AllPairs
import ContextFreePaths.Proofs.EdgeSet

namespace ContextFreePaths

theorem FirstSeen.pairwise_idxOf_ofList {α : Type} [DecidableEq α] (l : List α) :
    (ofList l).Pairwise (fun a b => l.idxOf a < l.idxOf b) := by
  induction l using List.reverseRecOn with
  | nil => exact List.Pairwise.nil
  | append_singleton l c ih =>
    have kept : (ofList l).Pairwise (fun a b => (l ++ [c]).idxOf a < (l ++ [c]).idxOf b) := by
      refine ih.imp_of_mem (fun ha hb hab => ?_)
      rwa [List.idxOf_append_of_mem (mem_ofList.mp ha), List.idxOf_append_of_mem (mem_ofList.mp hb)]
    rw [ofList_concat, add]
    split
    · exact kept
    · next hc =>
      rw [List.pairwise_append]
      refine ⟨kept, List.pairwise_singleton _ _, fun a ha b hb => ?_⟩
      obtain rfl := List.mem_singleton.mp hb
      rw [mem_ofList] at ha hc
      rw [List.idxOf_append_of_mem ha, List.idxOf_append_of_notMem hc]
      exact Nat.lt_of_lt_of_le (List.idxOf_lt_length_of_mem ha) (Nat.le_add_right _ _)

namespace LabelledGraph

inductive Edit (V : Type) where
  | addVertex (v : V)
  | addEdge (e : Edge V)
  deriving DecidableEq

variable {V : Type} {edit : Edit V} {edits : List (Edit V)} {v : V}

def Edit.mentions : Edit V → List V
  | addVertex v => [v]
  | addEdge e => [e.source, e.target]

def Edit.edge? : Edit V → Option (Edge V)
  | addVertex _ => none
  | addEdge e => some e

variable [DecidableEq V] {g : LabelledGraph V}

def apply (g : LabelledGraph V) : Edit V → LabelledGraph V
  | .addVertex v => g.addVertex v
  | .addEdge e => g.addEdge e

def ofEdits (edits : List (Edit V)) : LabelledGraph V :=
  edits.foldl apply empty

theorem vertices_apply :
    (g.apply edit).vertices = edit.mentions.foldl FirstSeen.add g.vertices := by
  cases edit <;> rfl

theorem edges_apply : (g.apply edit).edges = g.edges ++ edit.edge?.toList := by
  cases edit with
  | addVertex v => exact (List.append_nil _).symm
  | addEdge e => rfl

theorem vertices_foldl_apply (edits : List (Edit V)) (g : LabelledGraph V) :
    (edits.foldl apply g).vertices =
      (edits.flatMap Edit.mentions).foldl FirstSeen.add g.vertices := by
  induction edits generalizing g with
  | nil => rfl
  | cons edit edits ih =>
    rw [List.foldl_cons, ih, vertices_apply, List.flatMap_cons, List.foldl_append]

theorem edges_foldl_apply (edits : List (Edit V)) (g : LabelledGraph V) :
    (edits.foldl apply g).edges = g.edges ++ edits.filterMap Edit.edge? := by
  induction edits generalizing g with
  | nil => exact (List.append_nil _).symm
  | cons edit edits ih =>
    rw [List.foldl_cons, ih, edges_apply, List.append_assoc, List.filterMap_cons]
    cases edit.edge? <;> rfl

theorem vertices_ofEdits :
    (ofEdits edits).vertices = FirstSeen.ofList (edits.flatMap Edit.mentions) :=
  vertices_foldl_apply edits empty

theorem edges_ofEdits : (ofEdits edits).edges = edits.filterMap Edit.edge? :=
  edges_foldl_apply edits empty

end LabelledGraph

namespace LabelMatrices

variable {V : Type} [DecidableEq V] {g : LabelledGraph V} {e : Edge V} {vertices : List V}
  {edges : List (Edge V)} {d : LabelMatrices} {a : Label}

theorem idxOf?_eq_some_idxOf {v : V} (hv : v ∈ vertices) :
    vertices.idxOf? v = some (vertices.idxOf v) := by
  rw [List.idxOf_eq_getD_idxOf?]
  cases h : vertices.idxOf? v with
  | none => exact absurd hv (List.idxOf?_eq_none_iff.mp h)
  | some i => rfl

theorem addEdgeOf_of_mem (hs : e.source ∈ vertices) (ht : e.target ∈ vertices) :
    addEdgeOf vertices d e =
      d.addEdge (vertices.idxOf e.source) (vertices.idxOf e.target) e.label := by
  rw [addEdgeOf, idxOf?_eq_some_idxOf hs, idxOf?_eq_some_idxOf ht]

def editsOf (vertices : List V) (edges : List (Edge V)) : List Edit :=
  edges.map (fun e => .addEdge (vertices.idxOf e.source) (vertices.idxOf e.target) e.label)

theorem foldl_addEdgeOf (h : ∀ e ∈ edges, e.source ∈ vertices ∧ e.target ∈ vertices) :
    edges.foldl (addEdgeOf vertices) d = (editsOf vertices edges).foldl apply d := by
  induction edges generalizing d with
  | nil => rfl
  | cons e edges ih =>
    rw [List.forall_mem_cons] at h
    rw [List.foldl_cons, addEdgeOf_of_mem h.1.1 h.1.2, ih h.2]
    rfl

theorem ofGraph_eq_ofEdits (g : LabelledGraph V) :
    ofGraph g = ofEdits g.vertices.length (editsOf g.vertices g.edges) := by
  rw [ofGraph_eq]
  exact foldl_addEdgeOf g.endpoints_mem

theorem mem_labels_ofGraph : a ∈ (ofGraph g).labels ↔ ∃ e ∈ g.edges, e.label = a := by
  rw [ofGraph_eq_ofEdits, mem_labels_ofEdits]
  simp only [editsOf, List.mem_map, Edit.addEdge.injEq]
  constructor
  · rintro ⟨_, _, e, he, _, _, rfl⟩
    exact ⟨e, he, rfl⟩
  · rintro ⟨e, he, rfl⟩
    exact ⟨_, _, e, he, rfl, rfl, rfl⟩

/-- The vertices of a graph are in order of first mention, and its label matrices hold its edges
between the places of their ends. -/
theorem ofGraph_faithful (edits : List (LabelledGraph.Edit V)) :
    let mentions := edits.flatMap LabelledGraph.Edit.mentions
    let g := LabelledGraph.ofEdits edits
    let d := ofGraph g
    (g.vertices.Nodup ∧ (∀ v, v ∈ g.vertices ↔ v ∈ mentions) ∧
      g.vertices.Pairwise (fun u v => mentions.idxOf u < mentions.idxOf v)) ∧
    g.edges = edits.filterMap LabelledGraph.Edit.edge? ∧
    (∀ e ∈ g.edges, e.source ∈ g.vertices ∧ e.target ∈ g.vertices ∧
      ∃ i j, g.vertices.idxOf? e.source = some i ∧ g.vertices.idxOf? e.target = some j) ∧
    decompose g = (d, g.vertices) ∧
    (∀ grammar, ∃ q, Query.ofGraph grammar g = .ok q ∧ q.matrices = d ∧ q.vertices = g.vertices) ∧
    (∀ front, front <+: g.edges →
      (front.foldl (addEdgeOf g.vertices) (ofDimension g.vertices.length)).dimension =
        g.vertices.length) ∧
    d.dimension = g.vertices.length ∧
    (∀ a, a ∈ d.labels ↔ ∃ e ∈ g.edges, e.label = a) ∧
    ∀ a m, d.matrix? a = some m → ∀ i j, m.get i j = true ↔
      ∃ u v, g.vertices[i]? = some u ∧ g.vertices[j]? = some v ∧ ⟨u, v, a⟩ ∈ g.edges := by
  intro mentions g d
  have vertices : g.vertices = FirstSeen.ofList mentions := LabelledGraph.vertices_ofEdits
  refine ⟨⟨g.vertices_nodup, fun v => ?_, ?_⟩, LabelledGraph.edges_ofEdits, fun e he => ?_,
    Prod.ext rfl (vertices_decompose g), fun grammar => ?_, fun front _ => ?_, dimension_ofGraph g, fun a => mem_labels_ofGraph,
    fun a m hm i j => ?_⟩
  · rw [vertices, FirstSeen.mem_ofList]
  · rw [vertices]
    exact FirstSeen.pairwise_idxOf_ofList mentions
  · obtain ⟨hs, ht⟩ := g.endpoints_mem e he
    exact ⟨hs, ht, _, _, idxOf?_eq_some_idxOf hs, idxOf?_eq_some_idxOf ht⟩
  · obtain ⟨q, hq, _, matrices, vertices⟩ := Query.exists_ofGraph grammar g
    exact ⟨q, hq, matrices, vertices⟩
  · exact (foldl_addEdgeOf_spec g.vertices_nodup (uniform_ofDimension _) rfl).2.1
  · have edge : d.HasEdge i a j ↔ m.get i j = true := by simp [HasEdge, hm]
    rw [← edge, hasEdge_ofGraph]
    constructor
    · rintro ⟨e, he, hi, rfl, hj⟩
      exact ⟨e.source, e.target, hi, hj, he⟩
    · rintro ⟨u, v, hi, hj, he⟩
      exact ⟨_, he, hi, rfl, hj⟩

def street : List (LabelledGraph.Edit String) :=
  [.addEdge ⟨"u", "v", "a"⟩, .addVertex "w", .addVertex "u", .addEdge ⟨"v", "v", "b"⟩,
    .addEdge ⟨"u", "v", "a"⟩, .addEdge ⟨"x", "u", "a"⟩]

theorem street_ofGraph_faithful :
    let g := LabelledGraph.ofEdits street
    g.vertices = ["u", "v", "w", "x"] ∧
      (⟨"v", "v", "b"⟩ ∈ g.edges ∧ ∃ i j, g.vertices.idxOf? "v" = some i ∧
        g.vertices.idxOf? "v" = some j) ∧
      ([⟨"u", "v", "a"⟩] <+: g.edges ∧
        ([⟨"u", "v", "a"⟩].foldl (addEdgeOf g.vertices) (ofDimension g.vertices.length)).dimension =
          g.vertices.length) ∧
      ∃ m, (ofGraph g).matrix? "a" = some m ∧ m.get 3 0 = true ∧ m.get 1 1 = false := by
  intro g
  obtain ⟨_, _, ends, _, _, grows, _, labels, entries⟩ := ofGraph_faithful street
  have vertices : g.vertices = ["u", "v", "w", "x"] := by decide
  have loop : ⟨"v", "v", "b"⟩ ∈ g.edges := by decide
  have first : [⟨"u", "v", "a"⟩] <+: g.edges := by decide
  have mem : "a" ∈ (ofGraph g).labels := (labels "a").mpr ⟨⟨"x", "u", "a"⟩, by decide, rfl⟩
  obtain ⟨m, hm⟩ := mem_labels.mp mem
  refine ⟨vertices, ⟨loop, (ends _ loop).2.2⟩, ⟨first, grows _ first⟩, m, hm, ?_, ?_⟩
  · exact (entries "a" m hm 3 0).mpr ⟨"x", "u", by decide, by decide, by decide⟩
  · rw [← Bool.not_eq_true, entries "a" m hm 1 1]
    rintro ⟨u, v, hu, hv, he⟩
    obtain rfl : "v" = u := Option.some.inj hu
    obtain rfl : "v" = v := Option.some.inj hv
    exact absurd he (by decide)

end LabelMatrices

end ContextFreePaths
