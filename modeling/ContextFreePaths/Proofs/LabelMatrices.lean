import Mathlib.Tactic.Common
import ContextFreePaths.Graph.LabelMatrices

namespace ContextFreePaths.LabelMatrices

variable {d : LabelMatrices} {n i j k u v : Nat} {a label : Label} {w w' : Word} {m : BoolMatrix}

structure Uniform (d : LabelMatrices) : Prop where
  ascending : SortedList.Ascending d.labels
  size_eq : ∀ a m, d.matrix? a = some m → m.size = (d.dimension, d.dimension)

theorem hasEdge_iff : d.HasEdge i a j ↔ ((d.matrix? a).map (fun m => m.get i j)) = some true := by
  simp [HasEdge]

theorem Uniform.bounds (hd : d.Uniform) (h : d.HasEdge i a j) :
    i < d.dimension ∧ j < d.dimension := by
  obtain ⟨m, hm, hget⟩ := h
  exact BoolMatrix.bounds_of_size (hd.size_eq a m hm) hget

theorem uniform_ofDimension (n : Nat) : (ofDimension n).Uniform :=
  ⟨List.Pairwise.nil, by simp [ofDimension, matrix?]⟩

theorem not_hasEdge_ofDimension : ¬(ofDimension n).HasEdge i a j := by
  simp [HasEdge, ofDimension, matrix?]

theorem dimension_grow : (d.grow n).dimension = max d.dimension n := by
  unfold grow
  split
  · omega
  · simp only
    omega

theorem labels_grow : (d.grow n).labels = d.labels := by
  unfold grow
  split
  · rfl
  · simp [labels, Function.comp_def]

theorem matrix?_grow (h : d.dimension < n) :
    (d.grow n).matrix? a = (d.matrix? a).map (fun m => m.resize n n) := by
  rw [grow, if_neg (by omega)]
  exact SortedList.lookup_map (f := fun _ m => BoolMatrix.resize m n n)

theorem uniform_grow (hd : d.Uniform) : (d.grow n).Uniform := by
  by_cases hn : n ≤ d.dimension
  · rwa [grow, if_pos hn]
  · have hn : d.dimension < n := by omega
    refine ⟨by rw [labels_grow]; exact hd.ascending, fun a m h => ?_⟩
    rw [matrix?_grow hn, Option.map_eq_some_iff] at h
    obtain ⟨m, _, rfl⟩ := h
    rw [dimension_grow, Nat.max_eq_right (Nat.le_of_lt hn), BoolMatrix.size_resize]

theorem hasEdge_grow (hd : d.Uniform) : (d.grow n).HasEdge i a j ↔ d.HasEdge i a j := by
  by_cases hn : n ≤ d.dimension
  · rw [grow, if_pos hn]
  · have hn : d.dimension < n := by omega
    constructor
    · rintro ⟨m, hm, hget⟩
      rw [matrix?_grow hn, Option.map_eq_some_iff] at hm
      obtain ⟨m, hm, rfl⟩ := hm
      rw [BoolMatrix.get_resize, Bool.and_eq_true] at hget
      exact ⟨m, hm, hget.2⟩
    · intro h
      have bounds := hd.bounds h
      obtain ⟨m, hm, hget⟩ := h
      refine ⟨m.resize n n, by rw [matrix?_grow hn, hm]; rfl, ?_⟩
      rw [BoolMatrix.get_resize, hget, Bool.and_true, decide_eq_true_eq]
      omega

theorem dimension_addEdge : (d.addEdge u v label).dimension = max d.dimension (max u v + 1) :=
  dimension_grow

theorem matrix?_addEdge (hd : d.Uniform) :
    (d.addEdge u v label).matrix? a =
      if a = label then
        some ((((d.grow (max u v + 1)).matrix? label).getD
          (.square (d.addEdge u v label).dimension)).set u v true)
      else (d.grow (max u v + 1)).matrix? a := by
  have ascending : SortedList.Ascending ((d.grow (max u v + 1)).entries.map Prod.fst) :=
    (uniform_grow hd).ascending
  unfold addEdge matrix?
  rw [SortedList.lookup_alter ascending]
  simp only [beq_iff_eq]

theorem size_getD_grow (hd : d.Uniform) (u v : Nat) (label : Label) :
    (((d.grow (max u v + 1)).matrix? label).getD (.square (d.addEdge u v label).dimension)).size =
      ((d.addEdge u v label).dimension, (d.addEdge u v label).dimension) := by
  cases h : (d.grow (max u v + 1)).matrix? label with
  | none => exact BoolMatrix.size_zero
  | some m => exact (uniform_grow hd).size_eq label m h

theorem uniform_addEdge (hd : d.Uniform) : (d.addEdge u v label).Uniform := by
  refine ⟨?_, fun a m h => ?_⟩
  · have keys : (d.addEdge u v label).labels =
        SortedList.insert label (d.grow (max u v + 1)).labels :=
      SortedList.keys_alter
    rw [keys]
    exact SortedList.ascending_insert (uniform_grow hd).ascending
  · rw [matrix?_addEdge hd] at h
    split at h
    · obtain rfl := Option.some.inj h
      rw [BoolMatrix.size_set]
      exact size_getD_grow hd u v _
    · exact (uniform_grow hd).size_eq a m h

theorem hasEdge_addEdge (hd : d.Uniform) : (d.addEdge u v label).HasEdge i a j ↔
    d.HasEdge i a j ∨ i = u ∧ a = label ∧ j = v := by
  rw [← hasEdge_grow (n := max u v + 1) hd, hasEdge_iff, matrix?_addEdge hd, hasEdge_iff]
  split
  · next ha =>
    subst ha
    have size := size_getD_grow hd u v a
    simp only [BoolMatrix.size, Prod.mk.injEq] at size
    have hu : u < (d.addEdge u v a).dimension := by
      rw [dimension_addEdge]
      omega
    have hv : v < (d.addEdge u v a).dimension := by
      rw [dimension_addEdge]
      omega
    simp only [Option.map_some, BoolMatrix.get_set, size.1, size.2, hu, hv, and_true, true_and,
      Option.some.injEq]
    cases (d.grow (max u v + 1)).matrix? a with
    | none =>
      simp only [Option.getD_none, BoolMatrix.square, BoolMatrix.get_zero, Option.map_none]
      grind
    | some m =>
      simp only [Option.getD_some, Option.map_some, Option.some.injEq]
      grind
  · next ha => simp [ha]

inductive Edit where
  | grow (n : Nat)
  | addEdge (u v : Nat) (label : Label)
  deriving DecidableEq

def apply (d : LabelMatrices) : Edit → LabelMatrices
  | .grow n => d.grow n
  | .addEdge u v label => d.addEdge u v label

def ofEdits (n : Nat) (edits : List Edit) : LabelMatrices :=
  edits.foldl apply (ofDimension n)

theorem uniform_apply (hd : d.Uniform) (e : Edit) : (d.apply e).Uniform := by
  cases e with
  | grow n => exact uniform_grow hd
  | addEdge u v label => exact uniform_addEdge hd

theorem uniform_ofEdits (n : Nat) (edits : List Edit) : (ofEdits n edits).Uniform := by
  have run : ∀ d : LabelMatrices, d.Uniform → (edits.foldl apply d).Uniform := by
    induction edits with
    | nil => exact fun _ hd => hd
    | cons e edits ih => exact fun d hd => ih (d.apply e) (uniform_apply hd e)
  exact run _ (uniform_ofDimension n)

theorem Uniform.walk_bounds (hd : d.Uniform) (h : d.Walk i w j) :
    i < d.dimension ∧ j < d.dimension := by
  induction h with
  | nil lt => exact ⟨lt, lt⟩
  | cons edge _ ih => exact ⟨(hd.bounds edge).1, ih.2⟩

theorem walk_nil : d.Walk i [] j ↔ i = j ∧ i < d.dimension := by
  constructor
  · intro h
    cases h with
    | nil lt => exact ⟨rfl, lt⟩
  · rintro ⟨rfl, lt⟩
    exact .nil lt

theorem walk_letter (hd : d.Uniform) : d.Walk i [a] j ↔ d.HasEdge i a j := by
  constructor
  · intro h
    cases h with
    | cons edge rest =>
      obtain ⟨rfl, _⟩ := walk_nil.mp rest
      exact edge
  · intro h
    exact .cons h (.nil (hd.bounds h).2)

theorem walk_append (hd : d.Uniform) :
    d.Walk i (w ++ w') j ↔ ∃ k, d.Walk i w k ∧ d.Walk k w' j := by
  constructor
  · intro h
    induction w generalizing i with
    | nil => exact ⟨i, .nil (hd.walk_bounds h).1, h⟩
    | cons a w ih =>
      cases h with
      | cons edge rest =>
        obtain ⟨k, hk, hj⟩ := ih rest
        exact ⟨k, .cons edge hk, hj⟩
  · rintro ⟨k, hk, hj⟩
    exact hk.append hj

section OfGraph

variable {V : Type} [DecidableEq V] {vertices : List V} {edges : List (Edge V)} {e : Edge V}

def Joins (vertices : List V) (edges : List (Edge V)) (i : Nat) (a : Label) (j : Nat) : Prop :=
  ∃ e ∈ edges, vertices[i]? = some e.source ∧ e.label = a ∧ vertices[j]? = some e.target

theorem addEdgeOf_spec (hv : vertices.Nodup) (hd : d.Uniform)
    (hdim : d.dimension = vertices.length) :
    (addEdgeOf vertices d e).Uniform ∧ (addEdgeOf vertices d e).dimension = vertices.length ∧
      ∀ i a j, (addEdgeOf vertices d e).HasEdge i a j ↔
        d.HasEdge i a j ∨ Joins vertices [e] i a j := by
  have index := fun {v i} => FirstSeen.idxOf?_eq_some (a := v) (i := i) hv
  simp only [Joins, List.mem_singleton, exists_eq_left, ← index]
  unfold addEdgeOf
  cases hs : vertices.idxOf? e.source with
  | none => simp [hd, hdim]
  | some s =>
    cases ht : vertices.idxOf? e.target with
    | none => simp [hd, hdim]
    | some t =>
      obtain ⟨hs, _⟩ := List.getElem?_eq_some_iff.mp (index.mp hs)
      obtain ⟨ht, _⟩ := List.getElem?_eq_some_iff.mp (index.mp ht)
      refine ⟨uniform_addEdge hd, ?_, fun i a j => ?_⟩
      · rw [dimension_addEdge, hdim]
        omega
      · rw [hasEdge_addEdge hd]
        simp only [Option.some.injEq]
        grind

theorem foldl_addEdgeOf_spec (hv : vertices.Nodup) (hd : d.Uniform)
    (hdim : d.dimension = vertices.length) :
    (edges.foldl (addEdgeOf vertices) d).Uniform ∧
      (edges.foldl (addEdgeOf vertices) d).dimension = vertices.length ∧
      ∀ i a j, (edges.foldl (addEdgeOf vertices) d).HasEdge i a j ↔
        d.HasEdge i a j ∨ Joins vertices edges i a j := by
  induction edges generalizing d with
  | nil => exact ⟨hd, hdim, by simp [Joins]⟩
  | cons e edges ih =>
    obtain ⟨uniform, dimension, edge⟩ := addEdgeOf_spec (e := e) hv hd hdim
    obtain ⟨uniform', dimension', edge'⟩ := ih uniform dimension
    refine ⟨uniform', dimension', fun i a j => ?_⟩
    rw [List.foldl_cons, edge', edge, or_assoc]
    simp only [Joins, List.mem_cons, List.not_mem_nil, or_false, or_and_right, exists_or]

variable {g : LabelledGraph V}

theorem uniform_ofGraph (g : LabelledGraph V) : (ofGraph g).Uniform := by
  rw [ofGraph_eq]
  exact (foldl_addEdgeOf_spec g.vertices_nodup (uniform_ofDimension _) rfl).1

theorem dimension_ofGraph (g : LabelledGraph V) : (ofGraph g).dimension = g.vertices.length := by
  rw [ofGraph_eq]
  exact (foldl_addEdgeOf_spec g.vertices_nodup (uniform_ofDimension _) rfl).2.1

theorem hasEdge_ofGraph : (ofGraph g).HasEdge i a j ↔ Joins g.vertices g.edges i a j := by
  rw [ofGraph_eq, (foldl_addEdgeOf_spec g.vertices_nodup (uniform_ofDimension _) rfl).2.2]
  simp only [not_hasEdge_ofDimension, false_or]

theorem exists_vertex_of_walk (h : (ofGraph g).Walk i w j) :
    ∃ u v, g.vertices[i]? = some u ∧ g.vertices[j]? = some v ∧ g.Walk u w v := by
  induction h with
  | nil lt =>
    rw [dimension_ofGraph] at lt
    have vertex := List.getElem?_eq_getElem lt
    exact ⟨_, _, vertex, vertex, .nil (List.getElem_mem lt)⟩
  | cons edge _ ih =>
    obtain ⟨x, v, hx, hv, walk⟩ := ih
    obtain ⟨e, he, hs, rfl, ht⟩ := hasEdge_ofGraph.mp edge
    obtain rfl := Option.some.inj (hx.symm.trans ht)
    exact ⟨_, v, hs, hv, .cons he walk⟩

theorem walk_of_vertex {u v : V} (hi : g.vertices[i]? = some u) (hj : g.vertices[j]? = some v)
    (h : g.Walk u w v) : (ofGraph g).Walk i w j := by
  induction h generalizing i with
  | nil mem =>
    obtain ⟨hi', hi⟩ := List.getElem?_eq_some_iff.mp hi
    obtain ⟨_, hj⟩ := List.getElem?_eq_some_iff.mp hj
    obtain rfl := (List.getElem_inj g.vertices_nodup).mp (hi.trans hj.symm)
    exact .nil (by rwa [dimension_ofGraph])
  | @cons e _ _ mem rest ih =>
    obtain ⟨k, hk⟩ := List.getElem?_of_mem rest.source_mem
    exact .cons (hasEdge_ofGraph.mpr ⟨e, mem, hi, rfl, hk⟩) (ih hk hj)

end OfGraph

end ContextFreePaths.LabelMatrices
