import ContextFreePaths.Proofs.LeastSolution
import ContextFreePaths.Proofs.Membership

namespace ContextFreePaths.Query

open WeakNormalForm

variable {V : Type} {q : Query V} {g : Grammar} {f : WeakNormalForm} {u v : V}
  {w : Word}

theorem vertexPair?_eq_some {p : Nat × Nat} :
    q.vertexPair? p = some (u, v) ↔ q.vertices[p.1]? = some u ∧ q.vertices[p.2]? = some v := by
  unfold vertexPair?
  cases q.vertices[p.1]? <;> cases q.vertices[p.2]? <;> simp

variable [DecidableEq V]

theorem exists_pairs_of_closure {t : ReachTable} (run : q.closure? = some t) :
    ∃ R, q.pairs? = some R ∧ R.Nodup ∧ ∀ u v, (u, v) ∈ R ↔
      ∃ i j, q.vertices[i]? = some u ∧ q.vertices[j]? = some v ∧ t.Reaches q.form.start i j := by
  cases hm : t.matrix? q.form.start with
  | none =>
    exact ⟨[], by simp [pairs?, run, hm], List.nodup_nil, by simp [ReachTable.Reaches, hm]⟩
  | some m =>
    refine ⟨(m.ones.filterMap q.vertexPair?).eraseDups, by simp [pairs?, run, hm],
      FirstSeen.nodup_eraseDups _, fun u v => ?_⟩
    simp only [List.mem_eraseDups, List.mem_filterMap, vertexPair?_eq_some, Prod.exists,
      BoolMatrix.mem_ones, ReachTable.reaches_iff hm]
    constructor
    · rintro ⟨i, j, get, hu, hv⟩
      exact ⟨i, j, hu, hv, get⟩
    · rintro ⟨i, j, hu, hv, get⟩
      exact ⟨i, j, get, hu, hv⟩

theorem exists_pairs (hq : q.matrices.Uniform) (hf : q.form.Sorted) :
    ∃ R, q.pairs? = some R ∧ ∀ u v, (u, v) ∈ R ↔
      ∃ i j, q.vertices[i]? = some u ∧ q.vertices[j]? = some v ∧ q.Joined q.form.start i j := by
  obtain ⟨t, run, _, _, _, reaches⟩ := exists_closure hq hf
  obtain ⟨R, pairs, _, mem⟩ := exists_pairs_of_closure run
  exact ⟨R, pairs, fun u v => by simp only [mem, reaches]⟩

theorem exists_ofGraph (g : Grammar) (graph : LabelledGraph V) :
    ∃ q, ofGraph g graph = .ok q ∧ q.form.IsFormOf g ∧ q.matrices = .ofGraph graph ∧
      q.vertices = graph.vertices := by
  obtain ⟨f, hf, form⟩ := exists_ofGrammar g
  refine ⟨⟨f, .ofGraph graph, graph.vertices⟩, ?_, form, rfl, rfl⟩
  simp only [ofGraph, hf, LabelMatrices.vertices_decompose]
  rfl

theorem exists_pairs_ofGraph (g : Grammar) (graph : LabelledGraph V) :
    ∃ q R, ofGraph g graph = .ok q ∧ q.pairs? = some R ∧ q.form.IsFormOf g ∧
      ∀ u v, (u, v) ∈ R ↔ ∃ w, graph.Walk u w v ∧ q.form.toGrammar.Generates g.start w := by
  obtain ⟨q, hq, form, matrices, vertices⟩ := exists_ofGraph g graph
  have uniform : q.matrices.Uniform := matrices ▸ LabelMatrices.uniform_ofGraph graph
  obtain ⟨R, run, pairs⟩ := exists_pairs uniform form.sorted
  refine ⟨q, R, hq, run, form, fun u v => ?_⟩
  rw [pairs, start_eq form, vertices]
  simp only [Joined, matrices]
  constructor
  · rintro ⟨i, j, hu, hv, w, walk, hw⟩
    obtain ⟨u', v', hu', hv', walk⟩ := LabelMatrices.exists_vertex_of_walk walk
    obtain rfl := Option.some.inj (hu.symm.trans hu')
    obtain rfl := Option.some.inj (hv.symm.trans hv')
    exact ⟨w, walk, hw⟩
  · -- The ends of a walk are vertices, also where no edge is gone.
    rintro ⟨w, walk, hw⟩
    obtain ⟨i, hu⟩ := List.getElem?_of_mem walk.source_mem
    obtain ⟨j, hv⟩ := List.getElem?_of_mem walk.target_mem
    exact ⟨i, j, hu, hv, w, LabelMatrices.walk_of_vertex hu hv walk, hw⟩

theorem toGrammar_generates_nil (form : f.IsFormOf g) (h : g.Generates g.start [])
    (hg : g.isWeakNormal = true ∨ ⟨g.start, []⟩ ∈ g.rules) : f.toGrammar.Generates g.start [] := by
  rcases hg with hg | hg
  · exact h.mono (fun r hr => (toGrammar_of_isWeakNormal form hg).mpr hr)
  · have mem : ⟨g.start, []⟩ ∈ f.toGrammar.rules := (mem_toGrammar form).mpr (.inl ⟨rfl, hg⟩)
    exact Grammar.generates_of_mem mem .nil

/-- Every pair is joined by a word of the grammar, and every pair that a word of the grammar joins
is there. For the empty word the grammar must be of the weak form or empty its start symbol by a
rule. -/
theorem pairs_correct (g : Grammar) (graph : LabelledGraph V) :
    ∃ q R, ofGraph g graph = .ok q ∧ q.pairs? = some R ∧
      (∀ u v, (u, v) ∈ R → ∃ w, graph.Walk u w v ∧ g.Generates g.start w) ∧
      (∀ u v w, w ≠ [] → graph.Walk u w v → g.Generates g.start w → (u, v) ∈ R) ∧
      (g.Generates g.start [] → g.isWeakNormal = true ∨ ⟨g.start, []⟩ ∈ g.rules →
        ∀ v ∈ graph.vertices, (v, v) ∈ R) := by
  obtain ⟨q, R, hq, run, form, pairs⟩ := exists_pairs_ofGraph g graph
  refine ⟨q, R, hq, run, fun u v h => ?_, fun u v w hw walk h => ?_, fun h hg v hv => ?_⟩
  · obtain ⟨w, walk, hw⟩ := (pairs u v).mp h
    exact ⟨w, walk, generates_of_toGrammar form g.start_mem_nonterminals hw⟩
  · exact (pairs u v).mpr ⟨w, walk, toGrammar_generates_start form hw h⟩
  · exact (pairs v v).mpr ⟨[], .nil hv, toGrammar_generates_nil form h hg⟩

def ring : LabelledGraph String :=
  .ofEdges [⟨"u", "v", "a"⟩, ⟨"v", "u", "a"⟩, ⟨"u", "u", "b"⟩]

theorem ring_pairs_correct : ∃ q R, ofGraph nested ring = .ok q ∧ q.pairs? = some R ∧
    ("v", "u") ∈ R ∧ ("v", "v") ∈ R := by
  obtain ⟨q, R, hq, run, _, complete, nil⟩ := pairs_correct nested ring
  have walk : ring.Walk "v" ["a", "b"] "u" :=
    .cons (e := ⟨"v", "u", "a"⟩) (by decide) (.cons (e := ⟨"u", "u", "b"⟩) (by decide)
      (.nil (by decide)))
  have word : nested.Generates "S" ["a", "b"] :=
    Grammar.contains_iff.mp (by decide +kernel)
  have empty : nested.Generates "S" [] := Grammar.contains_iff.mp (by decide +kernel)
  refine ⟨q, R, hq, run, complete "v" "u" _ (by decide) walk word, ?_⟩
  exact nil empty (.inr (by decide)) "v" (by decide)

end ContextFreePaths.Query
