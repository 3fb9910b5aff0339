import ContextFreePaths.Proofs.AllPairs

namespace ContextFreePaths

variable {V : Type} {i j : Nat} {w : Word}

def LabelledGraph.Spells (graph : LabelledGraph V) (i : Nat) (w : Word) (j : Nat) : Prop :=
  ∃ u v, graph.vertices[i]? = some u ∧ graph.vertices[j]? = some v ∧ graph.Walk u w v

namespace Query

open WeakNormalForm

variable {q : Query V} {g : Grammar} {A : Name}

theorem joined_of_dropped (form : q.form.IsFormOf g) (dropped : A ∉ (basis g).nonterminals)
    (hA : A ∈ q.form.variables) : q.Joined A i j ↔ i = j ∧ i < q.matrices.dimension := by
  constructor
  · rintro ⟨w, walk, hw⟩
    rw [eq_nil_of_toGrammar_generates form dropped hw] at walk
    exact LabelMatrices.walk_nil.mp walk
  · rintro ⟨rfl, hi⟩
    obtain ⟨p, hp, rfl⟩ := exists_epsilon_of_mem_variables form dropped hA
    exact joined_epsilon (mem_productions.mpr (.inl hp)) (form.sorted.epsilon p hp) hi

variable [DecidableEq V]

theorem walk_ofGraph {graph : LabelledGraph V} :
    (LabelMatrices.ofGraph graph).Walk i w j ↔ graph.Spells i w j := by
  constructor
  · exact LabelMatrices.exists_vertex_of_walk
  · rintro ⟨u, v, hu, hv, walk⟩
    exact LabelMatrices.walk_of_vertex hu hv walk

theorem exists_matrices_ofGraph (g : Grammar) (graph : LabelledGraph V) :
    ∃ q t, ofGraph g graph = .ok q ∧ q.closure? = some t ∧ q.form.IsFormOf g ∧
      q.matrices = .ofGraph graph ∧ (∀ A ∈ q.form.variables, ∃ m, t.matrix? A = some m) ∧
      ∀ A m, t.matrix? A = some m →
        A ∈ q.form.variables ∧ ∀ i j, m.get i j = true ↔ q.Joined A i j := by
  obtain ⟨q, hq, form, matrices, _⟩ := exists_ofGraph g graph
  have uniform : q.matrices.Uniform := matrices ▸ LabelMatrices.uniform_ofGraph graph
  obtain ⟨t, run, _, _, names, reaches⟩ := exists_closure uniform form.sorted
  refine ⟨q, t, hq, run, form, matrices, fun A hA => ?_, fun A m hm => ⟨?_, fun i j => ?_⟩⟩
  · exact ReachTable.exists_matrix?.mp ((names A).mpr hA)
  · exact (names A).mp (ReachTable.exists_matrix?.mpr ⟨m, hm⟩)
  · rw [← ReachTable.reaches_iff hm, reaches]

/-- What the matrix of a nonterminal says. It misses words of those nonterminals that the basis no
longer mentions. -/
theorem matrix_meaning (g : Grammar) (graph : LabelledGraph V) :
    ∃ q t, ofGraph g graph = .ok q ∧ q.closure? = some t ∧
      ∀ A ∈ g.nonterminals, ∀ m, t.matrix? A = some m →
        (∀ i j, m.get i j = true → ∃ w, graph.Spells i w j ∧ g.Generates A w) ∧
        (A ∈ (basis g).nonterminals → ∀ i j w, w ≠ [] → graph.Spells i w j → g.Generates A w →
          m.get i j = true) ∧
        (A ∉ (basis g).nonterminals →
          ∀ i j, m.get i j = true ↔ i = j ∧ i < graph.vertices.length) := by
  obtain ⟨q, t, hq, run, form, matrices, _, entries⟩ := exists_matrices_ofGraph g graph
  refine ⟨q, t, hq, run, fun A hA m hm => ?_⟩
  obtain ⟨variable_mem, get_iff⟩ := entries A m hm
  refine ⟨fun i j get => ?_, fun kept i j w hw path word => ?_, fun dropped i j => ?_⟩
  · obtain ⟨w, walk, hw⟩ := (get_iff i j).mp get
    rw [matrices, walk_ofGraph] at walk
    exact ⟨w, walk, generates_of_toGrammar form hA hw⟩
  · refine (get_iff i j).mpr ⟨w, ?_, toGrammar_generates form hA kept hw word⟩
    rwa [matrices, walk_ofGraph]
  · rw [get_iff, joined_of_dropped form dropped variable_mem, matrices,
      LabelMatrices.dimension_ofGraph]

/-- The start symbol leads to the other nonterminal by a unit rule and takes over its words, so
that the basis mentions the start symbol only. -/
def inlined : Grammar where
  start := "S"
  rules := [
    ⟨"S", [.nonterminal "A"]⟩,
    ⟨"A", [.terminal "b"]⟩,
    ⟨"A", []⟩]

def bridge : LabelledGraph String :=
  .ofEdges [⟨"u", "v", "b"⟩]

theorem bridge_spells : bridge.Spells 0 ["b"] 1 :=
  ⟨"u", "v", by decide, by decide, .cons (e := ⟨"u", "v", "b"⟩) (by decide) (.nil (by decide))⟩

theorem inlined_generates : inlined.Generates "A" ["b"] :=
  Grammar.generates_of_mem (r := ⟨"A", [.terminal "b"]⟩) (by decide) (.terminal .nil)

theorem inlined_generates_start : inlined.Generates "S" ["b"] :=
  Grammar.generates_of_mem (r := ⟨"S", [.nonterminal "A"]⟩) (by decide) inlined_generates

theorem inlined_dropped : "A" ∉ (basis inlined).nonterminals := by
  decide +kernel

theorem inlined_variables {q : Query String} (form : q.form.IsFormOf inlined) :
    "A" ∈ q.form.variables ∧ "S" ∈ q.form.variables := by
  have epsilon : ⟨"A", .epsilon⟩ ∈ q.form.epsilon := (form.mem_epsilon _).mpr ⟨rfl, by decide⟩
  have unary : ⟨"S", .terminal "b"⟩ ∈ q.form.unary :=
    (form.mem_unary _).mpr ⟨⟨_, rfl⟩, by decide +kernel⟩
  exact ⟨head_mem_variables (mem_productions.mpr (.inl epsilon)),
    head_mem_variables (mem_productions.mpr (.inr (.inl unary)))⟩

theorem inlined_matrix_meaning : ∃ q t m n, ofGraph inlined bridge = .ok q ∧
    q.closure? = some t ∧ t.matrix? "A" = some m ∧ t.matrix? "S" = some n ∧ m.get 0 0 = true ∧
    (∃ w, bridge.Spells 0 w 0 ∧ inlined.Generates "A" w) ∧ n.get 0 1 = true := by
  obtain ⟨q, t, hq, run, meaning⟩ := matrix_meaning inlined bridge
  obtain ⟨q', t', hq', run', form, _, present, _⟩ := exists_matrices_ofGraph inlined bridge
  obtain rfl := Except.ok.inj (hq'.symm.trans hq)
  obtain rfl := Option.some.inj (run'.symm.trans run)
  obtain ⟨m, hm⟩ := present "A" (inlined_variables form).1
  obtain ⟨n, hn⟩ := present "S" (inlined_variables form).2
  obtain ⟨sound, _, identity⟩ := meaning "A" (by decide +kernel) m hm
  obtain ⟨_, complete, _⟩ := meaning "S" (by decide +kernel) n hn
  have get : m.get 0 0 = true := (identity inlined_dropped 0 0).mpr ⟨rfl, by decide⟩
  refine ⟨q', t', m, n, hq, run, hm, hn, get, sound 0 0 get, ?_⟩
  exact complete (by decide +kernel) 0 1 _ (by decide) bridge_spells inlined_generates_start

theorem inlined_matrix_misses_edge : ∃ q t m, ofGraph inlined bridge = .ok q ∧
    q.closure? = some t ∧ "A" ∈ inlined.nonterminals ∧ t.matrix? "A" = some m ∧
    bridge.Spells 0 ["b"] 1 ∧ inlined.Generates "A" ["b"] ∧ m.get 0 1 = false := by
  obtain ⟨q, t, hq, run, form, _, present, entries⟩ := exists_matrices_ofGraph inlined bridge
  obtain ⟨m, hm⟩ := present "A" (inlined_variables form).1
  obtain ⟨variable_mem, get_iff⟩ := entries "A" m hm
  refine ⟨q, t, m, hq, run, by decide +kernel, hm, bridge_spells, inlined_generates, ?_⟩
  rw [← Bool.not_eq_true, get_iff, joined_of_dropped form inlined_dropped variable_mem]
  exact fun h => Nat.zero_ne_one h.1

end Query

end ContextFreePaths
