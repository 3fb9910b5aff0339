import ContextFreePaths.Proofs.AllPairs
import ContextFreePaths.Proofs.NormalForm.Renaming

namespace ContextFreePaths

namespace WeakNormalForm

open Grammar

variable {g h : Grammar} {f f' : WeakNormalForm} {w : Word}

theorem isWeakNormal_of_subset (rules : g.rules ⊆ h.rules) (hh : h.isWeakNormal = true) :
    g.isWeakNormal = true :=
  List.all_eq_true.mpr (fun r hr => List.all_eq_true.mp hh r (rules hr))

theorem simulation_of_isWeakNormal (hf : f.IsFormOf g) (hf' : f'.IsFormOf h)
    (start : g.start = h.start) (rules : g.rules ⊆ h.rules) (hg : g.isWeakNormal = true)
    (hh : h.isWeakNormal = true) : Simulation Eq f.toGrammar f'.toGrammar := by
  apply Simulation.of_subset
  · exact (start_eq hf).trans (start.trans (start_eq hf').symm)
  · intro r hr
    exact (toGrammar_of_isWeakNormal hf' hh).mpr (rules ((toGrammar_of_isWeakNormal hf hg).mp hr))

theorem exists_simulation (hf : f.IsFormOf g) (hf' : f'.IsFormOf h) (start : g.start = h.start)
    (rules : g.rules ⊆ h.rules) (hg : ¬g.isWeakNormal = true) (hh : ¬h.isWeakNormal = true) :
    ∃ R, Simulation R f.toGrammar f'.toGrammar := by
  have normal : basis g = g.normalForm := if_neg hg
  have normal' : basis h = h.normalForm := if_neg hh
  obtain ⟨R, sim, same⟩ := Simulation.exists_normalForm start rules
  refine ⟨R, ?_, fun r hr B hR => ?_⟩
  · have starts := sim.start
    rw [start_normalForm, start_normalForm] at starts
    change R f.start f'.start
    rwa [start_eq hf, start_eq hf']
  · rcases (mem_toGrammar hf).mp hr with ⟨hrhs, hr⟩ | ⟨hrhs, hr⟩
    · -- An empty rule is matched by itself, for its left side is a name of the grammar.
      have head : r.lhs ∈ g.nonterminals :=
        names_subset_nonterminals hr (Rule.mem_names.mpr (.inl rfl))
      obtain rfl := same r.lhs head B hR
      obtain ⟨lhs, rhs⟩ := r
      obtain rfl : rhs = [] := hrhs
      exact ⟨[], (mem_toGrammar hf').mpr (.inl ⟨rfl, rules hr⟩), .nil⟩
    · rw [normal] at hr
      obtain ⟨β, hβ, rel⟩ := sim.rule r hr B hR
      refine ⟨β, (mem_toGrammar hf').mpr (.inr ⟨?_, normal' ▸ hβ⟩), rel⟩
      rintro rfl
      exact hrhs (List.forall₂_nil_right_iff.mp rel)

theorem toGrammar_generates_of_sameRules (hf : f.IsFormOf g) (hf' : f'.IsFormOf h)
    (start : g.start = h.start) (rules : ∀ r, r ∈ g.rules ↔ r ∈ h.rules)
    (hw : f.toGrammar.Generates g.start w) : f'.toGrammar.Generates h.start w := by
  have subset : g.rules ⊆ h.rules := fun r => (rules r).mp
  have subset' : h.rules ⊆ g.rules := fun r => (rules r).mpr
  obtain ⟨R, sim⟩ : ∃ R, Simulation R f.toGrammar f'.toGrammar := by
    by_cases hg : g.isWeakNormal = true
    · have hh := isWeakNormal_of_subset subset' hg
      exact ⟨Eq, simulation_of_isWeakNormal hf hf' start subset hg hh⟩
    · have hh : ¬h.isWeakNormal = true := fun hh => hg (isWeakNormal_of_subset subset hh)
      exact exists_simulation hf hf' start subset hg hh
  rw [← start_eq hf] at hw
  rw [← start_eq hf']
  exact sim.generates sim.start hw

end WeakNormalForm

theorem LabelledGraph.Walk.mono {V : Type} {graph graph' : LabelledGraph V} {u v : V} {w : Word}
    (walk : graph.Walk u w v) (vertices : graph.vertices ⊆ graph'.vertices)
    (edges : graph.edges ⊆ graph'.edges) : graph'.Walk u w v := by
  induction walk with
  | nil mem => exact .nil (vertices mem)
  | cons mem _ ih => exact .cons (edges mem) ih

namespace Query

open WeakNormalForm

variable {V : Type} [DecidableEq V]

/-- The pairs are the same for all ways to list the same rules, vertices and edges, be it in another
order or with repetitions. -/
theorem pairs_of_same_sets {g h : Grammar} {graph graph' : LabelledGraph V}
    (start : g.start = h.start) (rules : ∀ r, r ∈ g.rules ↔ r ∈ h.rules)
    (vertices : ∀ v, v ∈ graph.vertices ↔ v ∈ graph'.vertices)
    (edges : ∀ e, e ∈ graph.edges ↔ e ∈ graph'.edges) :
    ∃ q q' R R', ofGraph g graph = .ok q ∧ q.pairs? = some R ∧
      ofGraph h graph' = .ok q' ∧ q'.pairs? = some R' ∧ ∀ p, p ∈ R ↔ p ∈ R' := by
  obtain ⟨q, R, hq, run, form, pairs⟩ := exists_pairs_ofGraph g graph
  obtain ⟨q', R', hq', run', form', pairs'⟩ := exists_pairs_ofGraph h graph'
  refine ⟨q, q', R, R', hq, run, hq', run', fun ⟨u, v⟩ => ?_⟩
  rw [pairs, pairs']
  constructor
  · rintro ⟨w, walk, hw⟩
    exact ⟨w, walk.mono (fun v => (vertices v).mp) (fun e => (edges e).mp),
      toGrammar_generates_of_sameRules form form' start rules hw⟩
  · rintro ⟨w, walk, hw⟩
    exact ⟨w, walk.mono (fun v => (vertices v).mpr) (fun e => (edges e).mpr),
      toGrammar_generates_of_sameRules form' form start.symm (fun r => (rules r).symm) hw⟩

def tripled : Grammar where
  start := "S"
  rules := [
    ⟨"S", [.nonterminal "A", .nonterminal "A", .nonterminal "A"]⟩,
    ⟨"A", []⟩,
    ⟨"A", [.terminal "a"]⟩]

def tripledAgain : Grammar where
  start := "S"
  rules := [
    ⟨"A", [.terminal "a"]⟩,
    ⟨"S", [.nonterminal "A", .nonterminal "A", .nonterminal "A"]⟩,
    ⟨"A", []⟩,
    ⟨"S", [.nonterminal "A", .nonterminal "A", .nonterminal "A"]⟩]

def lonely : LabelledGraph String :=
  (LabelledGraph.ofEdges [⟨"u", "v", "a"⟩]).addVertex "z"

def lonelyAgain : LabelledGraph String :=
  ((LabelledGraph.empty.addVertex "z").addEdge ⟨"u", "v", "a"⟩).addEdge ⟨"u", "v", "a"⟩

theorem tripled_pairs_of_same_sets :
    (∀ r, r ∈ tripled.rules ↔ r ∈ tripledAgain.rules) ∧
      (∀ v, v ∈ lonely.vertices ↔ v ∈ lonelyAgain.vertices) ∧
      (∀ e, e ∈ lonely.edges ↔ e ∈ lonelyAgain.edges) ∧
      ∃ q q' R R', ofGraph tripled lonely = .ok q ∧ q.pairs? = some R ∧
        ofGraph tripledAgain lonelyAgain = .ok q' ∧ q'.pairs? = some R' ∧
        (∀ p, p ∈ R ↔ p ∈ R') ∧ ("z", "z") ∈ R' := by
  have rules : ∀ r, r ∈ tripled.rules ↔ r ∈ tripledAgain.rules := by
    intro r
    simp only [tripled, tripledAgain, List.mem_cons, List.not_mem_nil, or_false]
    tauto
  have vertices : ∀ v, v ∈ lonely.vertices ↔ v ∈ lonelyAgain.vertices := by
    have left : lonely.vertices = ["u", "v", "z"] := by decide
    have right : lonelyAgain.vertices = ["z", "u", "v"] := by decide
    intro v
    simp only [left, right, List.mem_cons, List.not_mem_nil, or_false]
    tauto
  have edges : ∀ e, e ∈ lonely.edges ↔ e ∈ lonelyAgain.edges := by
    have left : lonely.edges = [⟨"u", "v", "a"⟩] := by decide
    have right : lonelyAgain.edges = [⟨"u", "v", "a"⟩, ⟨"u", "v", "a"⟩] := by decide
    intro e
    simp only [left, right, List.mem_cons, List.not_mem_nil, or_false, or_self]
  obtain ⟨q, q', R, R', hq, run, hq', run', same⟩ :=
    pairs_of_same_sets (g := tripled) (h := tripledAgain) rfl rules vertices edges
  refine ⟨rules, vertices, edges, q, q', R, R', hq, run, hq', run', same, (same _).mp ?_⟩
  have pairs : (ofGraph tripled lonely).toOption.bind pairs? =
      some [("u", "u"), ("u", "v"), ("v", "v"), ("z", "z")] := by decide +kernel
  rw [hq] at pairs
  obtain rfl := Option.some.inj (run.symm.trans pairs)
  decide

end Query

end ContextFreePaths
