import ContextFreePaths.Proofs.LabelMatrices
import ContextFreePaths.Proofs.Saturation
import ContextFreePaths.Proofs.WeakNormalForm

namespace ContextFreePaths

open Interpretation

namespace ReachTable

variable {t t' : ReachTable} {d : LabelMatrices} {p : Production} {ps : List Production} {A : Name}
  {i j : Nat}

theorem seedEpsilon_spec (ht : t.Uniform) (ps : List Production) :
    (t.seedEpsilon ps).Uniform ∧ (t.seedEpsilon ps).names = t.names ∧
      (t.seedEpsilon ps).dimension = t.dimension ∧
      ∀ A i j, (t.seedEpsilon ps).Reaches A i j ↔
        if ∃ p ∈ ps, p.head = A then A ∈ t.names ∧ i < t.dimension ∧ i = j
        else t.Reaches A i j := by
  induction ps generalizing t with
  | nil => exact ⟨ht, rfl, rfl, by simp [seedEpsilon]⟩
  | cons p ps ih =>
    have step : t.seedEpsilon (p :: ps) =
        (t.setMatrix p.head (.identity t.dimension)).seedEpsilon ps := rfl
    obtain ⟨uniform, names_eq, dimension_eq, reaches⟩ :=
      ih (uniform_setMatrix ht BoolMatrix.size_identity)
    rw [names_setMatrix] at names_eq
    rw [step]
    refine ⟨uniform, names_eq, dimension_eq, fun A i j => ?_⟩
    rw [reaches, names_setMatrix, reaches_setMatrix, BoolMatrix.get_identity, decide_eq_true_eq]
    have dimension : (t.setMatrix p.head (.identity t.dimension)).dimension = t.dimension := rfl
    simp only [List.exists_mem_cons_iff, dimension]
    by_cases later : ∃ q ∈ ps, q.head = A
    · simp [later]
    · by_cases hA : p.head = A
      · simp [hA]
      · simp [hA, later, Ne.symm hA]

theorem exists_seedLetter (ht : t.Uniform) (hd : d.Uniform) (dim : d.dimension = t.dimension)
    (p : Production) : ∃ t', seedLetter? d t p = some t' ∧ t.Extends t' ∧
      ∀ A i j, t'.Reaches A i j ↔ t.Reaches A i j ∨
        A ∈ t.names ∧ p.head = A ∧ ∃ a, p.body = .terminal a ∧ d.HasEdge i a j := by
  obtain ⟨head, body⟩ := p
  cases body with
  | epsilon => exact ⟨t, rfl, .refl ht, by simp⟩
  | binary B C => exact ⟨t, rfl, .refl ht, by simp⟩
  | terminal a =>
    simp only [seedLetter?, Body.terminal.injEq, exists_eq_left']
    cases hm : d.matrix? a with
    | none =>
      refine ⟨t, by split <;> simp_all, .refl ht, fun A i j => ?_⟩
      simp [LabelMatrices.HasEdge, hm]
    | some m =>
      by_cases hh : head ∈ t.names
      · obtain ⟨old, hold⟩ := exists_matrix?.mp hh
        have size : m.size = (t.dimension, t.dimension) := by rw [hd.size_eq a m hm, dim]
        obtain ⟨t', ht', wider, reaches⟩ := exists_unionAt ht hh size
        refine ⟨t', by rw [hold]; exact ht', wider, fun A i j => ?_⟩
        rw [reaches]
        have edge : d.HasEdge i a j ↔ m.get i j = true := by simp [LabelMatrices.HasEdge, hm]
        rw [edge]
        grind
      · refine ⟨t, by rw [matrix?_eq_none.mpr hh], .refl ht, fun A i j => ?_⟩
        grind

theorem exists_seedLetters (ht : t.Uniform) (hd : d.Uniform) (dim : d.dimension = t.dimension)
    (ps : List Production) : ∃ t', ps.foldlM (seedLetter? d) t = some t' ∧ t.Extends t' ∧
      ∀ A i j, t'.Reaches A i j ↔ t.Reaches A i j ∨
        A ∈ t.names ∧ ∃ p ∈ ps, p.head = A ∧ ∃ a, p.body = .terminal a ∧ d.HasEdge i a j := by
  apply exists_foldlM (fun (done : List Production) t' => t.Extends t' ∧
    ∀ A i j, t'.Reaches A i j ↔ t.Reaches A i j ∨
      A ∈ t.names ∧ ∃ p ∈ done, p.head = A ∧ ∃ a, p.body = .terminal a ∧ d.HasEdge i a j)
  · exact ⟨.refl ht, by simp⟩
  · rintro done p t₁ _ ⟨wider, reaches⟩
    obtain ⟨t₂, run, wider', reaches'⟩ :=
      exists_seedLetter wider.uniform' hd (dim.trans wider.dimension_eq.symm) p
    refine ⟨t₂, run, wider.trans wider', fun A i j => ?_⟩
    rw [reaches', reaches, wider.names_eq, or_assoc, ← and_or_left]
    simp only [List.mem_append, List.mem_singleton, or_and_right, exists_or, exists_eq_left]

end ReachTable

namespace Query

open WeakNormalForm

variable {V : Type} {q : Query V} {t : ReachTable} {A B C : Name} {i j k : Nat}

def Joined (q : Query V) (A : Name) (i j : Nat) : Prop :=
  ∃ w, q.matrices.Walk i w j ∧ q.form.toGrammar.Generates A w

theorem generates_of_production {p : Production} {w : Word} (hp : p ∈ q.form.productions)
    (hw : Spells q.form.toGrammar.Generates p.body.symbols w) :
    q.form.toGrammar.Generates p.head w :=
  q.form.toGrammar.models_generates p.toRule (toRule_mem hp) w hw

theorem joined_epsilon {p : Production} (hp : p ∈ q.form.productions) (body : p.body = .epsilon)
    (hi : i < q.matrices.dimension) : q.Joined p.head i i := by
  refine ⟨[], .nil hi, generates_of_production hp ?_⟩
  rw [body]
  rfl

theorem joined_letter (hq : q.matrices.Uniform) {p : Production} {a : Label}
    (hp : p ∈ q.form.productions) (body : p.body = .terminal a) (edge : q.matrices.HasEdge i a j) :
    q.Joined p.head i j := by
  refine ⟨[a], (LabelMatrices.walk_letter hq).mpr edge, generates_of_production hp ?_⟩
  rw [body]
  exact spells_terminal.mpr rfl

theorem joined_pair (hp : ⟨A, .binary B C⟩ ∈ q.form.productions) (left : q.Joined B i k)
    (right : q.Joined C k j) : q.Joined A i j := by
  obtain ⟨u, hu, hB⟩ := left
  obtain ⟨v, hv, hC⟩ := right
  exact ⟨u ++ v, hu.append hv, generates_of_production hp (spells_pair.mpr ⟨u, v, rfl, hB, hC⟩)⟩

theorem Joined.mem {P : Name → Nat → Nat → Prop} (hq : q.matrices.Uniform) (hf : q.form.Sorted)
    (epsilon : ∀ p ∈ q.form.epsilon, ∀ i < q.matrices.dimension, P p.head i i)
    (letter : ∀ p ∈ q.form.unary, ∀ a, p.body = .terminal a →
      ∀ i j, q.matrices.HasEdge i a j → P p.head i j)
    (pair : ∀ A B C, ⟨A, .binary B C⟩ ∈ q.form.binary →
      ∀ i k j, P B i k → P C k j → P A i j)
    (h : q.Joined A i j) : P A i j := by
  obtain ⟨w, walk, hA⟩ := h
  -- A word counts for a nonterminal if all walks that spell it are in the relation.
  have models : Models (fun A w => ∀ i j, q.matrices.Walk i w j → P A i j)
      q.form.toGrammar.rules := by
    intro r hr w hw i j walk
    obtain ⟨p, hp, rfl⟩ := List.mem_map.mp hr
    rw [Production.rhs_toRule] at hw
    rw [Production.lhs_toRule]
    rcases mem_productions.mp hp with hp | hp | hp
    · rw [hf.epsilon p hp] at hw
      obtain rfl : w = [] := hw
      obtain ⟨rfl, hi⟩ := LabelMatrices.walk_nil.mp walk
      exact epsilon p hp i hi
    · obtain ⟨a, ha⟩ := hf.unary p hp
      rw [ha] at hw
      obtain rfl := spells_terminal.mp hw
      exact letter p hp a ha i j ((LabelMatrices.walk_letter hq).mp walk)
    · obtain ⟨A, body⟩ := p
      obtain ⟨B, C, hBC⟩ := hf.binary _ hp
      simp only at hBC
      subst hBC
      obtain ⟨u, v, rfl, hu, hv⟩ := spells_pair.mp hw
      obtain ⟨k, hk, hj⟩ := (LabelMatrices.walk_append hq).mp walk
      exact pair A B C hp i k j (hu i k hk) (hv k j hj)
  exact models.generates hA i j walk

theorem head_mem_variables {p : Production} (hp : p ∈ q.form.productions) :
    p.head ∈ q.form.variables :=
  mem_variables.mpr ⟨p, hp, List.mem_cons_self⟩

theorem closure?_of_seeds {t₀ : ReachTable} (seeds : q.seeds? = some t₀)
    (saturate : t₀.saturate? q.form.binary = some t) : q.closure? = some t := by
  simp [closure?, seeds, saturate]

theorem exists_seeds (hq : q.matrices.Uniform) :
    ∃ t, q.seeds? = some t ∧ t.Uniform ∧ t.dimension = q.matrices.dimension ∧
      (∀ A, A ∈ t.names ↔ A ∈ q.form.variables) ∧
      ∀ A i j, t.Reaches A i j ↔
        (∃ p ∈ q.form.epsilon, p.head = A) ∧ i < q.matrices.dimension ∧ i = j ∨
        ∃ p ∈ q.form.unary, p.head = A ∧ ∃ a, p.body = .terminal a ∧ q.matrices.HasEdge i a j := by
  have names : ∀ A, A ∈ (ReachTable.ofNames q.form.variables q.matrices.dimension).names ↔
      A ∈ q.form.variables := by
    intro A
    rw [ReachTable.names_ofNames, FirstSeen.mem_ofList]
  obtain ⟨uniform, names_eq, dimension_eq, reaches⟩ := ReachTable.seedEpsilon_spec
    (ReachTable.uniform_ofNames q.form.variables q.matrices.dimension) q.form.epsilon
  obtain ⟨t, run, wider, reaches'⟩ :=
    ReachTable.exists_seedLetters uniform hq dimension_eq.symm q.form.unary
  refine ⟨t, run, wider.uniform', wider.dimension_eq.trans dimension_eq, fun A => ?_, ?_⟩
  · rw [wider.names_eq, names_eq, names]
  · intro A i j
    have dimension : (ReachTable.ofNames q.form.variables q.matrices.dimension).dimension =
        q.matrices.dimension := rfl
    have epsilon : (∃ p ∈ q.form.epsilon, p.head = A) → A ∈ q.form.variables := by
      rintro ⟨p, hp, rfl⟩
      exact head_mem_variables (mem_productions.mpr (.inl hp))
    have unary : (∃ p ∈ q.form.unary, p.head = A ∧
        ∃ a, p.body = .terminal a ∧ q.matrices.HasEdge i a j) → A ∈ q.form.variables := by
      rintro ⟨p, hp, rfl, _⟩
      exact head_mem_variables (mem_productions.mpr (.inr (.inl hp)))
    rw [reaches', reaches, names_eq, names, dimension, and_iff_right_of_imp unary]
    by_cases hA : ∃ p ∈ q.form.epsilon, p.head = A
    · simp only [hA, if_true, epsilon hA, true_and]
    · simp only [hA, if_false, ReachTable.not_reaches_ofNames, false_and]

theorem exists_closure (hq : q.matrices.Uniform) (hf : q.form.Sorted) :
    ∃ t, q.closure? = some t ∧ t.Uniform ∧ t.dimension = q.matrices.dimension ∧
      (∀ A, A ∈ t.names ↔ A ∈ q.form.variables) ∧ ∀ A i j, t.Reaches A i j ↔ q.Joined A i j := by
  obtain ⟨t₀, seeds, uniform, dimension_eq, names, reaches⟩ := exists_seeds hq
  obtain ⟨t, run, wider, closed, least⟩ := ReachTable.exists_saturate uniform q.form.binary
  refine ⟨t, closure?_of_seeds seeds run, wider.uniform', wider.dimension_eq.trans dimension_eq,
    fun A => by rw [wider.names_eq, names], fun A i j => ⟨?_, ?_⟩⟩
  · -- Nothing else is in the table: not in the seeds, and not by any production.
    apply least
    · intro A B C rule i k j left right
      have hp := (ReachTable.mem_binaryRules.mp rule).1
      exact joined_pair (mem_productions.mpr (.inr (.inr hp))) left right
    · intro A i j h
      rcases (reaches A i j).mp h with ⟨⟨p, hp, rfl⟩, hi, rfl⟩ | ⟨p, hp, rfl, a, ha, edge⟩
      · exact joined_epsilon (mem_productions.mpr (.inl hp)) (hf.epsilon p hp) hi
      · exact joined_letter hq (mem_productions.mpr (.inr (.inl hp))) ha edge
  · -- Nothing is missed, for the passes ended with a table that is closed under the productions.
    apply Joined.mem (P := t.Reaches) hq hf
    · intro p hp i hi
      exact wider.reaches _ _ _ ((reaches p.head i i).mpr (.inl ⟨⟨p, hp, rfl⟩, hi, rfl⟩))
    · intro p hp a ha i j edge
      exact wider.reaches _ _ _ ((reaches p.head i j).mpr (.inr ⟨p, hp, rfl, a, ha, edge⟩))
    · intro A B C hp
      have mem : ∀ X ∈ Production.names ⟨A, .binary B C⟩, X ∈ t₀.names :=
        fun X hX => (names X).mpr (mem_variables.mpr ⟨_, mem_productions.mpr (.inr (.inr hp)), hX⟩)
      exact closed A B C (ReachTable.mem_binaryRules.mpr ⟨hp, mem A (by simp [Production.names]),
        mem B (by simp [Production.names, Body.symbols, Symbol.name?]),
        mem C (by simp [Production.names, Body.symbols, Symbol.name?])⟩)

theorem closure_of_perm {q' : Query V} (hq : q.matrices.Uniform) (hf : q.form.Sorted)
    (matrices : q'.matrices = q.matrices) (epsilon : q'.form.epsilon.Perm q.form.epsilon)
    (unary : q'.form.unary.Perm q.form.unary) (binary : q'.form.binary.Perm q.form.binary)
    (ht : q.closure? = some t) :
    ∃ t', q'.closure? = some t' ∧ ∀ A, t'.matrix? A = t.matrix? A := by
  have sorted : q'.form.Sorted :=
    ⟨fun p hp => hf.epsilon p (epsilon.mem_iff.mp hp), fun p hp => hf.unary p (unary.mem_iff.mp hp),
      fun p hp => hf.binary p (binary.mem_iff.mp hp)⟩
  have productions : ∀ p, p ∈ q'.form.productions ↔ p ∈ q.form.productions := by
    intro p
    rw [mem_productions, mem_productions, epsilon.mem_iff, unary.mem_iff, binary.mem_iff]
  have joined : ∀ A i j, q'.Joined A i j ↔ q.Joined A i j := by
    intro A i j
    unfold Joined
    rw [matrices]
    constructor
    · rintro ⟨w, walk, hA⟩
      exact ⟨w, walk, hA.mono (List.map_subset _ (fun p hp => (productions p).mp hp))⟩
    · rintro ⟨w, walk, hA⟩
      exact ⟨w, walk, hA.mono (List.map_subset _ (fun p hp => (productions p).mpr hp))⟩
  obtain ⟨t₁, run, uniform, dimension_eq, names, reaches⟩ := exists_closure hq hf
  obtain rfl := Option.some.inj (ht.symm.trans run)
  obtain ⟨t', run', uniform', dimension_eq', names', reaches'⟩ :=
    exists_closure (matrices ▸ hq) sorted
  refine ⟨t', run', fun A => ?_⟩
  apply uniform'.matrix?_eq uniform
  · rw [dimension_eq, dimension_eq', matrices]
  · intro B
    simp only [names, names', mem_variables, productions]
  · intro i j
    rw [reaches, reaches', joined]

/-- The closure is the least solution for its inputs, in whatever order the productions stand. -/
theorem closure_eq_least_solution (g : Grammar) (f : WeakNormalForm)
    (hf : WeakNormalForm.ofGrammar g = .ok f) (n : Nat) (edits : List LabelMatrices.Edit)
    (vertices : List V) :
    let d := LabelMatrices.ofEdits n edits
    ∃ t, (Query.mk f d vertices).closure? = some t ∧
      (∀ A ∈ f.variables, ∃ m, t.matrix? A = some m ∧ m.size = (d.dimension, d.dimension) ∧
        ∀ i j, m.get i j = true ↔ ∃ w, d.Walk i w j ∧ f.toGrammar.Generates A w) ∧
      ∀ f' : WeakNormalForm, f'.epsilon.Perm f.epsilon → f'.unary.Perm f.unary →
        f'.binary.Perm f.binary →
        ∃ t', (Query.mk f' d vertices).closure? = some t' ∧ ∀ A, t'.matrix? A = t.matrix? A := by
  intro d
  have uniform : d.Uniform := LabelMatrices.uniform_ofEdits n edits
  obtain ⟨f₀, hf₀, form⟩ := exists_ofGrammar g
  obtain rfl := Except.ok.inj (hf₀.symm.trans hf)
  have sorted := form.sorted
  obtain ⟨t, run, ht, dimension_eq, names, reaches⟩ :=
    exists_closure (q := ⟨f₀, d, vertices⟩) uniform sorted
  refine ⟨t, run, fun A hA => ?_, fun f' epsilon unary binary => ?_⟩
  · obtain ⟨m, hm⟩ := ReachTable.exists_matrix?.mp ((names A).mpr hA)
    refine ⟨m, hm, by rw [ht.size_eq A m hm, dimension_eq], fun i j => ?_⟩
    rw [← ReachTable.reaches_iff hm, reaches]
    rfl
  · exact closure_of_perm (q := ⟨f₀, d, vertices⟩) uniform sorted rfl epsilon unary binary run

def nested : Grammar where
  start := "S"
  rules := [⟨"S", []⟩, ⟨"S", [.terminal "a", .nonterminal "S", .terminal "b"]⟩]

def nestedForm : WeakNormalForm where
  grammar := nested
  epsilon := [⟨"S", .epsilon⟩]
  unary := [⟨"T_a", .terminal "a"⟩, ⟨"T_b", .terminal "b"⟩, ⟨"g0", .terminal "a"⟩]
  binary := [⟨"S", .binary "g0" "T_b"⟩, ⟨"g0", .binary "T_a" "S"⟩]

theorem nested_closure_eq_least_solution :
    WeakNormalForm.ofGrammar nested = .ok nestedForm ∧
      let d := LabelMatrices.ofEdits 0 [.addEdge 0 1 "a", .grow 3, .addEdge 1 0 "a"]
      ∃ t, (Query.mk nestedForm d ["u", "v", "x"]).closure? = some t ∧
        (∀ A ∈ nestedForm.variables, ∃ m, t.matrix? A = some m ∧
          m.size = (d.dimension, d.dimension) ∧
          ∀ i j, m.get i j = true ↔ ∃ w, d.Walk i w j ∧ nestedForm.toGrammar.Generates A w) ∧
        ∀ f' : WeakNormalForm, f'.epsilon.Perm nestedForm.epsilon →
          f'.unary.Perm nestedForm.unary → f'.binary.Perm nestedForm.binary →
          ∃ t', (Query.mk f' d ["u", "v", "x"]).closure? = some t' ∧
            ∀ A, t'.matrix? A = t.matrix? A := by
  have form : WeakNormalForm.ofGrammar nested = .ok nestedForm := by decide +kernel
  exact ⟨form, closure_eq_least_solution nested nestedForm form 0 _ _⟩

end Query

end ContextFreePaths
