import ContextFreePaths.WeakNormalForm
import ContextFreePaths.Proofs.NormalForm.Language

namespace ContextFreePaths

open Interpretation

namespace Production

variable {r : Rule} {rules : List Rule}

@[simp] theorem lhs_toRule (p : Production) : p.toRule.lhs = p.head :=
  rfl

@[simp] theorem rhs_toRule (p : Production) : p.toRule.rhs = p.body.symbols :=
  rfl

theorem exists_ofRule (h : r.isWeakNormal = true) : ∃ p, ofRule r = .ok p ∧ p.toRule = r := by
  obtain ⟨lhs, rhs⟩ := r
  match rhs with
  | [] => exact ⟨_, rfl, rfl⟩
  | [.terminal a] => exact ⟨_, rfl, rfl⟩
  | [.nonterminal B, .nonterminal C] => exact ⟨_, rfl, rfl⟩
  | [.nonterminal _] => simp [Rule.isWeakNormal, Symbol.isTerminal] at h
  | [.terminal _, _] => simp [Rule.isWeakNormal, Symbol.isNonterminal] at h
  | [.nonterminal _, .terminal _] => simp [Rule.isWeakNormal, Symbol.isNonterminal] at h
  | _ :: _ :: _ :: _ => simp [Rule.isWeakNormal] at h

theorem length_le_of_isWeakNormal (h : r.isWeakNormal = true) : r.rhs.length ≤ 2 := by
  obtain ⟨p, _, rfl⟩ := exists_ofRule h
  rw [rhs_toRule]
  cases p.body <;> simp [Body.symbols]

theorem toRule_injective {p q : Production} (h : p.toRule = q.toRule) : p = q := by
  obtain ⟨head, body⟩ := p
  obtain ⟨head', body'⟩ := q
  simp only [toRule, Rule.mk.injEq] at h
  obtain ⟨rfl, h⟩ := h
  cases body <;> cases body' <;> simp_all [Body.symbols]

theorem exists_mapM_ofRule (rules : List Rule) (h : ∀ r ∈ rules, r.isWeakNormal = true) :
    ∃ ps, rules.mapM ofRule = .ok ps ∧ ps.map toRule = rules := by
  induction rules with
  | nil => exact ⟨[], rfl, rfl⟩
  | cons r rules ih =>
    rw [List.forall_mem_cons] at h
    obtain ⟨q, hq, rfl⟩ := exists_ofRule h.1
    obtain ⟨ps, hps, same⟩ := ih h.2
    exact ⟨q :: ps, by rw [List.mapM_cons, hq, hps]; rfl, by rw [List.map_cons, same]⟩

theorem mem_iff_toRule_mem {p : Production} {ps : List Production} (h : ps.map toRule = rules) :
    p ∈ ps ↔ p.toRule ∈ rules := by
  rw [← h, List.mem_map]
  constructor
  · intro hp
    exact ⟨p, hp, rfl⟩
  · rintro ⟨q, hq, same⟩
    exact toRule_injective same ▸ hq

theorem map_filter_toRule {ps : List Production} (h : ps.map toRule = rules) (q : Rule → Bool) :
    (ps.filter (fun p => q p.toRule)).map toRule = rules.filter q := by
  rw [← h, List.filter_map]
  rfl

theorem mem_names {p : Production} {A : Name} :
    A ∈ p.names ↔ A = p.head ∨ .nonterminal A ∈ p.body.symbols :=
  Rule.mem_names (r := p.toRule)

theorem mem_labels {p : Production} {a : Label} :
    a ∈ p.labels ↔ .terminal a ∈ p.body.symbols :=
  Rule.mem_rhsLabels (r := p.toRule)

end Production

def Grammar.rulesOfLength (g : Grammar) (n : Nat) : List Rule :=
  g.rules.filter (fun r => r.rhs.length = n)

theorem Grammar.mem_rulesOfLength {g : Grammar} {n : Nat} {r : Rule} :
    r ∈ g.rulesOfLength n ↔ r ∈ g.rules ∧ r.rhs.length = n := by
  rw [rulesOfLength, List.mem_filter, decide_eq_true_eq]

namespace WeakNormalForm

variable {f : WeakNormalForm} {g : Grammar} {p : Production} {ps : List Production} {r : Rule}
  {A : Name} {w : Word}

theorem mem_arrange : p ∈ arrange ps ↔ p ∈ ps := by
  simp only [arrange, SortedList.mem_eraseReps, List.mem_map, (SortedList.sortBy_perm _ _).mem_iff]
  constructor
  · rintro ⟨_, ⟨q, hq, rfl⟩, rfl⟩
    exact hq
  · intro h
    exact ⟨_, ⟨p, h, rfl⟩, rfl⟩

theorem isWeakNormal_of_isNormal (hg : g.IsNormal) (hr : r ∈ g.rules) : r.isWeakNormal = true := by
  rcases hg r hr with ⟨a, h⟩ | ⟨B, C, h⟩ <;>
    simp [Rule.isWeakNormal, h, Symbol.isTerminal, Symbol.isNonterminal]

theorem isWeakNormal_of_mem_basis (hr : r ∈ (basis g).rules) : r.isWeakNormal = true := by
  unfold basis at hr
  split at hr
  · next h => exact List.all_eq_true.mp h r hr
  · exact isWeakNormal_of_isNormal (Grammar.isNormal_normalForm g) hr

structure IsFormOf (f : WeakNormalForm) (g : Grammar) : Prop where
  grammar_eq : f.grammar = g
  mem_epsilon : ∀ p, p ∈ f.epsilon ↔ p.body = .epsilon ∧ p.toRule ∈ g.rules
  mem_unary : ∀ p, p ∈ f.unary ↔ (∃ a, p.body = .terminal a) ∧ p.toRule ∈ (basis g).rules
  mem_binary : ∀ p, p ∈ f.binary ↔ (∃ B C, p.body = .binary B C) ∧ p.toRule ∈ (basis g).rules

structure Sorted (f : WeakNormalForm) : Prop where
  epsilon : ∀ p ∈ f.epsilon, p.body = .epsilon
  unary : ∀ p ∈ f.unary, ∃ a, p.body = .terminal a
  binary : ∀ p ∈ f.binary, ∃ B C, p.body = .binary B C

theorem IsFormOf.sorted (hf : f.IsFormOf g) : f.Sorted where
  epsilon p hp := ((hf.mem_epsilon p).mp hp).1
  unary p hp := ((hf.mem_unary p).mp hp).1
  binary p hp := ((hf.mem_binary p).mp hp).1

theorem mem_productions :
    p ∈ f.productions ↔ p ∈ f.epsilon ∨ p ∈ f.unary ∨ p ∈ f.binary := by
  simp only [productions, List.mem_append, or_assoc]

theorem mem_variables : A ∈ f.variables ↔ ∃ p ∈ f.productions, A ∈ p.names := by
  simp only [WeakNormalForm.variables, SortedList.mem_ofList, List.mem_flatMap]

theorem mem_terminals {a : Label} :
    a ∈ f.terminals ↔ ∃ p ∈ f.productions, a ∈ p.labels := by
  simp only [WeakNormalForm.terminals, SortedList.mem_ofList, List.mem_flatMap]

theorem symbols_eq_nil {body : Body} : body.symbols = [] ↔ body = .epsilon := by
  cases body <;> simp [Body.symbols]

theorem exists_lists (g : Grammar) : ∃ es us bs,
    ofGrammar g = .ok ⟨g, arrange es, arrange us, arrange bs⟩ ∧
      es.map Production.toRule = g.rulesOfLength 0 ∧
      us.map Production.toRule = (basis g).rulesOfLength 1 ∧
      bs.map Production.toRule = (basis g).rulesOfLength 2 := by
  obtain ⟨es, hes, empty⟩ := Production.exists_mapM_ofRule
    (g.rules.filter (fun r => r.rhs.isEmpty)) (fun r hr => by
      have empty := List.isEmpty_iff.mp (List.mem_filter.mp hr).2
      simp [Rule.isWeakNormal, empty])
  obtain ⟨os, hos, others⟩ := Production.exists_mapM_ofRule
    ((basis g).rules.filter (fun r => !r.rhs.isEmpty))
    (fun r hr => isWeakNormal_of_mem_basis (List.mem_filter.mp hr).1)
  have terminal : ∀ p : Production, p.body.isTerminal = decide (p.toRule.rhs.length = 1) := by
    intro p
    rw [Production.rhs_toRule]
    cases p.body <;> simp [Body.symbols, Body.isTerminal]
  refine ⟨es, os.filter (fun p => p.body.isTerminal), os.filter (fun p => !p.body.isTerminal),
    ?_, ?_, ?_, ?_⟩
  · simp only [ofGrammar, hes, hos]
    rfl
  · rw [empty]
    refine List.filter_congr (fun r _ => ?_)
    cases r.rhs <;> rfl
  · simp only [terminal]
    rw [Production.map_filter_toRule others (fun r => r.rhs.length = 1), List.filter_filter]
    refine List.filter_congr (fun r _ => ?_)
    cases r.rhs <;> simp
  · simp only [terminal]
    rw [Production.map_filter_toRule others (fun r => !decide (r.rhs.length = 1)),
      List.filter_filter]
    refine List.filter_congr (fun r hr => ?_)
    have short := Production.length_le_of_isWeakNormal (isWeakNormal_of_mem_basis hr)
    rw [Bool.eq_iff_iff]
    simp only [Bool.and_eq_true, Bool.not_eq_true', decide_eq_false_iff_not, decide_eq_true_eq,
      List.isEmpty_eq_false_iff, ← List.length_pos_iff]
    omega

theorem exists_ofGrammar (g : Grammar) : ∃ f, ofGrammar g = .ok f ∧ f.IsFormOf g := by
  obtain ⟨es, us, bs, run, hes, hus, hbs⟩ := exists_lists g
  refine ⟨_, run, rfl, ?_, ?_, ?_⟩
  · intro p
    rw [mem_arrange, Production.mem_iff_toRule_mem hes, Grammar.mem_rulesOfLength,
      Production.rhs_toRule]
    cases p.body <;> simp [Body.symbols]
  · intro p
    rw [mem_arrange, Production.mem_iff_toRule_mem hus, Grammar.mem_rulesOfLength,
      Production.rhs_toRule]
    cases p.body <;> simp [Body.symbols]
  · intro p
    rw [mem_arrange, Production.mem_iff_toRule_mem hbs, Grammar.mem_rulesOfLength,
      Production.rhs_toRule]
    cases p.body <;> simp [Body.symbols]

theorem exists_epsilon_iff (hf : f.IsFormOf g) :
    (∃ p ∈ f.epsilon, p.toRule = r) ↔ r ∈ g.rules ∧ r.rhs = [] := by
  constructor
  · rintro ⟨p, hp, rfl⟩
    obtain ⟨body, hr⟩ := (hf.mem_epsilon p).mp hp
    exact ⟨hr, symbols_eq_nil.mpr body⟩
  · rintro ⟨hr, hrhs⟩
    obtain ⟨p, _, rfl⟩ := Production.exists_ofRule (r := r) (by simp [Rule.isWeakNormal, hrhs])
    exact ⟨p, (hf.mem_epsilon p).mpr ⟨symbols_eq_nil.mp hrhs, hr⟩, rfl⟩

theorem exists_unary_or_binary_iff (hf : f.IsFormOf g) :
    (∃ p ∈ f.unary ++ f.binary, p.toRule = r) ↔ r ∈ (basis g).rules ∧ r.rhs ≠ [] := by
  simp only [List.mem_append, hf.mem_unary, hf.mem_binary]
  constructor
  · rintro ⟨p, ⟨⟨a, body⟩, hr⟩ | ⟨⟨B, C, body⟩, hr⟩, rfl⟩
    · exact ⟨hr, by simp [body, Body.symbols]⟩
    · exact ⟨hr, by simp [body, Body.symbols]⟩
  · rintro ⟨hr, hrhs⟩
    obtain ⟨p, _, rfl⟩ := Production.exists_ofRule (isWeakNormal_of_mem_basis hr)
    cases body : p.body with
    | epsilon => exact absurd (symbols_eq_nil.mpr body) hrhs
    | terminal a => exact ⟨p, .inl ⟨⟨a, body⟩, hr⟩, rfl⟩
    | binary B C => exact ⟨p, .inr ⟨⟨B, C, body⟩, hr⟩, rfl⟩

def toGrammar (f : WeakNormalForm) : Grammar :=
  { start := f.start, rules := f.productions.map Production.toRule }

theorem toRule_mem (hp : p ∈ f.productions) : p.toRule ∈ f.toGrammar.rules :=
  List.mem_map_of_mem hp

theorem mem_toGrammar (hf : f.IsFormOf g) : r ∈ f.toGrammar.rules ↔
    r.rhs = [] ∧ r ∈ g.rules ∨ r.rhs ≠ [] ∧ r ∈ (basis g).rules := by
  have parts : r ∈ f.toGrammar.rules ↔
      (∃ p ∈ f.epsilon, p.toRule = r) ∨ ∃ p ∈ f.unary ++ f.binary, p.toRule = r := by
    simp only [toGrammar, productions, List.mem_map, List.append_assoc,
      List.mem_append (s := f.epsilon), or_and_right, exists_or]
  rw [parts, exists_epsilon_iff hf, exists_unary_or_binary_iff hf, and_comm,
    and_comm (b := r.rhs ≠ [])]

theorem start_eq (hf : f.IsFormOf g) : f.start = g.start := by
  rw [start, hf.grammar_eq]

theorem toGrammar_of_isWeakNormal (hf : f.IsFormOf g) (hg : g.isWeakNormal = true) :
    r ∈ f.toGrammar.rules ↔ r ∈ g.rules := by
  rw [mem_toGrammar hf, basis, if_pos hg, ← or_and_right]
  exact and_iff_right (Classical.em _)

theorem generates_of_toGrammar (hf : f.IsFormOf g) (hA : A ∈ g.nonterminals)
    (h : f.toGrammar.Generates A w) : g.Generates A w := by
  by_cases hg : g.isWeakNormal = true
  · exact h.mono (fun r hr => (toGrammar_of_isWeakNormal hf hg).mp hr)
  · -- Empty rules as they were written stand beside rules of the normal form. The languages of
    -- the grammar, extended to the new names, model both.
    obtain ⟨T, hT, models⟩ := Grammar.exists_model_normalForm g.models_generates
    have original : T.Models g.rules :=
      g.models_generates.of_agreesOn hT (fun r hr => Grammar.names_subset_nonterminals hr)
    have both : T.Models f.toGrammar.rules := by
      intro r hr
      rcases (mem_toGrammar hf).mp hr with ⟨_, hr⟩ | ⟨_, hr⟩
      · exact original r hr
      · rw [basis, if_neg hg] at hr
        exact models r hr
    rw [hT A hA]
    exact both.generates h

theorem toGrammar_generates (hf : f.IsFormOf g) (hA : A ∈ g.nonterminals)
    (kept : A ∈ (basis g).nonterminals) (hw : w ≠ []) (h : g.Generates A w) :
    f.toGrammar.Generates A w := by
  by_cases hg : g.isWeakNormal = true
  · exact h.mono (fun r hr => (toGrammar_of_isWeakNormal hf hg).mpr hr)
  · have normal_eq : basis g = g.normalForm := if_neg hg
    rw [normal_eq] at kept
    refine ((Grammar.generates_normalForm hA kept).mpr ⟨h, hw⟩).mono (fun r hr => ?_)
    rw [mem_toGrammar hf, normal_eq]
    exact .inr ⟨(Grammar.isNormal_normalForm g).rhs_ne_nil r hr, hr⟩

@[simp] theorem start_basis : (basis g).start = g.start := by
  unfold basis
  split
  · rfl
  · exact Grammar.start_normalForm

theorem toGrammar_generates_start (hf : f.IsFormOf g) (hw : w ≠ [])
    (h : g.Generates g.start w) : f.toGrammar.Generates g.start w := by
  refine toGrammar_generates hf g.start_mem_nonterminals ?_ hw h
  rw [← start_basis]
  exact Grammar.start_mem_nonterminals _

theorem eq_nil_of_toGrammar_generates (hf : f.IsFormOf g) (dropped : A ∉ (basis g).nonterminals)
    (h : f.toGrammar.Generates A w) : w = [] := by
  obtain ⟨r, hr, rfl, hbody⟩ := Grammar.generates_iff.mp h
  rcases (mem_toGrammar hf).mp hr with ⟨hrhs, _⟩ | ⟨_, hr⟩
  · rwa [hrhs, Grammar.derives_nil] at hbody
  · exact absurd (Grammar.names_subset_nonterminals hr (Rule.mem_names.mpr (.inl rfl))) dropped

theorem exists_epsilon_of_mem_variables (hf : f.IsFormOf g) (dropped : A ∉ (basis g).nonterminals)
    (hA : A ∈ f.variables) : ∃ p ∈ f.epsilon, p.head = A := by
  obtain ⟨p, hp, hA⟩ := mem_variables.mp hA
  have hA : A ∈ p.toRule.names := hA
  rcases (mem_toGrammar hf).mp (toRule_mem hp) with ⟨hrhs, hr⟩ | ⟨_, hr⟩
  · refine ⟨p, (hf.mem_epsilon p).mpr ⟨symbols_eq_nil.mp hrhs, hr⟩, ?_⟩
    rw [Rule.mem_names, hrhs] at hA
    simpa [eq_comm] using hA
  · exact absurd (Grammar.names_subset_nonterminals hr hA) dropped

end WeakNormalForm

end ContextFreePaths
