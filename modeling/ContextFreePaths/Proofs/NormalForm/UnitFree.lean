import ContextFreePaths.Grammar.NormalForm
import ContextFreePaths.Proofs.NameRelation

namespace ContextFreePaths.Grammar

open Interpretation Relation

variable {g : Grammar} {S : Interpretation} {r : Rule} {A B : Name} {w : Word}

def UnitStep (g : Grammar) (A B : Name) : Prop :=
  ⟨A, [.nonterminal B]⟩ ∈ g.rules

theorem isUnit_iff : r.isUnit = true ↔ ∃ B, r.rhs = [.nonterminal B] := by
  unfold Rule.isUnit
  split
  · next s h =>
    cases s <;> simp [h, Symbol.isNonterminal]
  · next h =>
    simp only [Bool.false_eq_true, false_iff, not_exists]
    intro B hB
    exact h _ hB

theorem mem_unitPairs : (A, B) ∈ g.unitPairs ↔ g.UnitStep A B := by
  simp only [unitPairs, mem_derivationPairs, LeadsTo, filterRules, List.mem_filter, isUnit_iff]
  constructor
  · rintro ⟨⟨lhs, rhs⟩, ⟨hr, C, rfl⟩, rfl, hB⟩
    obtain rfl : B = C := by simpa using hB
    exact hr
  · intro h
    exact ⟨_, ⟨h, B, rfl⟩, rfl, List.mem_singleton.mpr rfl⟩

theorem unitPairs_subset : g.unitPairs ⊆ g.derivationPairs := by
  rintro ⟨A, B⟩ h
  exact mem_derivationPairs.mpr ⟨_, mem_unitPairs.mp h, rfl, List.mem_singleton.mpr rfl⟩

theorem mem_takenOver {i : Fin (NameIndex.ofGrammar g).size} :
    r ∈ takenOver (OccurrenceIndex.ofRules g.rules) A
        ((NameIndex.ofGrammar g).targets (g.unitMatrix (NameIndex.ofGrammar g)) size_unitMatrix i) ↔
      r.lhs = A ∧ ∃ B, ReflTransGen g.UnitStep ((NameIndex.ofGrammar g).name i) B ∧
        ⟨B, r.rhs⟩ ∈ g.rules ∧ r.isUnit = false := by
  have hj : (NameIndex.ofGrammar g).Joins g.unitPairs = g.UnitStep := by
    funext B C
    rw [joins_ofGrammar unitPairs_subset, mem_unitPairs]
  simp only [takenOver, unitMatrix, OccurrenceIndex.headed_ofRules, List.mem_map, List.mem_filter,
    List.mem_flatMap, NameIndex.mem_targets nodup_names_ofGrammar, hj, mem_names_ofGrammar,
    decide_eq_true_eq, Bool.not_eq_true']
  constructor
  · rintro ⟨r', ⟨⟨_, ⟨_, chain⟩, mem, rfl⟩, proper⟩, rfl⟩
    exact ⟨rfl, r'.lhs, chain, mem, proper⟩
  · rintro ⟨rfl, B, chain, mem, proper⟩
    have hB : B ∈ g.nonterminals := names_subset_nonterminals mem (Rule.mem_names.mpr (.inl rfl))
    exact ⟨⟨B, r.rhs⟩, ⟨⟨B, ⟨hB, chain⟩, mem, rfl⟩, proper⟩, rfl⟩

theorem exists_rule_of_unitChain {rhs : List Symbol} (chain : ReflTransGen g.UnitStep A B)
    (mem : ⟨B, rhs⟩ ∈ g.rules) : ∃ r ∈ g.rules, r.lhs = A := by
  rcases chain.cases_head with rfl | ⟨C, step, _⟩
  · exact ⟨_, mem, rfl⟩
  · exact ⟨_, step, rfl⟩

theorem unitFree_of_proper (h : ∀ r ∈ g.rules, r.isUnit = false) : g.unitFree = g := by
  have none : g.rules.any Rule.isUnit = false := by simpa using h
  rw [unitFree, none]
  rfl

theorem mem_unitFree : r ∈ g.unitFree.rules ↔
    ∃ B, ReflTransGen g.UnitStep r.lhs B ∧ ⟨B, r.rhs⟩ ∈ g.rules ∧ r.isUnit = false := by
  by_cases h : ∀ r ∈ g.rules, r.isUnit = false
  · rw [unitFree_of_proper h]
    constructor
    · intro hr
      exact ⟨r.lhs, .refl, hr, h r hr⟩
    · rintro ⟨B, chain, mem, _⟩
      rcases chain.cases_head with rfl | ⟨C, step, _⟩
      · exact mem
      · exact absurd (isUnit_iff.mpr ⟨C, rfl⟩) (by simpa using h _ step)
  · have some : g.rules.any Rule.isUnit = true := by simpa using h
    simp only [unitFree, some, ↓reduceIte, SortedList.mem_ofList, List.mem_flatMap,
      List.mem_finRange, true_and, mem_takenOver]
    constructor
    · rintro ⟨i, lhs, hB⟩
      rwa [lhs]
    · rintro ⟨B, chain, hB⟩
      obtain ⟨r', hr', hlhs⟩ := exists_rule_of_unitChain chain hB.1
      have hA : r.lhs ∈ g.nonterminals :=
        names_subset_nonterminals hr' (Rule.mem_names.mpr (.inl hlhs.symm))
      obtain ⟨i, hi⟩ := NameIndex.exists_name (mem_names_ofGrammar.mpr hA)
      rw [← hi] at chain
      exact ⟨i, hi.symm, B, chain, hB⟩

theorem of_unitChain (hS : S.Models g.rules) (chain : ReflTransGen g.UnitStep A B) (h : S B w) :
    S A w := by
  induction chain using ReflTransGen.head_induction_on with
  | refl => exact h
  | head step _ ih => exact hS _ step w (spells_nonterminal.mpr ih)

theorem models_unitFree (hS : S.Models g.rules) : S.Models g.unitFree.rules := by
  intro r hr w hw
  obtain ⟨B, chain, mem, _⟩ := mem_unitFree.mp hr
  exact of_unitChain hS chain (hS _ mem w hw)

theorem isUnit_of_mem_unitFree (hr : r ∈ g.unitFree.rules) : r.isUnit = false := by
  obtain ⟨_, _, _, proper⟩ := mem_unitFree.mp hr
  exact proper

theorem rhs_of_mem_unitFree (hr : r ∈ g.unitFree.rules) : ∃ r' ∈ g.rules, r'.rhs = r.rhs := by
  obtain ⟨_, _, mem, _⟩ := mem_unitFree.mp hr
  exact ⟨_, mem, rfl⟩

theorem models_generates_unitFree (g : Grammar) : Models g.unitFree.Generates g.rules := by
  intro r hr w hw
  cases hunit : r.isUnit with
  | false =>
    have mem : r ∈ g.unitFree.rules := mem_unitFree.mpr ⟨r.lhs, .refl, hr, hunit⟩
    exact generates_of_mem mem (spells_generates.mp hw)
  | true =>
    obtain ⟨B, hB⟩ := isUnit_iff.mp hunit
    rw [hB, spells_nonterminal] at hw
    obtain ⟨r', hr', rfl, hbody⟩ := generates_iff.mp hw
    obtain ⟨C, chain, hrhs⟩ := mem_unitFree.mp hr'
    have step : g.UnitStep r.lhs r'.lhs := by
      unfold UnitStep
      rw [← hB]
      exact hr
    have mem : ⟨r.lhs, r'.rhs⟩ ∈ g.unitFree.rules :=
      mem_unitFree.mpr ⟨C, chain.head step, hrhs⟩
    exact generates_of_mem (r := ⟨r.lhs, r'.rhs⟩) mem hbody

theorem generates_unitFree : g.unitFree.Generates A w ↔ g.Generates A w := by
  constructor
  · exact (models_unitFree g.models_generates).generates
  · exact g.models_generates_unitFree.generates

@[simp] theorem start_unitFree : g.unitFree.start = g.start := by
  unfold unitFree
  split <;> rfl

theorem lhs_of_mem_unitFree (hr : r ∈ g.unitFree.rules) : ∃ r' ∈ g.rules, r'.lhs = r.lhs := by
  obtain ⟨_, chain, mem, _⟩ := mem_unitFree.mp hr
  exact exists_rule_of_unitChain chain mem

theorem nonterminals_unitFree_subset : g.unitFree.nonterminals ⊆ g.nonterminals := by
  intro A hA
  rw [mem_nonterminals, start_unitFree] at hA
  rcases hA with rfl | ⟨r, hr, hA⟩
  · exact mem_nonterminals.mpr (.inl rfl)
  · obtain ⟨front, hfront, hlhs⟩ := lhs_of_mem_unitFree hr
    obtain ⟨back, hback, hrhs⟩ := rhs_of_mem_unitFree hr
    rcases Rule.mem_names.mp hA with rfl | hA
    · exact names_subset_nonterminals hfront (Rule.mem_names.mpr (.inl hlhs.symm))
    · exact names_subset_nonterminals hback (Rule.mem_names.mpr (.inr (hrhs ▸ hA)))

theorem unitFree_exact (g : Grammar) :
    g.unitFree.start = g.start ∧
    (∀ r ∈ g.unitFree.rules, ∀ B, r.rhs ≠ [.nonterminal B]) ∧
    ∀ A w, g.unitFree.Generates A w ↔ g.Generates A w := by
  refine ⟨start_unitFree, fun r hr B hB => ?_, fun _ _ => generates_unitFree⟩
  have unit : r.isUnit = true := isUnit_iff.mpr ⟨B, hB⟩
  rw [isUnit_of_mem_unitFree hr] at unit
  contradiction

end ContextFreePaths.Grammar
