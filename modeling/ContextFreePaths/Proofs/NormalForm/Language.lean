import ContextFreePaths.Grammar.NormalForm
import ContextFreePaths.Proofs.NormalForm.Binary
import ContextFreePaths.Proofs.NormalForm.EpsilonFree
import ContextFreePaths.Proofs.NormalForm.Separated
import ContextFreePaths.Proofs.NormalForm.UnitFree
import ContextFreePaths.Proofs.NormalForm.Useful

namespace ContextFreePaths.Grammar

open Interpretation

variable {g : Grammar} {S : Interpretation} {r : Rule} {A : Name} {w : Word}

def short (g : Grammar) : Grammar × NameSupply :=
  g.useful.binary g.nameSupply

def compact (g : Grammar) : Grammar :=
  g.short.1.epsilonFree.unitFree.useful

theorem start_sortRules : g.sortRules.start = g.start :=
  rfl

theorem start_dedupRules : g.dedupRules.start = g.start :=
  rfl

theorem normalForm_eq :
    g.normalForm = (g.compact.separated g.short.2).1.sortRules.dedupRules :=
  rfl

theorem mem_normalForm : r ∈ g.normalForm.rules ↔ r ∈ (g.compact.separated g.short.2).1.rules := by
  rw [normalForm_eq]
  simp only [dedupRules, sortRules, SortedList.mem_eraseReps, SortedList.sort,
    (SortedList.sortBy_perm _ _).mem_iff]

theorem start_compact : g.compact.start = g.start := by
  rw [compact, start_useful, start_unitFree, start_epsilonFree, short, start_binary, start_useful]

@[simp] theorem start_normalForm : g.normalForm.start = g.start := by
  rw [normalForm_eq, start_dedupRules, start_sortRules, start_separated, start_compact]

theorem mem_taken_nameSupply : A ∈ g.nameSupply.taken ↔ A ∈ g.nonterminals :=
  NameSupply.mem_taken_ofTaken

theorem useful_subset_taken : g.useful.nonterminals ⊆ g.nameSupply.taken :=
  fun _ hA => mem_taken_nameSupply.mpr (nonterminals_useful_subset hA)

theorem nonterminals_subset_short_taken : g.nonterminals ⊆ g.short.2.taken :=
  fun _ hA => taken_subset_binary useful_subset_taken (mem_taken_nameSupply.mpr hA)

theorem nonterminals_compact_subset : g.compact.nonterminals ⊆ g.short.1.nonterminals :=
  List.Subset.trans nonterminals_useful_subset
    (List.Subset.trans nonterminals_unitFree_subset nonterminals_epsilonFree_subset)

theorem compact_subset_taken : g.compact.nonterminals ⊆ g.short.2.taken :=
  List.Subset.trans nonterminals_compact_subset (nonterminals_binary_subset useful_subset_taken)

theorem exists_model_normalForm (hS : S.Models g.rules) :
    ∃ T : Interpretation, S.AgreesOn T g.nonterminals ∧ T.Models g.normalForm.rules := by
  obtain ⟨T, hT, short⟩ := exists_model_binary useful_subset_taken (hS.mono useful_rules_subset)
  have compact : T.Models g.compact.rules :=
    (models_unitFree (models_epsilonFree short)).mono useful_rules_subset
  obtain ⟨U, hU, models, _⟩ := exists_model_separated compact_subset_taken compact
  refine ⟨U, ?_, fun r hr => models r (mem_normalForm.mp hr)⟩
  have hST : S.AgreesOn T g.nonterminals := hT.mono (fun _ hA => mem_taken_nameSupply.mpr hA)
  exact hST.trans (hU.mono nonterminals_subset_short_taken)

theorem mem_compact_of_normalForm (hA : A ∈ g.nonterminals) (h : A ∈ g.normalForm.nonterminals) :
    A ∈ g.compact.nonterminals := by
  apply mem_nonterminals_of_separated (nonterminals_subset_short_taken hA)
  rw [mem_nonterminals, start_normalForm] at h
  rw [mem_nonterminals, start_separated, start_compact]
  exact h.imp_right (fun ⟨r, hr, hA⟩ => ⟨r, mem_normalForm.mp hr, hA⟩)

theorem mem_useful_of_normalForm (hA : A ∈ g.nonterminals) (h : A ∈ g.normalForm.nonterminals) :
    A ∈ g.useful.nonterminals :=
  mem_nonterminals_of_binary useful_subset_taken (mem_taken_nameSupply.mpr hA)
    (nonterminals_compact_subset (mem_compact_of_normalForm hA h))

theorem generates_normalForm (hA : A ∈ g.nonterminals) (h : A ∈ g.normalForm.nonterminals) :
    g.normalForm.Generates A w ↔ g.Generates A w ∧ w ≠ [] := by
  have sorted : g.normalForm.Generates A w ↔ (g.compact.separated g.short.2).1.Generates A w :=
    ⟨fun hw => hw.mono (fun _ hr => mem_normalForm.mp hr),
      fun hw => hw.mono (fun _ hr => mem_normalForm.mpr hr)⟩
  have split : g.short.1.Generates A w ↔ g.useful.Generates A w :=
    generates_binary useful_subset_taken (mem_taken_nameSupply.mpr hA)
  rw [sorted, generates_separated compact_subset_taken (nonterminals_subset_short_taken hA),
    compact, generates_useful (mem_compact_of_normalForm hA h), generates_unitFree,
    generates_epsilonFree, split, generates_useful (mem_useful_of_normalForm hA h)]

theorem exists_nonterminal {x : Symbol} (h : x.isNonterminal = true) : ∃ B, x = .nonterminal B := by
  cases x with
  | terminal a => simp [Symbol.isNonterminal] at h
  | nonterminal B => exact ⟨B, rfl⟩

theorem length_of_mem_compact (hr : r ∈ g.compact.rules) :
    r.rhs ≠ [] ∧ r.rhs.length ≤ 2 ∧ r.isUnit = false := by
  have hr := useful_rules_subset hr
  obtain ⟨r', hr', hrhs⟩ := rhs_of_mem_unitFree hr
  rw [← hrhs]
  refine ⟨rhs_ne_nil_of_mem_epsilonFree hr', ?_, isUnit_of_mem_unitFree hr⟩
  obtain ⟨r'', hr'', hle⟩ := length_of_mem_epsilonFree hr'
  exact Nat.le_trans hle (chains_short hr'')

theorem one_terminal_or_two (hne : r.rhs ≠ []) (hle : r.rhs.length ≤ 2) (hunit : r.isUnit = false) :
    (∃ a, r.rhs = [.terminal a]) ∨ r.rhs.length = 2 := by
  obtain ⟨lhs, rhs⟩ := r
  match rhs with
  | [] => exact absurd rfl hne
  | [.terminal a] => exact .inl ⟨a, rfl⟩
  | [.nonterminal B] => simp [Rule.isUnit, Symbol.isNonterminal] at hunit
  | _ :: _ :: _ =>
    simp only [List.length_cons] at hle ⊢
    exact .inr (by omega)

def IsNormal (g : Grammar) : Prop :=
  ∀ r ∈ g.rules, (∃ a, r.rhs = [.terminal a]) ∨ ∃ B C, r.rhs = [.nonterminal B, .nonterminal C]

theorem isNormal_normalForm (g : Grammar) : g.normalForm.IsNormal := by
  intro r hr
  rcases rhs_of_mem_separated (mem_normalForm.mp hr) with h | ⟨r', hr', hlen, hone, htwo⟩
  · exact .inl h
  · obtain ⟨hne, hle, hunit⟩ := length_of_mem_compact hr'
    rcases one_terminal_or_two hne hle hunit with ⟨a, ha⟩ | h
    · refine .inl ⟨a, ?_⟩
      rw [hone (by rw [ha]; exact Nat.one_lt_two), ha]
    · have names := htwo (Nat.le_of_eq h.symm)
      obtain ⟨x, y, hxy⟩ := List.length_eq_two.mp (hlen.trans h)
      rw [hxy] at names ⊢
      obtain ⟨B, rfl⟩ := exists_nonterminal (names x (by simp))
      obtain ⟨C, rfl⟩ := exists_nonterminal (names y (by simp))
      exact .inr ⟨B, C, rfl⟩

theorem IsNormal.rhs_ne_nil (hg : g.IsNormal) : ∀ r ∈ g.rules, r.rhs ≠ [] := by
  intro r hr
  rcases hg r hr with ⟨a, h⟩ | ⟨B, C, h⟩ <;> simp [h]

theorem start_mem_nonterminals (g : Grammar) : g.start ∈ g.nonterminals :=
  mem_nonterminals.mpr (.inl rfl)

theorem generates_start_normalForm :
    g.normalForm.Generates g.start w ↔ g.Generates g.start w ∧ w ≠ [] := by
  apply generates_normalForm g.start_mem_nonterminals
  rw [← start_normalForm]
  exact start_mem_nonterminals _

/-- Normalization keeps the words of each nonterminal, the empty one apart, whatever names the
grammar uses. -/
theorem normalForm_keeps_words (g : Grammar) : g.normalForm.start = g.start ∧
    ∀ A ∈ g.nonterminals, (A = g.start ∨ ∃ r ∈ g.normalForm.rules, A ∈ r.names) →
      ∀ w, g.normalForm.Generates A w ↔ g.Generates A w ∧ w ≠ [] := by
  refine ⟨start_normalForm, fun A hA h w => ?_⟩
  apply generates_normalForm hA
  rwa [mem_nonterminals, start_normalForm]

def clashing : Grammar where
  start := "S"
  rules := [
    ⟨"S", [.nonterminal "g0", .terminal "a", .nonterminal "T_a", .terminal "b"]⟩,
    ⟨"g0", []⟩,
    ⟨"g0", [.terminal "b"]⟩,
    ⟨"T_a", [.terminal "b"]⟩]

theorem clashing_keeps_words :
    "g0" ∈ clashing.nonterminals ∧ (∃ r ∈ clashing.normalForm.rules, "g0" ∈ r.names) ∧
      ∀ w, clashing.normalForm.Generates "g0" w ↔ clashing.Generates "g0" w ∧ w ≠ [] := by
  have mem : "g0" ∈ clashing.nonterminals := by decide +kernel
  have rule : ⟨"g0", [.terminal "b"]⟩ ∈ clashing.normalForm.rules := by decide +kernel
  have occurs : ∃ r ∈ clashing.normalForm.rules, "g0" ∈ r.names :=
    ⟨_, rule, Rule.mem_names.mpr (.inl rfl)⟩
  exact ⟨mem, occurs, (normalForm_keeps_words clashing).2 "g0" mem (.inr occurs)⟩

end ContextFreePaths.Grammar
