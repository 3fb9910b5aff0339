import ContextFreePaths.Grammar.NormalForm
import ContextFreePaths.Proofs.ClosedSet
import ContextFreePaths.Proofs.NameRelation

namespace ContextFreePaths.Grammar

open Interpretation Relation

variable {g : Grammar} {names : List Name} {r : Rule} {A : Name} {w : Word}

theorem mem_within : r ∈ (g.within names).rules ↔ r ∈ g.rules ∧ r.names ⊆ names := by
  simp only [within, filterRules, List.mem_filter, List.all_eq_true, decide_eq_true_eq, Rule.names,
    List.subset_def]

theorem mem_headedBy : r ∈ (g.headedBy names).rules ↔ r ∈ g.rules ∧ r.lhs ∈ names := by
  simp only [headedBy, filterRules, List.mem_filter, decide_eq_true_eq]

theorem generates_within_productive :
    (g.within g.productive).Generates A w ↔ g.Generates A w := by
  constructor
  · intro h
    exact h.mono (fun r hr => (mem_within.mp hr).1)
  · intro h
    let S : Interpretation := fun B u =>
      B ∈ g.productive ∧ (g.within g.productive).Generates B u
    refine (Models.generates (S := S) ?_ h).2
    intro r hr u hu
    have derives : (g.within g.productive).Derives r.rhs u :=
      spells_generates.mp (hu.imp (fun B _ v hB => hB.2))
    have productive : r.lhs ∈ g.productive := by
      refine mem_productive.mpr ⟨u, generates_of_mem hr ?_⟩
      exact derives.mono (fun r' hr' => (mem_within.mp hr').1)
    refine ⟨productive, generates_of_mem (mem_within.mpr ⟨hr, ?_⟩) derives⟩
    intro B hB
    rcases Rule.mem_names.mp hB with rfl | hB
    · exact productive
    · obtain ⟨_, hv⟩ := exists_spells_iff.mp ⟨u, hu⟩ B hB
      exact hv.1

theorem generates_reachableOnly (hA : A ∈ g.reachable) :
    g.reachableOnly.Generates A w ↔ g.Generates A w := by
  constructor
  · intro h
    exact h.mono (fun r hr => (mem_headedBy.mp hr).1)
  · intro h
    let S : Interpretation := fun B u => B ∈ g.reachable → g.reachableOnly.Generates B u
    refine Models.generates (S := S) ?_ h hA
    intro r hr u hu hreach
    refine generates_of_mem (mem_headedBy.mpr ⟨hr, hreach⟩) (spells_generates.mp ?_)
    apply hu.imp
    intro B hB v hv
    exact hv (mem_reachable.mpr ((mem_reachable.mp hreach).tail ⟨r, hr, rfl, hB⟩))

@[simp] theorem start_useful : g.useful.start = g.start := by
  unfold useful
  split <;> rfl

theorem useful_rules_subset : g.useful.rules ⊆ g.rules := by
  intro r hr
  unfold useful at hr
  split at hr
  · exact (mem_within.mp (mem_headedBy.mp hr).1).1
  · simp at hr

theorem nonterminals_useful_subset : g.useful.nonterminals ⊆ g.nonterminals :=
  nonterminals_subset start_useful useful_rules_subset

theorem generates_useful (hA : A ∈ g.useful.nonterminals) :
    g.useful.Generates A w ↔ g.Generates A w := by
  rw [mem_nonterminals, start_useful] at hA
  unfold useful at hA ⊢
  split
  · next hstart =>
    simp only [hstart, ↓reduceIte] at hA
    have reachable : A ∈ (g.within g.productive).reachable := by
      rcases hA with rfl | ⟨r, hr, hA⟩
      · exact mem_reachable.mpr .refl
      · obtain ⟨mem, hlhs⟩ := mem_headedBy.mp hr
        rcases Rule.mem_names.mp hA with rfl | hA
        · exact hlhs
        · exact mem_reachable.mpr ((mem_reachable.mp hlhs).tail ⟨r, mem, rfl, hA⟩)
    rw [generates_reachableOnly reachable, generates_within_productive]
  · next hstart =>
    simp only [hstart, ↓reduceIte, List.not_mem_nil, false_and, exists_false, or_false] at hA
    subst hA
    constructor
    · intro h
      obtain ⟨r, hr, _⟩ := generates_iff.mp h
      simp at hr
    · intro h
      exact absurd (mem_productive.mpr ⟨w, h⟩) hstart

theorem mem_useful : r ∈ g.useful.rules ↔ g.start ∈ g.productive ∧ r ∈ g.rules ∧
    r.names ⊆ g.productive ∧ r.lhs ∈ (g.within g.productive).reachable := by
  unfold useful
  split
  · next h =>
    rw [reachableOnly, mem_headedBy, mem_within, and_assoc]
    exact (and_iff_right h).symm
  · next h => simp [h]

end ContextFreePaths.Grammar
