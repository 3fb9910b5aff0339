import ContextFreePaths.Grammar.NormalForm
import ContextFreePaths.Proofs.ClosedSet
import ContextFreePaths.Proofs.NameRelation

namespace ContextFreePaths.Grammar

open Interpretation

variable {g : Grammar} {S T : Interpretation} {omissible : Symbol → Bool} {α β : List Symbol}
  {names : List Name} {r r' : Rule} {A : Name} {w : Word}

theorem spells_of_omissions (hβ : β ∈ omissions omissible α)
    (empty : ∀ s, omissible s = true → S.Spells [s] []) (h : S.Spells β w) : S.Spells α w := by
  induction α generalizing β w with
  | nil =>
    obtain rfl := List.mem_singleton.mp hβ
    exact h
  | cons s α ih =>
    rw [omissions, List.mem_append, List.mem_map] at hβ
    rcases hβ with ⟨γ, hγ, rfl⟩ | hβ
    · obtain ⟨u, v, rfl, hu, hv⟩ := spells_cons.mp h
      exact spells_cons.mpr ⟨u, v, rfl, hu, ih hγ hv⟩
    · split at hβ
      · next hs => exact spells_cons.mpr ⟨[], w, rfl, empty s hs, ih hβ h⟩
      · exact absurd hβ List.not_mem_nil

theorem exists_omission (h : S.Spells α w)
    (empty : ∀ A, S A [] → omissible (.nonterminal A) = true)
    (nonempty : ∀ A u, S A u → u ≠ [] → T A u) : ∃ β ∈ omissions omissible α, T.Spells β w := by
  induction α generalizing w with
  | nil => exact ⟨[], List.mem_singleton.mpr rfl, h⟩
  | cons s α ih =>
    simp only [omissions, List.mem_append, List.mem_map]
    cases s with
    | terminal a =>
      obtain ⟨v, rfl, hv⟩ := h
      obtain ⟨β, hβ, hw⟩ := ih hv
      exact ⟨.terminal a :: β, .inl ⟨β, hβ, rfl⟩, v, rfl, hw⟩
    | nonterminal A =>
      obtain ⟨u, v, rfl, hu, hv⟩ := h
      obtain ⟨β, hβ, hw⟩ := ih hv
      by_cases hne : u = []
      · subst hne
        refine ⟨β, .inr ?_, hw⟩
        rw [if_pos (empty A hu)]
        exact hβ
      · exact ⟨.nonterminal A :: β, .inl ⟨β, hβ, rfl⟩, u, v, rfl, nonempty A u hu hne, hw⟩

theorem subset_of_mem_omissions (hβ : β ∈ omissions omissible α) : β ⊆ α := by
  induction α generalizing β with
  | nil =>
    obtain rfl := List.mem_singleton.mp hβ
    exact List.Subset.refl _
  | cons s α ih =>
    rw [omissions, List.mem_append, List.mem_map] at hβ
    rcases hβ with ⟨γ, hγ, rfl⟩ | hβ
    · exact List.cons_subset_cons s (ih hγ)
    · split at hβ
      · exact List.subset_cons_of_subset s (ih hβ)
      · exact absurd hβ List.not_mem_nil

theorem length_of_mem_omissions (hβ : β ∈ omissions omissible α) : β.length ≤ α.length := by
  induction α generalizing β with
  | nil =>
    obtain rfl := List.mem_singleton.mp hβ
    exact Nat.le_refl _
  | cons s α ih =>
    rw [omissions, List.mem_append, List.mem_map] at hβ
    rcases hβ with ⟨γ, hγ, rfl⟩ | hβ
    · exact Nat.succ_le_succ (ih hγ)
    · split at hβ
      · exact Nat.le_succ_of_le (ih hβ)
      · exact absurd hβ List.not_mem_nil

def isOmissible (names : List Name) (s : Symbol) : Bool :=
  s.name?.any (fun name => decide (name ∈ names))

theorem isOmissible_nonterminal : isOmissible names (.nonterminal A) = true ↔ A ∈ names := by
  simp [isOmissible, Symbol.name?]

theorem mem_withOmissions : r' ∈ withOmissions names r ↔
    r'.lhs = r.lhs ∧ r'.rhs ∈ omissions (isOmissible names) r.rhs ∧ r'.rhs ≠ [] := by
  change r' ∈ ((SortedList.ofList (omissions (isOmissible names) r.rhs)).filter _).map _ ↔ _
  simp only [List.mem_map, List.mem_filter, SortedList.mem_ofList, Bool.not_eq_true',
    List.isEmpty_eq_false_iff]
  constructor
  · rintro ⟨β, ⟨hβ, hne⟩, rfl⟩
    exact ⟨rfl, hβ, hne⟩
  · obtain ⟨lhs, rhs⟩ := r'
    rintro ⟨rfl, hβ, hne⟩
    exact ⟨rhs, ⟨hβ, hne⟩, rfl⟩

theorem omissions_of_none (h : ∀ s ∈ α, omissible s = false) : omissions omissible α = [α] := by
  induction α with
  | nil => rfl
  | cons s α ih =>
    rw [List.forall_mem_cons] at h
    simp [omissions, ih h.2, h.1]

theorem mem_epsilonFree : r' ∈ g.epsilonFree.rules ↔ ∃ r ∈ g.rules, r'.lhs = r.lhs ∧
    r'.rhs ∈ omissions (isOmissible g.nullable) r.rhs ∧ r'.rhs ≠ [] := by
  by_cases h : g.nullable = []
  · have same : g.epsilonFree = g := by simp [epsilonFree, h]
    have none : ∀ α, omissions (isOmissible g.nullable) α = [α] := by
      intro α
      apply omissions_of_none
      intro s _
      cases s <;> simp [isOmissible, h, Symbol.name?]
    simp only [same, none, List.mem_singleton]
    constructor
    · intro hr
      refine ⟨r', hr, rfl, rfl, fun hrhs => ?_⟩
      have empty : g.Generates r'.lhs [] := generates_of_mem hr (by rw [hrhs]; exact .nil)
      have := mem_nullable.mpr empty
      simp [h] at this
    · obtain ⟨lhs, rhs⟩ := r'
      rintro ⟨r, hr, rfl, rfl, _⟩
      exact hr
  · rw [epsilonFree, if_neg (by simpa using h)]
    simp only [List.mem_flatMap, mem_withOmissions]

theorem models_epsilonFree (hS : S.Models g.rules) : S.Models g.epsilonFree.rules := by
  intro r' hr' w hw
  obtain ⟨r, hr, hlhs, hrhs, _⟩ := mem_epsilonFree.mp hr'
  rw [hlhs]
  apply hS r hr
  apply spells_of_omissions hrhs _ hw
  intro s hs
  cases s with
  | terminal a => exact absurd hs (by simp [isOmissible, Symbol.name?])
  | nonterminal A =>
    have empty : g.Generates A [] := mem_nullable.mp (isOmissible_nonterminal.mp hs)
    exact hS.derives empty

theorem rhs_ne_nil_of_mem_epsilonFree (hr : r ∈ g.epsilonFree.rules) : r.rhs ≠ [] := by
  obtain ⟨_, _, _, _, hne⟩ := mem_epsilonFree.mp hr
  exact hne

theorem length_of_mem_epsilonFree (hr : r ∈ g.epsilonFree.rules) :
    ∃ r' ∈ g.rules, r.rhs.length ≤ r'.rhs.length := by
  obtain ⟨r', hr', _, hrhs, _⟩ := mem_epsilonFree.mp hr
  exact ⟨r', hr', length_of_mem_omissions hrhs⟩

theorem generates_epsilonFree : g.epsilonFree.Generates A w ↔ g.Generates A w ∧ w ≠ [] := by
  constructor
  · intro h
    refine ⟨(models_epsilonFree g.models_generates).generates h, ?_⟩
    exact generates_ne_nil (fun r hr => rhs_ne_nil_of_mem_epsilonFree hr) h
  · rintro ⟨h, hne⟩
    let S : Interpretation := fun B u => g.Generates B u ∧ (u ≠ [] → g.epsilonFree.Generates B u)
    have models : S.Models g.rules := by
      intro r hr u hu
      refine ⟨g.models_generates r hr u (hu.imp (fun B _ v hB => hB.1)), fun hu_ne => ?_⟩
      have empty : ∀ B, S B [] → isOmissible g.nullable (.nonterminal B) = true :=
        fun B hB => isOmissible_nonterminal.mpr (mem_nullable.mpr hB.1)
      obtain ⟨β, hβ, hw⟩ := exists_omission (T := g.epsilonFree.Generates) hu empty
        (fun B v hB hv => hB.2 hv)
      have hβ_ne : β ≠ [] := by
        rintro rfl
        exact hu_ne hw
      have mem : ⟨r.lhs, β⟩ ∈ g.epsilonFree.rules :=
        mem_epsilonFree.mpr ⟨r, hr, rfl, hβ, hβ_ne⟩
      exact generates_of_mem (r := ⟨r.lhs, β⟩) mem (spells_generates.mp hw)
    exact (models.generates h).2 hne

@[simp] theorem start_epsilonFree : g.epsilonFree.start = g.start := by
  unfold epsilonFree
  split <;> rfl

theorem nonterminals_epsilonFree_subset : g.epsilonFree.nonterminals ⊆ g.nonterminals := by
  intro A hA
  rw [mem_nonterminals, start_epsilonFree] at hA
  rcases hA with rfl | ⟨r', hr', hA⟩
  · exact mem_nonterminals.mpr (.inl rfl)
  · obtain ⟨r, hr, hlhs, hrhs, _⟩ := mem_epsilonFree.mp hr'
    apply names_subset_nonterminals hr
    rw [Rule.mem_names] at hA ⊢
    rw [hlhs] at hA
    exact hA.imp_right (fun hA => subset_of_mem_omissions hrhs hA)

theorem epsilonFree_of_nonempty (h : ∀ r ∈ g.rules, r.rhs ≠ []) : g.epsilonFree = g := by
  have none : g.nullable = [] := by
    refine List.eq_nil_iff_forall_not_mem.mpr (fun A hA => ?_)
    exact generates_ne_nil h (mem_nullable.mp hA) rfl
  rw [epsilonFree, none]
  rfl

theorem epsilonFree_exact (g : Grammar) :
    g.epsilonFree.start = g.start ∧
    (∀ r ∈ g.epsilonFree.rules, r.rhs ≠ []) ∧
    ∀ A w, g.epsilonFree.Generates A w ↔ g.Generates A w ∧ w ≠ [] :=
  ⟨start_epsilonFree, fun _ hr => rhs_ne_nil_of_mem_epsilonFree hr,
    fun _ _ => generates_epsilonFree⟩

-- Everything can be left out here, a symbol that stands twice also in one place only, and S leads
-- to itself afterwards.
example :
    let g : Grammar := ⟨"S", [⟨"S", [.nonterminal "A", .nonterminal "S", .nonterminal "A"]⟩,
      ⟨"S", []⟩, ⟨"A", [.nonterminal "S"]⟩, ⟨"A", [.terminal "a"]⟩]⟩
    g.epsilonFree.rules = [
      ⟨"S", [.nonterminal "A"]⟩,
      ⟨"S", [.nonterminal "A", .nonterminal "A"]⟩,
      ⟨"S", [.nonterminal "A", .nonterminal "S"]⟩,
      ⟨"S", [.nonterminal "A", .nonterminal "S", .nonterminal "A"]⟩,
      ⟨"S", [.nonterminal "S"]⟩,
      ⟨"S", [.nonterminal "S", .nonterminal "A"]⟩,
      ⟨"A", [.nonterminal "S"]⟩,
      ⟨"A", [.terminal "a"]⟩] := by
  decide +kernel

end ContextFreePaths.Grammar
