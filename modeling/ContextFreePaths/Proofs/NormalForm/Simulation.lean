import Mathlib.Data.List.Forall2
import ContextFreePaths.Proofs.NormalForm.EpsilonFree
import ContextFreePaths.Proofs.NormalForm.UnitFree
import ContextFreePaths.Proofs.NormalForm.Useful

/-!
Simulations between grammars. A relation between the nonterminals of two grammars is a simulation
if each rule of the first is matched, under every related left side, by a rule of the second with
related symbols. Then the second grammar derives what the first does, and the steps of
normalization that make up no names lead from simulations to simulations.
-/

namespace ContextFreePaths

inductive Symbol.Related (R : Name → Name → Prop) : Symbol → Symbol → Prop
  | terminal (a : Label) : Related R (.terminal a) (.terminal a)
  | nonterminal {A B : Name} (h : R A B) : Related R (.nonterminal A) (.nonterminal B)

namespace Grammar

open Relation

abbrev Related (R : Name → Name → Prop) : List Symbol → List Symbol → Prop :=
  List.Forall₂ (Symbol.Related R)

structure Simulation (R : Name → Name → Prop) (g h : Grammar) : Prop where
  start : R g.start h.start
  rule : ∀ r ∈ g.rules, ∀ B, R r.lhs B → ∃ β, ⟨B, β⟩ ∈ h.rules ∧ Related R r.rhs β

variable {R R' : Name → Name → Prop} {g g' h h' : Grammar} {α α' β : List Symbol} {A B C : Name}
  {a : Label} {w : Word}

theorem Related.imp (rel : Related R α β)
    (weaker : ∀ A B, .nonterminal A ∈ α → .nonterminal B ∈ β → R A B → R' A B) :
    Related R' α β := by
  induction rel with
  | nil => exact .nil
  | cons first _ ih =>
    refine .cons ?_ (ih (fun A B hA hB =>
      weaker A B (List.mem_cons_of_mem _ hA) (List.mem_cons_of_mem _ hB)))
    cases first with
    | terminal a => exact .terminal a
    | nonterminal hR => exact .nonterminal (weaker _ _ List.mem_cons_self List.mem_cons_self hR)

theorem Related.exists_nonterminal (rel : Related R α β) (hB : .nonterminal B ∈ β) :
    ∃ A, .nonterminal A ∈ α ∧ R A B := by
  induction rel with
  | nil => exact absurd hB List.not_mem_nil
  | cons first _ ih =>
    rcases List.mem_cons.mp hB with rfl | hB
    · cases first with
      | nonterminal hR => exact ⟨_, List.mem_cons_self, hR⟩
    · obtain ⟨A, hA, hR⟩ := ih hB
      exact ⟨A, List.mem_cons_of_mem _ hA, hR⟩

theorem Related.mem_terminal (rel : Related R α β) : .terminal a ∈ α ↔ .terminal a ∈ β := by
  induction rel with
  | nil => exact Iff.rfl
  | cons first _ ih =>
    rw [List.mem_cons, List.mem_cons, ih]
    cases first <;> simp

theorem related_refl (hR : ∀ A, .nonterminal A ∈ α → R A A) : Related R α α := by
  rw [Related, List.forall₂_same]
  rintro (a | A) hA
  · exact .terminal a
  · exact .nonterminal (hR A hA)

namespace Simulation

theorem derives (sim : Simulation R g h) (hd : g.Derives α w) (rel : Related R α β) :
    h.Derives β w := by
  induction hd generalizing β with
  | nil =>
    cases rel
    exact .nil
  | terminal _ ih =>
    cases rel with
    | cons first rest =>
      cases first
      exact (ih rest).terminal
  | nonterminal mem _ _ body rest =>
    cases rel with
    | cons first tail =>
      cases first with
      | @nonterminal _ B hR =>
        obtain ⟨γ, hγ, bodies⟩ := sim.rule _ mem B hR
        exact .nonterminal hγ (body bodies) (rest tail)

theorem generates (sim : Simulation R g h) (hR : R A B) (hw : g.Generates A w) :
    h.Generates B w :=
  sim.derives hw (.cons (.nonterminal hR) .nil)

theorem of_subset (start : g.start = h.start) (rules : g.rules ⊆ h.rules) : Simulation Eq g h where
  start := start
  rule := by
    rintro r hr _ rfl
    exact ⟨r.rhs, rules hr, related_refl (fun _ _ => rfl)⟩

theorem mono (sim : Simulation R g h) (start : g'.start = g.start) (start' : h.start = h'.start)
    (fewer : g'.rules ⊆ g.rules) (more : h.rules ⊆ h'.rules) : Simulation R g' h' where
  start := by
    rw [start, ← start']
    exact sim.start
  rule r hr B hR := by
    obtain ⟨β, hβ, rel⟩ := sim.rule r (fewer hr) B hR
    exact ⟨β, more hβ, rel⟩

theorem mem_nullable (sim : Simulation R g h) (hR : R A B) (hA : A ∈ g.nullable) :
    B ∈ h.nullable :=
  Grammar.mem_nullable.mpr (sim.generates hR (Grammar.mem_nullable.mp hA))

theorem mem_productive (sim : Simulation R g h) (hR : R A B) (hA : A ∈ g.productive) :
    B ∈ h.productive := by
  obtain ⟨w, hw⟩ := Grammar.mem_productive.mp hA
  exact Grammar.mem_productive.mpr ⟨w, sim.generates hR hw⟩

def Reached (R : Name → Name → Prop) (h : Grammar) (A B : Name) : Prop :=
  R A B ∧ B ∈ (h.within h.productive).reachable

theorem useful (sim : Simulation R g h) : Simulation (Reached R h) g.useful h.useful where
  start := by
    rw [start_useful, start_useful]
    exact ⟨sim.start, mem_reachable.mpr .refl⟩
  rule r hr B hR := by
    obtain ⟨hAB, reached⟩ := hR
    obtain ⟨start, mem, names, _⟩ := mem_useful.mp hr
    obtain ⟨β, hβ, rel⟩ := sim.rule r mem B hAB
    have names' : Rule.names ⟨B, β⟩ ⊆ h.productive := by
      intro C hC
      rcases Rule.mem_names.mp hC with rfl | hC
      · exact sim.mem_productive hAB (names (Rule.mem_names.mpr (.inl rfl)))
      · obtain ⟨A, hA, hAC⟩ := rel.exists_nonterminal hC
        exact sim.mem_productive hAC (names (Rule.mem_names.mpr (.inr hA)))
    have start' : h.start ∈ h.productive := sim.mem_productive sim.start start
    refine ⟨β, mem_useful.mpr ⟨start', hβ, names', reached⟩, rel.imp (fun A C _ hC hAC => ?_)⟩
    refine ⟨hAC, mem_reachable.mpr ((mem_reachable.mp reached).tail ?_)⟩
    exact ⟨⟨B, β⟩, mem_within.mpr ⟨hβ, names'⟩, rfl, hC⟩

theorem exists_omission {p q : Symbol → Bool} (rel : Related R α β) (hα : α' ∈ omissions p α)
    (omissible : ∀ x y, Symbol.Related R x y → p x = true → q y = true) :
    ∃ β' ∈ omissions q β, Related R α' β' := by
  induction rel generalizing α' with
  | nil =>
    obtain rfl := List.mem_singleton.mp hα
    exact ⟨[], List.mem_singleton.mpr rfl, .nil⟩
  | @cons x y α β first _ ih =>
    simp only [omissions, List.mem_append, List.mem_map] at hα ⊢
    rcases hα with ⟨γ, hγ, rfl⟩ | hα
    · obtain ⟨γ', hγ', rel⟩ := ih hγ
      exact ⟨y :: γ', .inl ⟨γ', hγ', rfl⟩, .cons first rel⟩
    · split at hα
      · next hx =>
        obtain ⟨γ', hγ', rel⟩ := ih hα
        rw [if_pos (omissible x y first hx)]
        exact ⟨γ', .inr hγ', rel⟩
      · exact absurd hα List.not_mem_nil

theorem epsilonFree (sim : Simulation R g h) : Simulation R g.epsilonFree h.epsilonFree where
  start := by
    rw [start_epsilonFree, start_epsilonFree]
    exact sim.start
  rule r' hr' B hR := by
    obtain ⟨r, hr, lhs, hrhs, hne⟩ := mem_epsilonFree.mp hr'
    rw [lhs] at hR
    obtain ⟨β, hβ, rel⟩ := sim.rule r hr B hR
    have omissible : ∀ x y, Symbol.Related R x y → isOmissible g.nullable x = true →
        isOmissible h.nullable y = true := by
      rintro _ _ (a | hAB) hx
      · exact hx
      · rw [isOmissible_nonterminal] at hx ⊢
        exact sim.mem_nullable hAB hx
    obtain ⟨β', hβ', rel'⟩ := exists_omission rel hrhs omissible
    refine ⟨β', mem_epsilonFree.mpr ⟨⟨B, β⟩, hβ, rfl, hβ', ?_⟩, rel'⟩
    rintro rfl
    exact hne (List.forall₂_nil_right_iff.mp rel')

theorem exists_unitChain (sim : Simulation R g h) (chain : ReflTransGen g.UnitStep A C)
    (hR : R A B) : ∃ D, ReflTransGen h.UnitStep B D ∧ R C D := by
  induction chain with
  | refl => exact ⟨B, .refl, hR⟩
  | tail _ step ih =>
    obtain ⟨D, chain', hCD⟩ := ih
    obtain ⟨β, hβ, rel⟩ := sim.rule _ step D hCD
    cases rel with
    | cons first rest =>
      cases rest
      cases first with
      | nonterminal hR => exact ⟨_, chain'.tail hβ, hR⟩

theorem isUnit_eq (rel : Related R α β) : Rule.isUnit ⟨A, α⟩ = Rule.isUnit ⟨B, β⟩ := by
  cases rel with
  | nil => rfl
  | cons first rest =>
    cases rest with
    | nil => cases first <;> rfl
    | cons _ _ => rfl

theorem unitFree (sim : Simulation R g h) : Simulation R g.unitFree h.unitFree where
  start := by
    rw [start_unitFree, start_unitFree]
    exact sim.start
  rule r hr B hR := by
    obtain ⟨C, chain, mem, proper⟩ := mem_unitFree.mp hr
    obtain ⟨D, chain', hCD⟩ := sim.exists_unitChain chain hR
    obtain ⟨β, hβ, rel⟩ := sim.rule _ mem D hCD
    have proper' : Rule.isUnit ⟨B, β⟩ = false := (isUnit_eq rel).symm.trans proper
    exact ⟨β, mem_unitFree.mpr ⟨D, chain', hβ, proper'⟩, rel⟩

end Simulation

end Grammar

end ContextFreePaths
