import Mathlib.Order.Bounds.Basic
import ContextFreePaths.Proofs.ClosedSet

namespace ContextFreePaths

variable {g h : Grammar} {d : Demand} {seed seed' : List Symbol} {n : Nat}

namespace Spread

variable {t u : Spread}

theorem Steps.room_add_le (steps : Steps g d n t u) :
    u.room g.rules + n ≤ t.room g.rules := by
  induction steps with
  | refl => exact Nat.le_refl _
  | head step _ ih =>
    have := step.room_lt
    omega

theorem Approaches.known_eq (ht : t.Approaches g d seed) (done : t.pending = []) :
    t.known = g.closure d seed := by
  refine SortedList.eq_of_ascending ht.ascending Grammar.ascending_closure (fun s => ?_)
  constructor
  · exact ht.least (· ∈ g.closure d seed) Grammar.closedUnder_closure
      (fun _ => Grammar.seed_subset_closure) s
  · exact Grammar.closure_least (· ∈ t.known) (ht.closedUnder done) (fun _ hs => ht.seeded hs)

theorem run_ofSeed (hn : (SortedList.ofList seed).length + g.rules.length ≤ n) :
    run (OccurrenceIndex.ofRules g.rules) d n (ofSeed seed) =
      ⟨g.closure d seed, []⟩ := by
  have start : (ofSeed seed).Approaches g d seed := approaches_ofSeed
  have done := pending_run (d := d) (Nat.le_trans room_ofSeed hn)
  rw [← (start.run n).known_eq done, ← done]

end Spread

namespace Grammar

theorem isLeast_closure : IsLeast
    {p : Set Symbol | (∀ s ∈ seed, s ∈ p) ∧ g.ClosedUnder d (· ∈ p)}
    {s | s ∈ g.closure d seed} := by
  constructor
  · exact ⟨fun _ => seed_subset_closure, closedUnder_closure⟩
  · exact fun p ⟨seeded, closed⟩ s => closure_least (· ∈ p) closed seeded

theorem closure_congr (rules : ∀ r, r ∈ h.rules ↔ r ∈ g.rules)
    (seeds : ∀ s, s ∈ seed' ↔ s ∈ seed) : h.closure d seed' = g.closure d seed := by
  have least : IsLeast {p : Set Symbol | (∀ s ∈ seed', s ∈ p) ∧ h.ClosedUnder d (· ∈ p)}
      {s | s ∈ h.closure d seed'} := isLeast_closure
  simp only [ClosedUnder, rules, seeds] at least
  exact SortedList.eq_of_ascending ascending_closure ascending_closure
    (Set.ext_iff.mp (least.unique isLeast_closure))

/-- The closure is the least set with the seed over which the property spreads no further. The loop
ends with it, and so does every other order of the work. -/
theorem closure_exact (g : Grammar) (d : Demand) (seed : List Symbol) :
    IsLeast {p : Set Symbol | (∀ s ∈ seed, s ∈ p) ∧ g.ClosedUnder d (· ∈ p)}
        {s | s ∈ g.closure d seed} ∧
      SortedList.Ascending (g.closure d seed) ∧
      (∀ n, (SortedList.ofList seed).length + g.rules.length ≤ n →
        Spread.run (OccurrenceIndex.ofRules g.rules) d n (Spread.ofSeed seed) =
          ⟨g.closure d seed, []⟩) ∧
      (∀ n t, Spread.Steps g d n (Spread.ofSeed seed) t →
        n ≤ (SortedList.ofList seed).length + g.rules.length ∧
          (t.pending ≠ [] → ∃ u, Spread.TakesUp g d t u) ∧
          (t.pending = [] → t.known = g.closure d seed)) ∧
      ∀ (h : Grammar) seed', (∀ r, r ∈ h.rules ↔ r ∈ g.rules) → (∀ s, s ∈ seed' ↔ s ∈ seed) →
        h.closure d seed' = g.closure d seed := by
  refine ⟨isLeast_closure, ascending_closure, fun n => Spread.run_ofSeed,
    fun n t steps => ⟨?_, ?_, ?_⟩, fun h seed' => closure_congr⟩
  · have spent := steps.room_add_le
    have room : (Spread.ofSeed seed).room g.rules ≤ _ := Spread.room_ofSeed
    omega
  · exact fun more => ⟨_, Spread.takesUp_next more⟩
  · exact (Spread.approaches_ofSeed.steps steps).known_eq

def tangled : Grammar where
  start := "S"
  rules := [
    ⟨"S", [.terminal "a", .terminal "b", .terminal "a"]⟩,
    ⟨"S", [.nonterminal "S", .terminal "b"]⟩]

def tangledAgain : Grammar where
  start := "S"
  rules := [
    ⟨"S", [.nonterminal "S", .terminal "b"]⟩,
    ⟨"S", [.terminal "a", .terminal "b", .terminal "a"]⟩,
    ⟨"S", [.nonterminal "S", .terminal "b"]⟩]

theorem tangled_closure_exact :
    Spread.Steps tangled .all 3 (Spread.ofSeed [.terminal "a", .terminal "b"])
      ⟨[.nonterminal "S", .terminal "a", .terminal "b"], []⟩ ∧
    [.nonterminal "S", .terminal "a", .terminal "b"] =
      tangled.closure .all [.terminal "a", .terminal "b"] ∧
    (∀ r, r ∈ tangledAgain.rules ↔ r ∈ tangled.rules) ∧
    tangledAgain.closure .all [.terminal "b", .terminal "a", .terminal "b"] =
      tangled.closure .all [.terminal "a", .terminal "b"] := by
  have first : Spread.TakesUp tangled .all (Spread.ofSeed [.terminal "a", .terminal "b"])
      ⟨[.nonterminal "S", .terminal "a", .terminal "b"], [.nonterminal "S", .terminal "b"]⟩ :=
    Spread.takesUp_of_pending (s := .terminal "a") [.terminal "b"] [] rfl
  have second : Spread.TakesUp tangled .all
      ⟨[.nonterminal "S", .terminal "a", .terminal "b"], [.nonterminal "S", .terminal "b"]⟩
      ⟨[.nonterminal "S", .terminal "a", .terminal "b"], [.terminal "b"]⟩ :=
    Spread.takesUp_of_pending (s := .nonterminal "S") [] [.terminal "b"] rfl
  have third : Spread.TakesUp tangled .all
      ⟨[.nonterminal "S", .terminal "a", .terminal "b"], [.terminal "b"]⟩
      ⟨[.nonterminal "S", .terminal "a", .terminal "b"], []⟩ :=
    Spread.takesUp_of_pending (s := .terminal "b") [] [] rfl
  have steps := Spread.Steps.head first (.head second (.head third (.refl _)))
  have rules : ∀ r, r ∈ tangledAgain.rules ↔ r ∈ tangled.rules := by
    intro r
    simp only [tangled, tangledAgain, List.mem_cons, List.not_mem_nil, or_false]
    tauto
  have seeds : ∀ s : Symbol, s ∈ [Symbol.terminal "b", .terminal "a", .terminal "b"] ↔
      s ∈ [Symbol.terminal "a", .terminal "b"] := by
    intro s
    simp only [List.mem_cons, List.not_mem_nil, or_false]
    tauto
  obtain ⟨_, _, _, anyOrder, sets⟩ := closure_exact tangled .all [.terminal "a", .terminal "b"]
  exact ⟨steps, (anyOrder 3 _ steps).2.2 rfl, rules, sets _ _ rules seeds⟩

end Grammar

end ContextFreePaths
