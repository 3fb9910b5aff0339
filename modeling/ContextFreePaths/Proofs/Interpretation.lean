import Mathlib.Logic.Function.Basic
import Mathlib.Logic.Relation
import Mathlib.Tactic.Common
import ContextFreePaths.Grammar.Derivation

/-!
Interpretations read each nonterminal as a set of words. Derivation is the least interpretation
that models the rules: by `Models.generates` an interpretation that is closed under the rules of a
grammar holds of every word that the grammar derives.
-/

namespace ContextFreePaths

def Rule.names (r : Rule) : List Name :=
  r.lhs :: r.rhsNames

theorem Rule.mem_rhsNames {r : Rule} {A : Name} : A ∈ r.rhsNames ↔ .nonterminal A ∈ r.rhs := by
  simp only [rhsNames, List.mem_filterMap]
  constructor
  · rintro ⟨s, hs, hA⟩
    cases s with
    | terminal a => simp [Symbol.name?] at hA
    | nonterminal B =>
      obtain rfl : B = A := by simpa [Symbol.name?] using hA
      exact hs
  · intro h
    exact ⟨_, h, rfl⟩

theorem Rule.mem_rhsLabels {r : Rule} {a : Label} : a ∈ r.rhsLabels ↔ .terminal a ∈ r.rhs := by
  simp only [rhsLabels, List.mem_filterMap]
  constructor
  · rintro ⟨s, hs, ha⟩
    cases s with
    | terminal b =>
      obtain rfl : b = a := by simpa [Symbol.label?] using ha
      exact hs
    | nonterminal B => simp [Symbol.label?] at ha
  · intro h
    exact ⟨_, h, rfl⟩

theorem Rule.mem_names {r : Rule} {A : Name} :
    A ∈ r.names ↔ A = r.lhs ∨ .nonterminal A ∈ r.rhs := by
  simp [names, mem_rhsNames]

abbrev Interpretation := Name → Word → Prop

namespace Interpretation

def Spells (S : Interpretation) : List Symbol → Word → Prop
  | [], w => w = []
  | .terminal a :: α, w => ∃ v, w = a :: v ∧ S.Spells α v
  | .nonterminal A :: α, w => ∃ u v, w = u ++ v ∧ S A u ∧ S.Spells α v

def Models (S : Interpretation) (rules : List Rule) : Prop :=
  ∀ r ∈ rules, ∀ w, S.Spells r.rhs w → S r.lhs w

def AgreesOn (S T : Interpretation) (names : List Name) : Prop :=
  ∀ A ∈ names, S A = T A

variable {S T U : Interpretation} {α β : List Symbol} {A B C : Name} {w : Word}
  {names more : List Name} {rules extra : List Rule}

theorem spells_append : S.Spells (α ++ β) w ↔ ∃ u v, w = u ++ v ∧ S.Spells α u ∧ S.Spells β v := by
  induction α generalizing w with
  | nil =>
    constructor
    · intro h
      exact ⟨[], w, rfl, rfl, h⟩
    · rintro ⟨_, v, rfl, rfl, h⟩
      exact h
  | cons s α ih =>
    cases s with
    | terminal a =>
      simp only [List.cons_append, Spells, ih]
      constructor
      · rintro ⟨_, rfl, u, v, rfl, hu, hv⟩
        exact ⟨a :: u, v, rfl, ⟨u, rfl, hu⟩, hv⟩
      · rintro ⟨_, v, rfl, ⟨u, rfl, hu⟩, hv⟩
        exact ⟨u ++ v, rfl, u, v, rfl, hu, hv⟩
    | nonterminal A =>
      simp only [List.cons_append, Spells, ih]
      constructor
      · rintro ⟨x, _, rfl, hx, u, v, rfl, hu, hv⟩
        exact ⟨x ++ u, v, by rw [List.append_assoc], ⟨x, u, rfl, hx, hu⟩, hv⟩
      · rintro ⟨_, v, rfl, ⟨x, u, rfl, hx, hu⟩, hv⟩
        exact ⟨x, u ++ v, by rw [List.append_assoc], hx, u, v, rfl, hu, hv⟩

theorem spells_cons {s : Symbol} :
    S.Spells (s :: α) w ↔ ∃ u v, w = u ++ v ∧ S.Spells [s] u ∧ S.Spells α v :=
  spells_append (α := [s])

@[simp] theorem spells_terminal {a : Label} : S.Spells [.terminal a] w ↔ w = [a] := by
  simp [Spells]

@[simp] theorem spells_nonterminal : S.Spells [.nonterminal A] w ↔ S A w := by
  simp [Spells]

theorem spells_pair :
    S.Spells [.nonterminal B, .nonterminal C] w ↔ ∃ u v, w = u ++ v ∧ S B u ∧ S C v := by
  simp [Spells]

theorem spells_nil : S.Spells α [] ↔ ∀ s ∈ α, ∃ A, s = .nonterminal A ∧ S A [] := by
  induction α with
  | nil => simp [Spells]
  | cons s α ih =>
    rw [List.forall_mem_cons, ← ih]
    cases s with
    | terminal a => simp [Spells]
    | nonterminal A => simp [Spells, and_assoc]

theorem exists_spells_iff :
    (∃ w, S.Spells α w) ↔ ∀ A, .nonterminal A ∈ α → ∃ w, S A w := by
  induction α with
  | nil => simp [Spells]
  | cons s α ih =>
    cases s with
    | terminal a =>
      simp only [List.mem_cons, reduceCtorEq, false_or, ← ih]
      constructor
      · rintro ⟨_, v, rfl, hv⟩
        exact ⟨v, hv⟩
      · rintro ⟨v, hv⟩
        exact ⟨a :: v, v, rfl, hv⟩
    | nonterminal A =>
      simp only [List.mem_cons, Symbol.nonterminal.injEq, forall_eq_or_imp, ← ih]
      constructor
      · rintro ⟨_, u, v, rfl, hu, hv⟩
        exact ⟨⟨u, hu⟩, v, hv⟩
      · rintro ⟨⟨u, hu⟩, v, hv⟩
        exact ⟨u ++ v, u, v, rfl, hu, hv⟩

theorem Spells.imp (h : S.Spells α w) (hST : ∀ A, .nonterminal A ∈ α → ∀ u, S A u → T A u) :
    T.Spells α w := by
  induction α generalizing w with
  | nil => exact h
  | cons s α ih =>
    have tail := fun {v} (hv : S.Spells α v) =>
      ih hv (fun A hA => hST A (List.mem_cons_of_mem s hA))
    cases s with
    | terminal a =>
      obtain ⟨v, rfl, hv⟩ := h
      exact ⟨v, rfl, tail hv⟩
    | nonterminal A =>
      obtain ⟨u, v, rfl, hu, hv⟩ := h
      exact ⟨u, v, rfl, hST A List.mem_cons_self u hu, tail hv⟩

theorem AgreesOn.trans (h : S.AgreesOn T names) (h' : T.AgreesOn U names) : S.AgreesOn U names :=
  fun A hA => (h A hA).trans (h' A hA)

theorem AgreesOn.mono (h : S.AgreesOn T more) (hn : names ⊆ more) : S.AgreesOn T names :=
  fun A hA => h A (hn hA)

theorem agreesOn_update {p : Word → Prop} (hA : A ∉ names) :
    S.AgreesOn (Function.update S A p) names := by
  intro B hB
  have hne : B ≠ A := by
    rintro rfl
    exact hA hB
  rw [Function.update_of_ne hne]

theorem AgreesOn.spells (h : S.AgreesOn T names) (hα : ∀ A, .nonterminal A ∈ α → A ∈ names) :
    S.Spells α w ↔ T.Spells α w := by
  constructor
  · intro hs
    exact hs.imp (fun A hA _ => by rw [h A (hα A hA)]; exact id)
  · intro ht
    exact ht.imp (fun A hA _ => by rw [h A (hα A hA)]; exact id)

theorem Models.of_agreesOn (hS : S.Models rules) (h : S.AgreesOn T names)
    (hr : ∀ r ∈ rules, r.names ⊆ names) : T.Models rules := by
  intro r mem w hw
  rw [← h r.lhs (hr r mem (Rule.mem_names.mpr (.inl rfl)))]
  apply hS r mem
  exact (h.spells (fun A hA => hr r mem (Rule.mem_names.mpr (.inr hA)))).mpr hw

theorem Models.mono (hS : S.Models extra) (h : rules ⊆ extra) : S.Models rules :=
  fun r mem => hS r (h mem)

theorem models_append : S.Models (rules ++ extra) ↔ S.Models rules ∧ S.Models extra := by
  simp only [Models, List.mem_append, or_imp, forall_and]

theorem Spells.ne_nil (h : S.Spells α w) (hα : α ≠ []) (hS : ∀ A u, S A u → u ≠ []) :
    w ≠ [] := by
  rintro rfl
  obtain ⟨s, β, rfl⟩ := List.exists_cons_of_ne_nil hα
  obtain ⟨A, _, hA⟩ := spells_nil.mp h s List.mem_cons_self
  exact hS A [] hA rfl

theorem Models.derives {g : Grammar} (hS : S.Models g.rules) (h : g.Derives α w) :
    S.Spells α w := by
  induction h with
  | nil => rfl
  | terminal _ ih => exact ⟨_, rfl, ih⟩
  | nonterminal mem _ _ body rest => exact ⟨_, _, rfl, hS _ mem _ body, rest⟩

theorem Models.generates {g : Grammar} (hS : S.Models g.rules) (h : g.Generates A w) : S A w :=
  spells_nonterminal.mp (hS.derives h)

end Interpretation

namespace Grammar

open Interpretation

variable {g h : Grammar} {α : List Symbol} {A : Name} {w : Word}

theorem spells_generates : Spells g.Generates α w ↔ g.Derives α w := by
  induction α generalizing w with
  | nil => simp [Spells]
  | cons s α ih =>
    cases s with
    | terminal a => simp only [Spells, ih, derives_terminal]
    | nonterminal A =>
      rw [derives_cons]
      simp only [Spells, ih, Generates]

theorem generates_of_mem {r : Rule} (mem : r ∈ g.rules) (hr : g.Derives r.rhs w) :
    g.Generates r.lhs w :=
  generates_iff.mpr ⟨r, mem, rfl, hr⟩

theorem models_generates (g : Grammar) : Models g.Generates g.rules :=
  fun _ mem _ hr => generates_of_mem mem (spells_generates.mp hr)

theorem generates_ne_nil (hr : ∀ r ∈ g.rules, r.rhs ≠ []) (h : g.Generates A w) : w ≠ [] := by
  refine Models.generates (S := fun _ u => u ≠ []) ?_ h
  intro r mem u hu
  exact hu.ne_nil (hr r mem) (fun _ _ hv => hv)

theorem Generates.mono (hg : g.Generates A w) (hr : g.rules ⊆ h.rules) : h.Generates A w :=
  Derives.mono hg hr

end Grammar

end ContextFreePaths
