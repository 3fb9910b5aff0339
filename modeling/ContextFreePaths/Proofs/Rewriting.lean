import ContextFreePaths.Proofs.ClosedSet
import ContextFreePaths.Proofs.NameRelation

namespace ContextFreePaths

open Relation

inductive Rule.Rewrites (r : Rule) : List Symbol → List Symbol → Prop
  | mk (α β : List Symbol) : r.Rewrites (α ++ .nonterminal r.lhs :: β) (α ++ r.rhs ++ β)

theorem Rule.Rewrites.context {r : Rule} {α β : List Symbol} (h : r.Rewrites α β)
    (γ δ : List Symbol) : r.Rewrites (γ ++ α ++ δ) (γ ++ β ++ δ) := by
  cases h with
  | mk α β => simpa only [List.append_assoc, List.cons_append] using Rewrites.mk (γ ++ α) (β ++ δ)

namespace Grammar

variable {g h : Grammar} {α β γ δ : List Symbol} {A B : Name} {w : Word} {r : Rule}

def Step (g : Grammar) (α β : List Symbol) : Prop :=
  ∃ r ∈ g.rules, r.Rewrites α β

def Rewrites (g : Grammar) : List Symbol → List Symbol → Prop :=
  ReflTransGen g.Step

theorem Rewrites.mono (hα : g.Rewrites α β) (hr : g.rules ⊆ h.rules) : h.Rewrites α β :=
  ReflTransGen.mono (fun _ _ ⟨r, mem, step⟩ => ⟨r, hr mem, step⟩) _ _ hα

theorem Rewrites.context (h : g.Rewrites α β) (γ δ : List Symbol) :
    g.Rewrites (γ ++ α ++ δ) (γ ++ β ++ δ) := by
  induction h with
  | refl => exact .refl
  | tail _ step ih =>
    obtain ⟨r, mem, step⟩ := step
    exact ih.tail ⟨r, mem, step.context γ δ⟩

theorem Rewrites.append (h : g.Rewrites α β) (h' : g.Rewrites γ δ) :
    g.Rewrites (α ++ γ) (β ++ δ) := by
  have front := h.context [] γ
  have back := h'.context β []
  rw [List.nil_append, List.nil_append] at front
  rw [List.append_nil, List.append_nil] at back
  exact ReflTransGen.trans front back

theorem rewrites_rule (mem : r ∈ g.rules) : g.Rewrites [.nonterminal r.lhs] r.rhs := by
  have step := Rule.Rewrites.mk (r := r) [] []
  rw [List.nil_append, List.nil_append, List.append_nil] at step
  exact .single ⟨r, mem, step⟩

theorem rewrites_of_derives (h : g.Derives α w) : g.Rewrites α (w.map .terminal) := by
  induction h with
  | nil => exact .refl
  | @terminal a α w _ ih => exact Rewrites.append (α := [.terminal a]) .refl ih
  | nonterminal mem _ _ body rest =>
    rw [List.map_append]
    exact Rewrites.append (α := [_]) (ReflTransGen.trans (rewrites_rule mem) body) rest

theorem derives_of_rewrites_rule (mem : r ∈ g.rules) (step : r.Rewrites α β)
    (h : g.Derives β w) : g.Derives α w := by
  cases step with
  | mk α β =>
    obtain ⟨u, v, rfl, hu, hv⟩ := derives_append.mp h
    obtain ⟨u, x, rfl, hu, hx⟩ := derives_append.mp hu
    rw [List.append_assoc]
    exact hu.append (.nonterminal mem hx hv)

theorem Rewrites.derives (h : g.Rewrites α β) (hβ : g.Derives β w) : g.Derives α w := by
  induction h using ReflTransGen.head_induction_on with
  | refl => exact hβ
  | head step _ ih =>
    obtain ⟨r, mem, step⟩ := step
    exact derives_of_rewrites_rule mem step ih

theorem rewrites_terminals : g.Rewrites α (w.map .terminal) ↔ g.Derives α w :=
  ⟨fun h => h.derives (derives_terminals.mpr rfl), rewrites_of_derives⟩

theorem Rewrites.exists_leadsTo (h : g.Rewrites α β) (hB : .nonterminal B ∈ β) :
    ∃ A, .nonterminal A ∈ α ∧ ReflTransGen g.LeadsTo A B := by
  induction h generalizing B with
  | refl => exact ⟨B, hB, .refl⟩
  | tail _ step ih =>
    obtain ⟨r, mem, step⟩ := step
    cases step with
    | mk γ δ =>
      rw [List.mem_append, List.mem_append, or_right_comm, ← List.mem_append] at hB
      rcases hB with hB | hB
      · refine ih (?_ : Symbol.nonterminal B ∈ γ ++ .nonterminal r.lhs :: δ)
        rw [List.mem_append, List.mem_cons, or_left_comm, ← List.mem_append]
        exact .inr hB
      · obtain ⟨A, hA, chain⟩ := ih (List.mem_append_right γ List.mem_cons_self)
        exact ⟨A, hA, chain.tail ⟨r, mem, rfl, hB⟩⟩

theorem exists_rewrites_of_leadsTo (h : ReflTransGen g.LeadsTo A B) :
    ∃ β γ, g.Rewrites [.nonterminal A] (β ++ .nonterminal B :: γ) ∧
      ∀ s ∈ β ++ γ, ∃ r ∈ g.rules, s ∈ r.rhs := by
  induction h with
  | refl => exact ⟨[], [], .refl, fun _ hs => absurd hs List.not_mem_nil⟩
  | tail _ step ih =>
    obtain ⟨r, mem, rfl, hB⟩ := step
    obtain ⟨β, γ, rewrites, within⟩ := ih
    obtain ⟨x, y, rhs⟩ := List.append_of_mem hB
    refine ⟨β ++ x, y ++ γ, ?_, fun s hs => ?_⟩
    · have step := Rule.Rewrites.mk (r := r) β γ
      rw [rhs] at step
      simp only [List.append_assoc, List.cons_append] at step ⊢
      exact rewrites.tail ⟨r, mem, step⟩
    · simp only [List.append_assoc, List.mem_append] at hs
      rcases hs with hs | hs | hs | hs
      · exact within s (List.mem_append_left _ hs)
      · exact ⟨r, mem, rhs ▸ List.mem_append_left _ hs⟩
      · exact ⟨r, mem, rhs ▸ List.mem_append_right _ (List.mem_cons_of_mem _ hs)⟩
      · exact within s (List.mem_append_right _ hs)

theorem leadsTo_iff_rewrites : ReflTransGen g.LeadsTo A B ↔
    ∃ β γ, g.Rewrites [.nonterminal A] (β ++ .nonterminal B :: γ) := by
  constructor
  · intro h
    obtain ⟨β, γ, rewrites, _⟩ := exists_rewrites_of_leadsTo h
    exact ⟨β, γ, rewrites⟩
  · rintro ⟨β, γ, rewrites⟩
    obtain ⟨A', hA', chain⟩ :=
      rewrites.exists_leadsTo (List.mem_append_right β List.mem_cons_self)
    obtain rfl : A' = A := by simpa using hA'
    exact chain

theorem nullable_iff_rewrites : A ∈ g.nullable ↔ g.Rewrites [.nonterminal A] [] := by
  rw [mem_nullable]
  exact (rewrites_terminals (w := [])).symm

theorem productive_iff_rewrites :
    A ∈ g.productive ↔ ∃ w : Word, g.Rewrites [.nonterminal A] (w.map .terminal) := by
  simp only [mem_productive, rewrites_terminals]
  rfl

theorem reachable_iff_rewrites :
    A ∈ g.reachable ↔ ∃ α, g.Rewrites [.nonterminal g.start] α ∧ .nonterminal A ∈ α := by
  rw [mem_reachable, leadsTo_iff_rewrites]
  constructor
  · rintro ⟨β, γ, rewrites⟩
    exact ⟨_, rewrites, List.mem_append_right β List.mem_cons_self⟩
  · rintro ⟨α, rewrites, hA⟩
    obtain ⟨β, γ, rfl⟩ := List.append_of_mem hA
    exact ⟨β, γ, rewrites⟩

/-- The nonterminals that derive the empty word, those that derive any word, and those that stand
in a form derived from the start symbol, are found exactly. -/
theorem analyses_exact (g : Grammar) (A : Name) :
    (A ∈ g.nullable ↔ g.Rewrites [.nonterminal A] []) ∧
      (A ∈ g.productive ↔ ∃ w : Word, g.Rewrites [.nonterminal A] (w.map .terminal)) ∧
      (A ∈ g.reachable ↔ ∃ α, g.Rewrites [.nonterminal g.start] α ∧ .nonterminal A ∈ α) ∧
      g.start ∈ g.reachable :=
  ⟨nullable_iff_rewrites, productive_iff_rewrites, reachable_iff_rewrites, mem_reachable.mpr .refl⟩

end Grammar

end ContextFreePaths
