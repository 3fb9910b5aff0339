import ContextFreePaths.Grammar.Basic

namespace ContextFreePaths.Grammar

inductive Derives (g : Grammar) : List Symbol → Word → Prop
  | nil : Derives g [] []
  | terminal {a : Label} {α : List Symbol} {w : Word} (rest : Derives g α w) :
      Derives g (.terminal a :: α) (a :: w)
  | nonterminal {r : Rule} {α : List Symbol} {u w : Word} (mem : r ∈ g.rules)
      (body : Derives g r.rhs u) (rest : Derives g α w) :
      Derives g (.nonterminal r.lhs :: α) (u ++ w)

def Generates (g : Grammar) (name : Name) (w : Word) : Prop :=
  g.Derives [.nonterminal name] w

variable {g h : Grammar} {α β : List Symbol} {a : Label} {name : Name} {u v w : Word}

@[simp] theorem derives_nil : g.Derives [] w ↔ w = [] := by
  constructor
  · intro h
    cases h
    rfl
  · rintro rfl
    exact .nil

theorem derives_terminal : g.Derives (.terminal a :: α) w ↔ ∃ v, w = a :: v ∧ g.Derives α v := by
  constructor
  · intro h
    cases h with
    | terminal rest => exact ⟨_, rfl, rest⟩
  · rintro ⟨v, rfl, rest⟩
    exact rest.terminal

theorem derives_nonterminal : g.Derives (.nonterminal name :: α) w ↔
    ∃ r ∈ g.rules, r.lhs = name ∧ ∃ u v, w = u ++ v ∧ g.Derives r.rhs u ∧ g.Derives α v := by
  constructor
  · intro h
    cases h with
    | nonterminal mem body rest => exact ⟨_, mem, rfl, _, _, rfl, body, rest⟩
  · rintro ⟨r, mem, rfl, u, v, rfl, body, rest⟩
    exact .nonterminal mem body rest

theorem Derives.append (hα : g.Derives α u) (hβ : g.Derives β v) : g.Derives (α ++ β) (u ++ v) := by
  induction hα with
  | nil => exact hβ
  | terminal _ ih => exact ih.terminal
  | nonterminal mem body _ _ ih =>
    rw [List.append_assoc]
    exact .nonterminal mem body ih

theorem derives_append :
    g.Derives (α ++ β) w ↔ ∃ u v, w = u ++ v ∧ g.Derives α u ∧ g.Derives β v := by
  constructor
  · intro h
    induction α generalizing w with
    | nil => exact ⟨[], w, rfl, .nil, h⟩
    | cons s α ih =>
      cases h with
      | terminal rest =>
        obtain ⟨u, v, rfl, hu, hv⟩ := ih rest
        exact ⟨_, v, rfl, hu.terminal, hv⟩
      | nonterminal mem body rest =>
        obtain ⟨u, v, rfl, hu, hv⟩ := ih rest
        exact ⟨_, v, (List.append_assoc ..).symm, .nonterminal mem body hu, hv⟩
  · rintro ⟨u, v, rfl, hu, hv⟩
    exact hu.append hv

theorem generates_iff :
    g.Generates name w ↔ ∃ r ∈ g.rules, r.lhs = name ∧ g.Derives r.rhs w := by
  simp only [Generates, derives_nonterminal, derives_nil]
  constructor
  · rintro ⟨r, mem, hr, u, v, rfl, body, rfl⟩
    rw [List.append_nil]
    exact ⟨r, mem, hr, body⟩
  · rintro ⟨r, mem, hr, body⟩
    exact ⟨r, mem, hr, w, [], (List.append_nil w).symm, body, rfl⟩

theorem derives_cons {s : Symbol} :
    g.Derives (s :: α) w ↔ ∃ u v, w = u ++ v ∧ g.Derives [s] u ∧ g.Derives α v :=
  derives_append (α := [s])

theorem derives_terminals : g.Derives (w.map .terminal) v ↔ v = w := by
  induction w generalizing v with
  | nil => simp
  | cons a w ih => simp [derives_terminal, ih]

theorem Derives.mono (hd : g.Derives α w) (hr : ∀ r ∈ g.rules, r ∈ h.rules) : h.Derives α w := by
  induction hd with
  | nil => exact .nil
  | terminal _ ih => exact ih.terminal
  | nonterminal mem _ _ ihb ihr => exact .nonterminal (hr _ mem) ihb ihr

end ContextFreePaths.Grammar
