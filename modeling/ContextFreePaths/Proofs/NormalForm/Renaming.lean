import ContextFreePaths.Proofs.NormalForm.Language
import ContextFreePaths.Proofs.NormalForm.Simulation
import ContextFreePaths.Proofs.NormalForm.Splitting

namespace ContextFreePaths.Grammar.Simulation

variable {R : Name → Name → Prop} {g h : Grammar} {s s' t t' : NameSupply} {α α' β : List Symbol}
  {r : Rule} {X X' : Name}

/-- Old names are related as before, and links if their chains stand for related old symbols. -/
def Linked (R : Name → Name → Prop) (g h : Grammar) (s s' : NameSupply) (X X' : Name) : Prop :=
  X ∈ s.taken ∧ R X X' ∨ X ∉ s.taken ∧ ∃ α α' t t',
    Related (fun A B => A ∈ s.taken ∧ R A B) α α' ∧ s.taken ⊆ t.taken ∧ X ∈ t.taken ∧
      (chain X α t).1 ⊆ (g.binary s).1.rules ∧ (chain X' α' t').1 ⊆ (h.binary s').1.rules

theorem related_linked (rel : Related (fun A B => A ∈ s.taken ∧ R A B) α α') :
    Related (Linked R g h s s') α α' :=
  rel.imp (fun _ _ _ _ => .inl)

theorem exists_head_of_chains (rel : Related (fun A B => A ∈ s.taken ∧ R A B) α α')
    (hst : s.taken ⊆ t.taken) (hX : X ∈ t.taken) (hα : (chain X α t).1 ⊆ (g.binary s).1.rules)
    (hα' : (chain X' α' t').1 ⊆ (h.binary s').1.rules) (hr : r ∈ (chain X α t).1)
    (lhs : r.lhs = X) :
    ∃ β, ⟨X', β⟩ ∈ (h.binary s').1.rules ∧ Related (Linked R g h s s') r.rhs β := by
  by_cases short : α.length ≤ 2
  · have short' : α'.length ≤ 2 := rel.length_eq ▸ short
    rw [chain_of_short short] at hr
    rw [chain_of_short short'] at hα'
    obtain rfl := List.mem_singleton.mp hr
    exact ⟨α'.reverse, hα' List.mem_cons_self,
      List.forall₂_reverse_iff.mpr (related_linked rel)⟩
  · cases rel with
    | nil => exact absurd (Nat.zero_le 2) short
    | @cons z z' γ γ' last init =>
      have long : 2 ≤ γ.length := by
        rw [List.length_cons] at short
        omega
      have long' : 2 ≤ γ'.length := init.length_eq ▸ long
      rw [chain_of_long long] at hα hr
      rw [chain_of_long long'] at hα'
      rw [List.cons_subset] at hα hα'
      have link : Linked R g h s s' t.next.1 t'.next.1 :=
        .inr ⟨fun old => NameSupply.next_not_mem (hst old), γ, γ', t.next.2, t'.next.2, init,
          List.Subset.trans hst NameSupply.taken_subset_next, NameSupply.next_mem_taken, hα.2,
          hα'.2⟩
      rcases List.mem_cons.mp hr with rfl | hr
      · refine ⟨[.nonterminal t'.next.1, z'], hα'.1, .cons (.nonterminal link) ?_⟩
        exact related_linked (.cons last .nil)
      · -- The rules further down are headed by names that were new when the chain was made.
        exfalso
        rw [← lhs] at hX
        rcases lhs_of_mem_chain hr with same | new
        · exact NameSupply.next_not_mem (same ▸ hX)
        · exact new (NameSupply.taken_subset_next hX)

theorem binary (sim : Simulation R g h) (hs : g.nonterminals ⊆ s.taken) (s' : NameSupply) :
    Simulation (Linked R g h s s') (g.binary s).1 (h.binary s').1 where
  start := .inl ⟨hs g.start_mem_nonterminals, sim.start⟩
  rule r hr B hR := by
    have names : ∀ r ∈ g.rules, r.names ⊆ s.taken := rules_names_subset hs
    obtain ⟨old, hAB⟩ | ⟨new, α, α', t, t', rel, hst, hX, hα, hα'⟩ := hR
    · obtain ⟨r₀, hr₀, t, hst, mem, hα⟩ := exists_chain_of_mem names hr
      have lhs : r.lhs = r₀.lhs :=
        (lhs_of_mem_chain mem).resolve_right (fun new => new (hst old))
      rw [lhs] at old hAB
      obtain ⟨β, hβ, rel⟩ := sim.rule r₀ hr₀ B hAB
      obtain ⟨t', hα'⟩ := exists_chain s' hβ
      have rel' : Related (fun A B => A ∈ s.taken ∧ R A B) r₀.rhs.reverse β.reverse := by
        refine List.forall₂_reverse_iff.mpr (rel.imp (fun A C hA _ hR => ⟨?_, hR⟩))
        exact names r₀ hr₀ (Rule.mem_names.mpr (.inr hA))
      exact exists_head_of_chains rel' hst (hst old) hα hα' mem lhs
    · obtain ⟨r₀, mem, lhs⟩ := exists_head r.lhs α t
      obtain rfl : r₀ = r := eq_of_lhs_of_mem_chains names (hα mem) hr lhs (lhs ▸ new)
      exact exists_head_of_chains rel hst hX hα hα' mem rfl

def Sided (R : Name → Name → Prop) (g h : Grammar) (s s' : NameSupply) (X X' : Name) : Prop :=
  X ∈ s.taken ∧ R X X' ∨
    ∃ a, (a, X) ∈ (standIns g.sharedLabels s).1 ∧ (a, X') ∈ (standIns h.sharedLabels s').1

theorem related_standIn {x y : Symbol} (rel : Symbol.Related R x y)
    (hx : ∀ A, x = .nonterminal A → A ∈ s.taken)
    (shared : ∀ a, x = .terminal a → a ∈ g.sharedLabels ∧ a ∈ h.sharedLabels) :
    Symbol.Related (Sided R g h s s') (standIn (standIns g.sharedLabels s).1 x)
      (standIn (standIns h.sharedLabels s').1 y) := by
  cases rel with
  | terminal a =>
    obtain ⟨X, hX, eq⟩ := exists_standIn ((mem_map_fst_standIns (s := s)).mpr (shared a rfl).1)
    obtain ⟨X', hX', eq'⟩ := exists_standIn ((mem_map_fst_standIns (s := s')).mpr (shared a rfl).2)
    rw [eq, eq']
    exact .nonterminal (.inr ⟨a, hX, hX'⟩)
  | nonterminal hR => exact .nonterminal (.inl ⟨hx _ rfl, hR⟩)

theorem related_map_standIn (rel : Related R α β) (hα : ∀ A, .nonterminal A ∈ α → A ∈ s.taken)
    (shared : ∀ a, .terminal a ∈ α → a ∈ g.sharedLabels ∧ a ∈ h.sharedLabels) :
    Related (Sided R g h s s') (α.map (standIn (standIns g.sharedLabels s).1))
      (β.map (standIn (standIns h.sharedLabels s').1)) := by
  induction rel with
  | nil => exact .nil
  | cons first _ ih =>
    refine .cons (related_standIn first ?_ ?_) (ih (fun A hA => hα A (List.mem_cons_of_mem _ hA))
      (fun a ha => shared a (List.mem_cons_of_mem _ ha)))
    · rintro A rfl
      exact hα A List.mem_cons_self
    · rintro a rfl
      exact shared a List.mem_cons_self

theorem related_separateRule (hr : r ∈ g.rules) (hβ : ⟨X', β⟩ ∈ h.rules) (rel : Related R r.rhs β)
    (names : r.names ⊆ s.taken) :
    Related (Sided R g h s s') (separateRule (standIns g.sharedLabels s).1 r).rhs
      (separateRule (standIns h.sharedLabels s').1 ⟨X', β⟩).rhs := by
  have old : ∀ A, .nonterminal A ∈ r.rhs → A ∈ s.taken :=
    fun A hA => names (Rule.mem_names.mpr (.inr hA))
  by_cases long : 2 ≤ r.rhs.length
  · have long' : 2 ≤ β.length := rel.length_eq ▸ long
    rw [separateRule, if_pos long, separateRule, if_pos long']
    refine related_map_standIn rel old (fun a ha => ⟨?_, ?_⟩)
    · exact mem_sharedLabels.mpr ⟨r, hr, long, ha⟩
    · exact mem_sharedLabels.mpr ⟨_, hβ, long', rel.mem_terminal.mp ha⟩
  · have short' : ¬2 ≤ β.length := rel.length_eq ▸ long
    rw [separateRule, if_neg long, separateRule, if_neg short']
    exact rel.imp (fun A _ hA _ hR => .inl ⟨old A hA, hR⟩)

theorem separated (sim : Simulation R g h) (hs : g.nonterminals ⊆ s.taken) (s' : NameSupply) :
    Simulation (Sided R g h s s') (g.separated s).1 (h.separated s').1 where
  start := .inl ⟨hs g.start_mem_nonterminals, sim.start⟩
  rule r hr B hR := by
    have names : ∀ r ∈ g.rules, r.names ⊆ s.taken := rules_names_subset hs
    rcases mem_separated.mp hr with ⟨r₀, hr₀, rfl⟩ | ⟨p, hp, rfl⟩
    · rw [lhs_separateRule] at hR
      have old : r₀.lhs ∈ s.taken := names r₀ hr₀ (Rule.mem_names.mpr (.inl rfl))
      obtain ⟨_, hAB⟩ | ⟨a, new, _⟩ := hR
      · obtain ⟨β, hβ, rel⟩ := sim.rule r₀ hr₀ B hAB
        have lhs : (separateRule (standIns h.sharedLabels s').1 ⟨B, β⟩).lhs = B := lhs_separateRule
        have mem : separateRule (standIns h.sharedLabels s').1 ⟨B, β⟩ ∈ (h.separated s').1.rules :=
          mem_separated.mpr (.inl ⟨_, hβ, rfl⟩)
        rw [← lhs]
        exact ⟨_, mem, related_separateRule hr₀ hβ rel (names r₀ hr₀)⟩
      · exact absurd old (standIns_names.2 _ new).2
    · obtain ⟨old, _⟩ | ⟨a, ha, ha'⟩ := hR
      · exact absurd old (standIns_names.2 p hp).2
      · obtain rfl : a = p.1 := label_of_standIn ha hp
        exact ⟨_, mem_separated.mpr (.inr ⟨_, ha', rfl⟩), .cons (.terminal _) .nil⟩

theorem exists_normalForm (start : g.start = h.start) (rules : g.rules ⊆ h.rules) :
    ∃ R, Simulation R g.normalForm h.normalForm ∧ ∀ A ∈ g.nonterminals, ∀ B, R A B → A = B := by
  have split := (of_subset start rules).useful.binary useful_subset_taken h.nameSupply
  have compact : Simulation _ g.compact h.compact := split.epsilonFree.unitFree.useful
  have apart := compact.separated compact_subset_taken h.short.2
  have same : ∀ g : Grammar, g.normalForm.start = (g.compact.separated g.short.2).1.start := by
    intro g
    rw [start_normalForm, start_separated, start_compact]
  refine ⟨_, apart.mono (same g) (same h).symm (fun _ => mem_normalForm.mp)
    (fun _ => mem_normalForm.mpr), ?_⟩
  rintro A hA B (⟨_, ⟨⟨_, hAB, _⟩ | ⟨new, _⟩, _⟩⟩ | ⟨a, new, _⟩)
  · exact hAB
  · exact absurd (mem_taken_nameSupply.mpr hA) new
  · exact absurd (nonterminals_subset_short_taken hA) (standIns_names.2 _ new).2

end ContextFreePaths.Grammar.Simulation
