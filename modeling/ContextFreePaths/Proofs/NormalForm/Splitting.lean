import Mathlib.Data.List.Nodup
import ContextFreePaths.Proofs.NormalForm.Binary

namespace ContextFreePaths.Grammar

variable {g : Grammar} {A lhs : Name} {α : List Symbol} {s : NameSupply} {rules : List Rule}
  {r r' : Rule}

theorem adds_chain (lhs : Name) (α : List Symbol) (s : NameSupply) :
    ∃ links, s.Adds (chain lhs α s).2 links ∧
      (chain lhs α s).1.map Rule.lhs = lhs :: links := by
  induction lhs, α, s using chain_induction with
  | short lhs α s h =>
    rw [chain_of_short h]
    exact ⟨[], .refl s, rfl⟩
  | long lhs z α s h ih =>
    rw [chain_of_long h]
    obtain ⟨links, adds, heads⟩ := ih
    exact ⟨s.next.1 :: links, NameSupply.adds_next.trans adds, congrArg (lhs :: ·) heads⟩

theorem adds_chains (rules : List Rule) (s : NameSupply) :
    ∃ links, s.Adds (chains rules s).2 links ∧
      ((chains rules s).1.map Rule.lhs).Perm (rules.map Rule.lhs ++ links) := by
  induction rules generalizing s with
  | nil => exact ⟨[], .refl s, .nil⟩
  | cons r rules ih =>
    obtain ⟨front, adds, heads⟩ := adds_chain r.lhs r.rhs.reverse s
    obtain ⟨back, adds', heads'⟩ := ih (chain r.lhs r.rhs.reverse s).2
    refine ⟨front ++ back, adds.trans adds', ?_⟩
    change (((chain r.lhs r.rhs.reverse s).1 ++ _).map Rule.lhs).Perm _
    rw [List.map_append, heads, List.map_cons, List.cons_append, List.cons_append]
    refine .cons r.lhs ((heads'.append_left front).trans ?_)
    exact List.perm_append_comm_assoc front (rules.map Rule.lhs) back

theorem lhs_of_mem_chain (hr : r ∈ (chain lhs α s).1) : r.lhs = lhs ∨ r.lhs ∉ s.taken := by
  obtain ⟨links, adds, heads⟩ := adds_chain lhs α s
  have mem : r.lhs ∈ lhs :: links := heads ▸ List.mem_map_of_mem hr
  exact (List.mem_cons.mp mem).imp_right (adds.fresh r.lhs)

theorem exists_head (lhs : Name) (α : List Symbol) (s : NameSupply) :
    ∃ r ∈ (chain lhs α s).1, r.lhs = lhs := by
  obtain ⟨links, _, heads⟩ := adds_chain lhs α s
  have mem : lhs ∈ (chain lhs α s).1.map Rule.lhs := heads ▸ List.mem_cons_self
  exact List.mem_map.mp mem

theorem exists_chain (s : NameSupply) (hr : r ∈ rules) :
    ∃ t : NameSupply, (chain r.lhs r.rhs.reverse t).1 ⊆ (chains rules s).1 := by
  induction rules generalizing s with
  | nil => exact absurd hr List.not_mem_nil
  | cons r' rules ih =>
    rcases List.mem_cons.mp hr with rfl | hr
    · exact ⟨s, List.subset_append_left _ _⟩
    · obtain ⟨t, ht⟩ := ih (chain r'.lhs r'.rhs.reverse s).2 hr
      exact ⟨t, List.Subset.trans ht (List.subset_append_right _ _)⟩

theorem exists_chain_of_mem (hs : ∀ r ∈ rules, r.names ⊆ s.taken) (hr : r ∈ (chains rules s).1) :
    ∃ r' ∈ rules, ∃ t : NameSupply, s.taken ⊆ t.taken ∧ r ∈ (chain r'.lhs r'.rhs.reverse t).1 ∧
      (chain r'.lhs r'.rhs.reverse t).1 ⊆ (chains rules s).1 := by
  induction rules generalizing s with
  | nil => exact absurd hr List.not_mem_nil
  | cons r' rules ih =>
    rw [List.forall_mem_cons] at hs
    obtain ⟨hlhs, hrhs⟩ := chain_lhs_rhs_taken hs.1
    have keeps := (chain_names hlhs hrhs).1
    rcases List.mem_append.mp hr with hr | hr
    · exact ⟨r', List.mem_cons_self, s, List.Subset.refl _, hr, List.subset_append_left _ _⟩
    · obtain ⟨r'', hr'', t, ht, mem, within⟩ :=
        ih (fun r hr => List.Subset.trans (hs.2 r hr) keeps) hr
      exact ⟨r'', List.mem_cons_of_mem r' hr'', t, List.Subset.trans keeps ht, mem,
        List.Subset.trans within (List.subset_append_right _ _)⟩

theorem nodup_new_heads (hs : ∀ r ∈ rules, r.names ⊆ s.taken) :
    (((chains rules s).1.filter (fun r => r.lhs ∉ s.taken)).map Rule.lhs).Nodup := by
  obtain ⟨links, adds, heads⟩ := adds_chains rules s
  have old : (rules.map Rule.lhs).filter (fun A => A ∉ s.taken) = [] := by
    simp only [List.filter_eq_nil_iff, List.forall_mem_map, decide_eq_true_eq, not_not]
    exact fun r hr => hs r hr (Rule.mem_names.mpr (.inl rfl))
  have perm := heads.filter (fun A => A ∉ s.taken)
  rw [List.filter_append, old, List.nil_append, List.filter_map] at perm
  exact perm.nodup_iff.mpr (adds.nodup.filter _)

theorem eq_of_lhs_of_mem_chains (hs : ∀ r ∈ rules, r.names ⊆ s.taken)
    (hr : r ∈ (chains rules s).1) (hr' : r' ∈ (chains rules s).1) (same : r.lhs = r'.lhs)
    (new : r.lhs ∉ s.taken) : r = r' := by
  have left : ∀ r₀ ∈ (chains rules s).1, r₀.lhs ∉ s.taken →
      r₀ ∈ (chains rules s).1.filter (fun r => r.lhs ∉ s.taken) :=
    fun _ mem new => List.mem_filter.mpr ⟨mem, decide_eq_true new⟩
  have new' : r'.lhs ∉ s.taken := same ▸ new
  exact List.inj_on_of_nodup_map (nodup_new_heads hs) (left r hr new) (left r' hr' new') same

theorem count_head_of_new (hs : g.nonterminals ⊆ s.taken)
    (hA : A ∈ (g.binary s).2.taken ∧ A ∉ s.taken) :
    ((g.binary s).1.rules.map Rule.lhs).count A = 1 := by
  obtain ⟨links, adds, heads⟩ := adds_chains g.rules s
  have link : A ∈ links := adds.mem_iff.mp hA
  have old : A ∉ g.rules.map Rule.lhs := by
    intro h
    obtain ⟨r, hr, rfl⟩ := List.mem_map.mp h
    exact hA.2 (rules_names_subset hs r hr (Rule.mem_names.mpr (.inl rfl)))
  calc ((g.binary s).1.rules.map Rule.lhs).count A
    _ = (g.rules.map Rule.lhs ++ links).count A := heads.count_eq A
    _ = 0 + 1 := by
      rw [List.count_append, List.count_eq_zero.mpr old, adds.nodup.count, if_pos link]

theorem mem_new_iff (hs : g.nonterminals ⊆ s.taken) :
    A ∈ (g.binary s).2.taken ∧ A ∉ s.taken ↔
      A ∈ (g.binary s).1.nonterminals ∧ A ∉ g.nonterminals := by
  constructor
  · intro hA
    have head : A ∈ (g.binary s).1.rules.map Rule.lhs := by
      rw [← List.count_pos_iff, count_head_of_new hs hA]
      exact Nat.one_pos
    obtain ⟨r, hr, rfl⟩ := List.mem_map.mp head
    have occurs := names_subset_nonterminals hr (Rule.mem_names.mpr (.inl rfl))
    exact ⟨occurs, fun old => hA.2 (hs old)⟩
  · rintro ⟨occurs, new⟩
    exact ⟨nonterminals_binary_subset hs occurs,
      fun taken => new (mem_nonterminals_of_binary hs taken occurs)⟩

/-- With a supply that knows the nonterminals, splitting leaves rules of at most two symbols, keeps
the words of each old nonterminal, and makes up names that each head one rule. The supply that
it gives back knows the nonterminals of the split grammar. -/
theorem binary_exact (g : Grammar) (s : NameSupply) (hs : g.nonterminals ⊆ s.taken) :
    (∀ r ∈ (g.binary s).1.rules, r.rhs.length ≤ 2) ∧
    (∀ A ∈ g.nonterminals, ∀ w, (g.binary s).1.Generates A w ↔ g.Generates A w) ∧
    (∀ A, A ∈ (g.binary s).2.taken ∧ A ∉ s.taken ↔
      A ∈ (g.binary s).1.nonterminals ∧ A ∉ g.nonterminals) ∧
    (∀ A ∈ (g.binary s).1.nonterminals, A ∉ g.nonterminals →
      ((g.binary s).1.rules.map Rule.lhs).count A = 1) ∧
    (g.binary s).1.nonterminals ⊆ (g.binary s).2.taken := by
  refine ⟨fun r hr => chains_short hr, fun A hA w => generates_binary hs (hs hA),
    fun A => mem_new_iff hs, fun A hA new => ?_, nonterminals_binary_subset hs⟩
  exact count_head_of_new hs ((mem_new_iff hs).mpr ⟨hA, new⟩)

def crowded : Grammar where
  start := "S"
  rules := [
    ⟨"S", [.nonterminal "g0", .terminal "a", .nonterminal "g2", .terminal "b"]⟩,
    ⟨"S", [.nonterminal "g0", .terminal "a", .nonterminal "g2", .terminal "b"]⟩,
    ⟨"g0", [.terminal "b", .nonterminal "S", .terminal "a"]⟩,
    ⟨"g0", []⟩,
    ⟨"g2", [.terminal "b"]⟩]

theorem crowded_binary_exact :
    let s := NameSupply.ofTaken crowded.nonterminals
    crowded.nonterminals ⊆ s.taken ∧ (crowded.binary s).1.rules.length = 10 ∧
      (∀ w, (crowded.binary s).1.Generates "S" w ↔ crowded.Generates "S" w) ∧
      ((crowded.binary s).1.rules.map Rule.lhs).count "g1" = 1 := by
  intro s
  have known : crowded.nonterminals ⊆ s.taken :=
    fun _ hA => NameSupply.mem_taken_ofTaken.mpr hA
  have length : (crowded.binary s).1.rules.length = 10 := by decide +kernel
  obtain ⟨_, words, _, heads, _⟩ := binary_exact crowded s known
  refine ⟨known, length, words "S" (by decide +kernel), heads "g1" ?_ ?_⟩
  · decide +kernel
  · decide +kernel

end ContextFreePaths.Grammar
