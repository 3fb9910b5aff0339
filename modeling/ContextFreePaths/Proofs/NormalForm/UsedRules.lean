import ContextFreePaths.Proofs.NormalForm.Useful
import ContextFreePaths.Proofs.Rewriting

namespace ContextFreePaths.Grammar

open Interpretation Relation

variable {g : Grammar} {α β : List Symbol} {A : Name} {w : Word} {r : Rule}

def Uses (g : Grammar) (r : Rule) : Prop :=
  r ∈ g.rules ∧ ∃ α β, ∃ w : Word,
    g.Rewrites [.nonterminal g.start] α ∧ r.Rewrites α β ∧ g.Rewrites β (w.map .terminal)

structure Trim (g : Grammar) : Prop where
  productive : ∀ r ∈ g.rules, r.names ⊆ g.productive
  reachable : ∀ r ∈ g.rules, r.lhs ∈ g.reachable

theorem exists_derives_iff :
    (∃ w, g.Derives α w) ↔ ∀ A, .nonterminal A ∈ α → A ∈ g.productive := by
  simp only [mem_productive, ← spells_generates, exists_spells_iff]

theorem within_productive_of_rewrites_rule (mem : r ∈ g.rules) (step : r.Rewrites α β)
    (hβ : g.Derives β w) : r ∈ (g.within g.productive).rules := by
  have before := exists_derives_iff.mp ⟨w, derives_of_rewrites_rule mem step hβ⟩
  have after := exists_derives_iff.mp ⟨w, hβ⟩
  refine mem_within.mpr ⟨mem, fun A hA => ?_⟩
  cases step with
  | mk γ δ =>
    rcases Rule.mem_names.mp hA with rfl | hA
    · exact before _ (List.mem_append_right γ List.mem_cons_self)
    · exact after A (List.mem_append_left δ (List.mem_append_right γ hA))

theorem Rewrites.within_productive (hα : g.Rewrites α β) (hβ : g.Derives β w) :
    (g.within g.productive).Rewrites α β := by
  induction hα using ReflTransGen.head_induction_on with
  | refl => exact .refl
  | head step rest ih =>
    obtain ⟨r, mem, step⟩ := step
    have kept := within_productive_of_rewrites_rule mem step (Rewrites.derives rest hβ)
    exact ih.head ⟨r, kept, step⟩

theorem Uses.mem_useful (hr : g.Uses r) : r ∈ g.useful.rules := by
  obtain ⟨mem, α, β, w, front, step, back⟩ := hr
  have hβ : g.Derives β w := rewrites_terminals.mp back
  have hα : g.Derives α w := derives_of_rewrites_rule mem step hβ
  have start : g.start ∈ g.productive := mem_productive.mpr ⟨w, front.derives hα⟩
  have kept := mem_within.mp (within_productive_of_rewrites_rule mem step hβ)
  refine Grammar.mem_useful.mpr ⟨start, mem, kept.2, mem_reachable.mpr ?_⟩
  have occurs : .nonterminal r.lhs ∈ α := by
    cases step with
    | mk γ δ => exact List.mem_append_right γ List.mem_cons_self
  obtain ⟨A, hA, chain⟩ := (front.within_productive hα).exists_leadsTo occurs
  obtain rfl : A = g.start := by simpa using hA
  exact chain

theorem uses_of_mem_useful (hr : r ∈ g.useful.rules) : g.Uses r := by
  obtain ⟨_, mem, names, reach⟩ := mem_useful.mp hr
  obtain ⟨β, γ, front, context⟩ := exists_rewrites_of_leadsTo (mem_reachable.mp reach)
  have step := Rule.Rewrites.mk (r := r) β γ
  have productive : ∀ A, .nonterminal A ∈ β ++ r.rhs ++ γ → A ∈ g.productive := by
    intro A hA
    rw [List.mem_append, List.mem_append, or_right_comm, ← List.mem_append] at hA
    rcases hA with hA | hA
    · obtain ⟨r', hr', hA⟩ := context _ hA
      exact (mem_within.mp hr').2 (Rule.mem_names.mpr (.inr hA))
    · exact names (Rule.mem_names.mpr (.inr hA))
  obtain ⟨w, back⟩ := exists_derives_iff.mpr productive
  exact ⟨mem, _, _, w, front.mono (fun r hr => (mem_within.mp hr).1), step,
    rewrites_of_derives back⟩

theorem uses_iff : g.Uses r ↔ r ∈ g.useful.rules :=
  ⟨Uses.mem_useful, uses_of_mem_useful⟩

instance : DecidablePred g.Uses :=
  fun _ => decidable_of_iff _ uses_iff.symm

-- The second rule leads to A, but B derives no word, so a derivation of a word does not get there.
example :
    let g : Grammar := ⟨"S", [⟨"S", [.terminal "a"]⟩, ⟨"S", [.nonterminal "A", .nonterminal "B"]⟩,
      ⟨"A", [.terminal "a"]⟩, ⟨"B", [.nonterminal "B", .terminal "b"]⟩]⟩
    g.Uses ⟨"S", [.terminal "a"]⟩ ∧ ¬ g.Uses ⟨"A", [.terminal "a"]⟩ := by
  decide +kernel

theorem exists_filter (g : Grammar) :
    ∃ keep : Rule → Bool, g.useful.rules = g.rules.filter keep := by
  unfold useful
  split
  · exact ⟨_, List.filter_filter⟩
  · exact ⟨fun _ => false, (List.filter_eq_nil_iff.mpr (fun _ _ => Bool.false_ne_true)).symm⟩

theorem rules_useful (g : Grammar) : g.useful.rules = g.rules.filter (fun r => g.Uses r) := by
  obtain ⟨keep, h⟩ := exists_filter g
  rw [h]
  refine List.filter_congr (fun r hr => ?_)
  rw [Bool.eq_iff_iff, decide_eq_true_eq, uses_iff, h, List.mem_filter]
  exact (and_iff_right hr).symm

theorem leadsTo_useful (hs : g.start ∈ g.productive)
    (chain : ReflTransGen (g.within g.productive).LeadsTo g.start A) :
    ReflTransGen g.useful.LeadsTo g.start A := by
  induction chain with
  | refl => exact .refl
  | tail front step ih =>
    -- The left side of the rule is at the end of the front of the chain, hence reachable.
    obtain ⟨r, mem, rfl, hA⟩ := step
    obtain ⟨old, names⟩ := mem_within.mp mem
    have kept : r ∈ g.useful.rules := mem_useful.mpr ⟨hs, old, names, mem_reachable.mpr front⟩
    exact ih.tail ⟨r, kept, rfl, hA⟩

theorem trim_useful (g : Grammar) : g.useful.Trim := by
  constructor
  · intro r hr A hA
    have left : A ∈ g.useful.nonterminals := names_subset_nonterminals hr hA
    obtain ⟨w, hw⟩ := mem_productive.mp ((mem_useful.mp hr).2.2.1 hA)
    exact mem_productive.mpr ⟨w, (generates_useful left).mpr hw⟩
  · intro r hr
    obtain ⟨hs, _, _, reach⟩ := mem_useful.mp hr
    rw [mem_reachable, start_useful]
    exact leadsTo_useful hs (mem_reachable.mp reach)

theorem Trim.names_subset_reachable (hg : g.Trim) (hr : r ∈ g.rules) : r.names ⊆ g.reachable := by
  intro A hA
  have reach := hg.reachable r hr
  rcases Rule.mem_names.mp hA with rfl | hA
  · exact reach
  · exact mem_reachable.mpr ((mem_reachable.mp reach).tail ⟨r, hr, rfl, hA⟩)

theorem Trim.start_mem_productive (hg : g.Trim) (hr : r ∈ g.rules) : g.start ∈ g.productive := by
  have lhs : ∀ r' ∈ g.rules, r'.lhs ∈ g.productive :=
    fun r' hr' => hg.productive r' hr' (Rule.mem_names.mpr (.inl rfl))
  rcases (mem_reachable.mp (hg.reachable r hr)).cases_head with start | ⟨_, ⟨r', hr', start, _⟩, _⟩
  · exact start ▸ lhs r hr
  · exact start ▸ lhs r' hr'

theorem Trim.mem_useful (hg : g.Trim) (hr : r ∈ g.rules) : r ∈ g.useful.rules := by
  refine Grammar.mem_useful.mpr ⟨hg.start_mem_productive hr, hr, hg.productive r hr, ?_⟩
  have chain := mem_reachable.mp (hg.reachable r hr)
  refine mem_reachable.mpr (ReflTransGen.mono ?_ _ _ chain)
  rintro A B ⟨r', hr', hA, hB⟩
  exact ⟨r', mem_within.mpr ⟨hr', hg.productive r' hr'⟩, hA, hB⟩

theorem Trim.useful_eq (hg : g.Trim) : g.useful = g := by
  have rules : g.useful.rules = g.rules := by
    rw [rules_useful, List.filter_eq_self]
    exact fun r hr => decide_eq_true (uses_of_mem_useful (hg.mem_useful hr))
  exact congrArg₂ Grammar.mk start_useful rules

/-- The rules that remain are the used ones, each as often as before and in the same order. No word
of the start symbol is lost, nothing remains to be removed, and each name of a rule that remains is
productive and reachable. -/
theorem useful_exact (g : Grammar) :
    g.useful.start = g.start ∧
    g.useful.rules = g.rules.filter (fun r => g.Uses r) ∧
    (∀ w, g.useful.Generates g.start w ↔ g.Generates g.start w) ∧
    g.useful.useful = g.useful ∧
    ∀ r ∈ g.useful.rules, ∀ A ∈ r.names,
      (∃ w, g.useful.Generates A w) ∧
      ∃ β γ, g.useful.Rewrites [.nonterminal g.start] (β ++ .nonterminal A :: γ) := by
  have trim := trim_useful g
  have start : g.start ∈ g.useful.nonterminals := mem_nonterminals.mpr (.inl start_useful.symm)
  refine ⟨start_useful, rules_useful g, fun w => generates_useful start, trim.useful_eq, ?_⟩
  intro r hr A hA
  have reach := mem_reachable.mp (trim.names_subset_reachable hr hA)
  rw [start_useful] at reach
  exact ⟨mem_productive.mp (trim.productive r hr hA), leadsTo_iff_rewrites.mp reach⟩

end ContextFreePaths.Grammar
