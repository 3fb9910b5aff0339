import ContextFreePaths.Proofs.NormalForm.Language
import ContextFreePaths.Proofs.NormalForm.StandIns
import ContextFreePaths.Proofs.NormalForm.UsedRules

namespace ContextFreePaths.Grammar

open Relation

variable {g h : Grammar} {A B X : Name} {a : Label} {s : NameSupply} {r : Rule}

theorem Trim.congr (hg : g.Trim) (start : h.start = g.start)
    (rules : ∀ r, r ∈ h.rules ↔ r ∈ g.rules) : h.Trim := by
  constructor
  · intro r hr A hA
    obtain ⟨w, hw⟩ := mem_productive.mp (hg.productive r ((rules r).mp hr) hA)
    exact mem_productive.mpr ⟨w, hw.mono (fun r hr => (rules r).mpr hr)⟩
  · intro r hr
    have same : h.LeadsTo = g.LeadsTo := by
      funext A B
      simp only [LeadsTo, rules]
    rw [mem_reachable, same, start]
    exact mem_reachable.mp (hg.reachable r ((rules r).mp hr))

theorem leadsTo_separated (step : g.LeadsTo A B) : (g.separated s).1.LeadsTo A B := by
  obtain ⟨r, mem, rfl, hB⟩ := step
  refine ⟨_, mem_separated.mpr (.inl ⟨r, mem, rfl⟩), lhs_separateRule, ?_⟩
  unfold separateRule
  split
  · exact List.mem_map.mpr ⟨_, hB, rfl⟩
  · exact hB

theorem exists_leadsTo_standIn (hX : (a, X) ∈ (standIns g.sharedLabels s).1) :
    ∃ r ∈ g.rules, (g.separated s).1.LeadsTo r.lhs X := by
  obtain ⟨r, mem, long, ha⟩ := shares_of_mem_standIns hX
  obtain ⟨Y, hY, stands⟩ := exists_standIn_of_shares s ⟨r, mem, long, ha⟩
  obtain rfl : Y = X := (sign_eq hY).symm.trans (sign_eq hX)
  refine ⟨r, mem, _, mem_separated.mpr (.inl ⟨r, mem, rfl⟩), lhs_separateRule, ?_⟩
  rw [separateRule, if_pos long, ← stands]
  exact List.mem_map_of_mem ha

theorem Trim.separated (hg : g.Trim) (hs : g.nonterminals ⊆ s.taken) :
    (g.separated s).1.Trim := by
  have stands : ∀ p ∈ (standIns g.sharedLabels s).1, p.2 ∈ (g.separated s).1.productive :=
    fun p hp => mem_productive.mpr ⟨[p.1], (generates_standIn hs hp).mpr rfl⟩
  have reach : ∀ r ∈ g.rules, r.lhs ∈ (g.separated s).1.reachable := by
    intro r hr
    exact mem_reachable.mpr (ReflTransGen.mono (fun _ _ => leadsTo_separated) _ _
      (mem_reachable.mp (hg.reachable r hr)))
  constructor
  · intro r hr A hA
    rcases mem_separated.mp hr with ⟨r', hr', rfl⟩ | ⟨p, hp, rfl⟩
    · rcases mem_names_separateRule hA with old | ⟨p, hp, rfl⟩
      · obtain ⟨w, hw⟩ := mem_productive.mp (hg.productive r' hr' old)
        have taken : A ∈ s.taken := hs (names_subset_nonterminals hr' old)
        exact mem_productive.mpr ⟨w, (generates_separated hs taken).mpr hw⟩
      · exact stands p hp
    · obtain rfl : A = p.2 := by simpa [Rule.mem_names] using hA
      exact stands p hp
  · intro r hr
    rcases mem_separated.mp hr with ⟨r', hr', rfl⟩ | ⟨p, hp, rfl⟩
    · rw [lhs_separateRule]
      exact reach r' hr'
    · obtain ⟨r', hr', step⟩ := exists_leadsTo_standIn hp
      exact mem_reachable.mpr ((mem_reachable.mp (reach r' hr')).tail step)

theorem trim_normalForm (g : Grammar) : g.normalForm.Trim := by
  have compact : g.compact.Trim := trim_useful _
  refine (compact.separated compact_subset_taken).congr ?_ (fun r => mem_normalForm)
  rw [start_normalForm, start_separated, start_compact]

theorem ascending_dedupRules_sortRules (g : Grammar) :
    SortedList.Ascending g.sortRules.dedupRules.rules :=
  SortedList.ascending_eraseReps (SortedList.pairwise_sort g.rules)

theorem ascending_normalForm (g : Grammar) : SortedList.Ascending g.normalForm.rules :=
  ascending_dedupRules_sortRules (g.compact.separated g.short.2).1

theorem IsNormal.length_le (hg : g.IsNormal) (hr : r ∈ g.rules) : r.rhs.length ≤ 2 := by
  rcases hg r hr with ⟨a, h⟩ | ⟨B, C, h⟩ <;> simp [h]

theorem IsNormal.isUnit_eq (hg : g.IsNormal) (hr : r ∈ g.rules) : r.isUnit = false := by
  rcases hg r hr with ⟨a, h⟩ | ⟨B, C, h⟩ <;> simp [Rule.isUnit, h, Symbol.isNonterminal]

theorem IsNormal.not_mem_of_long (hg : g.IsNormal) (hr : r ∈ g.rules) (long : 2 ≤ r.rhs.length) :
    .terminal a ∉ r.rhs := by
  rcases hg r hr with ⟨b, h⟩ | ⟨B, C, h⟩
  · simp [h] at long
  · simp [h]

theorem dedupRules_sortRules_of_ascending (hg : SortedList.Ascending g.rules) :
    g.sortRules.dedupRules = g := by
  rw [sortRules, SortedList.sort_of_ascending hg, dedupRules,
    SortedList.eraseReps_of_ascending hg]

theorem IsNormal.normalForm_eq_self (hg : g.IsNormal) (trim : g.Trim)
    (ascending : SortedList.Ascending g.rules) : g.normalForm = g := by
  have short : g.short = (g, g.nameSupply) := by
    rw [Grammar.short, trim.useful_eq, binary_of_short (fun r hr => hg.length_le hr)]
  have compact : g.compact = g := by
    rw [Grammar.compact, short, epsilonFree_of_nonempty hg.rhs_ne_nil,
      unitFree_of_proper (fun r hr => hg.isUnit_eq hr), trim.useful_eq]
  rw [normalForm_eq, compact, separated_of_apart (fun r hr long a => hg.not_mem_of_long hr long),
    dedupRules_sortRules_of_ascending ascending]

theorem normalForm_eq_self_iff :
    g.normalForm = g ↔ g.IsNormal ∧ g.Trim ∧ SortedList.Ascending g.rules := by
  constructor
  · intro same
    rw [← same]
    exact ⟨isNormal_normalForm g, trim_normalForm g, ascending_normalForm g⟩
  · rintro ⟨normal, trim, ascending⟩
    exact normal.normalForm_eq_self trim ascending

theorem normalForm_idempotent (g : Grammar) : g.normalForm.normalForm = g.normalForm :=
  normalForm_eq_self_iff.mpr ⟨isNormal_normalForm g, trim_normalForm g, ascending_normalForm g⟩

end ContextFreePaths.Grammar
