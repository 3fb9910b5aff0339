import ContextFreePaths.Proofs.NormalForm.FixedPoint
import ContextFreePaths.Proofs.RoundTrip
import ContextFreePaths.Proofs.WeakNormalForm

namespace ContextFreePaths

variable {g : Grammar} {r s : Rule} {rules : List Rule} {n : Nat}

theorem Token.writeName_injective {name other : Name} (h : writeName name = writeName other) :
    name = other := by
  rw [← readHead_writeName name, h, readHead_writeName]

namespace Rule

theorem write_eq_of_text_eq (h : r.text = s.text) : r.write = s.write :=
  String.ofList_injective h

theorem eq_of_text_of_nil (hr : r.rhs = []) (hs : s.rhs = []) (h : r.text = s.text) : r = s := by
  obtain ⟨A, α⟩ := r
  obtain ⟨B, β⟩ := s
  obtain rfl : α = [] := hr
  obtain rfl : β = [] := hs
  have same := write_eq_of_text_eq h
  rw [write, write, List.append_cancel_right_eq, List.append_cancel_right_eq] at same
  obtain rfl := Token.writeName_injective same
  rfl

theorem Legible.eq_of_text (hr : r.Legible) (hs : s.Legible) (h : r.text = s.text) : r = s := by
  have read := Grammar.readLine_write hr
  rw [write_eq_of_text_eq h, Grammar.readLine_write hs] at read
  simpa using read.symm

end Rule

def TextsApart (rules : List Rule) : Prop :=
  ∀ r s, [r, s, r].Sublist rules → r.text = s.text → r = s

theorem mem_of_twice (h : [r, s, r].Sublist rules) : r ∈ rules ∧ s ∈ rules :=
  ⟨h.subset List.mem_cons_self, h.subset (List.mem_cons_of_mem r List.mem_cons_self)⟩

theorem textsApart_of_injective (h : ∀ r ∈ rules, ∀ s ∈ rules, r.text = s.text → r = s) :
    TextsApart rules :=
  fun r s twice => h r (mem_of_twice twice).1 s (mem_of_twice twice).2

theorem textsApart_of_ascending (h : SortedList.Ascending rules) : TextsApart rules := by
  intro r s twice _
  have distinct := twice.nodup h.nodup
  simp at distinct

theorem textsApart_rulesOfLength_iff : TextsApart (g.rulesOfLength n) ↔
    ∀ r s, [r, s, r].Sublist g.rules → r.rhs.length = n → s.rhs.length = n →
      r.text = s.text → r = s := by
  constructor
  · intro apart r s twice hr hs
    have kept := twice.filter (fun r => r.rhs.length = n)
    simp only [List.filter_cons, hr, hs, decide_true, if_true, List.filter_nil] at kept
    exact apart r s kept
  · intro apart r s twice
    obtain ⟨hr, hs⟩ := mem_of_twice twice
    exact apart r s (twice.trans List.filter_sublist) (Grammar.mem_rulesOfLength.mp hr).2
      (Grammar.mem_rulesOfLength.mp hs).2

theorem textsApart_empty : TextsApart (g.rulesOfLength 0) := by
  refine textsApart_of_injective (fun r hr s hs => Rule.eq_of_text_of_nil ?_ ?_)
  · exact List.length_eq_zero_iff.mp (Grammar.mem_rulesOfLength.mp hr).2
  · exact List.length_eq_zero_iff.mp (Grammar.mem_rulesOfLength.mp hs).2

namespace WeakNormalForm

variable {ps : List Production}

theorem arrange_eq : arrange ps =
    (SortedList.sortBy (fun p q => (compare p.text q.text).isLE) ps).eraseReps := by
  have keyed : SortedList.sortBy (fun p q => (compare p.1 q.1).isLE)
      (ps.map (fun p => (p.text, p))) =
        (SortedList.sortBy (fun p q => (compare p.text q.text).isLE) ps).map
          (fun p => (p.text, p)) :=
    SortedList.map_sortBy.symm
  rw [arrange]
  simp only [keyed, List.map_map]
  congr 1
  exact List.map_id _

theorem pairwise_arrange (ps : List Production) :
    (arrange ps).Pairwise (fun p q => (compare p.text q.text).isLE = true) := by
  rw [arrange_eq]
  exact (SortedList.pairwise_sortBy_key Production.text ps).sublist (SortedList.eraseReps_sublist _)

theorem nodup_arrange_iff (h : ps.map Production.toRule = rules) :
    (arrange ps).Nodup ↔ TextsApart rules := by
  rw [arrange_eq, SortedList.nodup_eraseReps_sortBy_key_iff, ← h]
  constructor
  · intro apart r s twice same
    obtain ⟨l, hl, shape⟩ := List.sublist_map_iff.mp twice
    obtain ⟨p, l₁, rfl, rfl, shape₁⟩ := List.map_eq_cons_iff.mp shape.symm
    obtain ⟨q, l₂, rfl, rfl, shape₂⟩ := List.map_eq_cons_iff.mp shape₁
    obtain ⟨p', l₃, rfl, again, shape₃⟩ := List.map_eq_cons_iff.mp shape₂
    obtain rfl := List.map_eq_nil_iff.mp shape₃
    obtain rfl := Production.toRule_injective again
    rw [apart p' q hl same]
  · intro apart p q twice same
    exact Production.toRule_injective (apart p.toRule q.toRule (twice.map Production.toRule) same)

theorem textsApart_basis_iff :
    TextsApart ((basis g).rulesOfLength 1) ∧ TextsApart ((basis g).rulesOfLength 2) ↔
      (g.isWeakNormal = true → ∀ r s, [r, s, r].Sublist g.rules →
        r.rhs.length = s.rhs.length → r.text = s.text → r = s) := by
  by_cases hg : g.isWeakNormal = true
  · rw [basis, if_pos hg, textsApart_rulesOfLength_iff, textsApart_rulesOfLength_iff]
    constructor
    · rintro ⟨unary, binary⟩ _ r s twice same
      have short := Production.length_le_of_isWeakNormal
        (List.all_eq_true.mp hg r (mem_of_twice twice).1)
      have cases : r.rhs.length = 0 ∨ r.rhs.length = 1 ∨ r.rhs.length = 2 := by omega
      rcases cases with h | h | h
      · exact Rule.eq_of_text_of_nil (List.length_eq_zero_iff.mp h)
          (List.length_eq_zero_iff.mp (same ▸ h))
      · exact unary r s twice h (same ▸ h)
      · exact binary r s twice h (same ▸ h)
    · intro apart
      exact ⟨fun r s twice hr hs => apart hg r s twice (hr.trans hs.symm),
        fun r s twice hr hs => apart hg r s twice (hr.trans hs.symm)⟩
  · -- A normal form has each rule once.
    rw [basis, if_neg hg]
    have apart : ∀ n, TextsApart (g.normalForm.rulesOfLength n) := fun n =>
      textsApart_of_ascending ((Grammar.ascending_normalForm g).filter _)
    exact ⟨fun _ weak => absurd weak hg, fun _ => ⟨apart 1, apart 2⟩⟩

/-- The productions of each form ascend by their written form, and the empty ones are distinct.
The others are distinct too, unless the grammar was written in weak normal form and some rule of
it stands before and after another one of its length and its written form. In a grammar that was
read from a text no two rules are written alike. -/
theorem sorted_sets_iff (g : Grammar) : ∃ f, ofGrammar g = .ok f ∧
    (∀ ps ∈ [f.epsilon, f.unary, f.binary],
      ps.Pairwise (fun p q => (compare p.text q.text).isLE = true)) ∧
    f.epsilon.Nodup ∧
    (f.unary.Nodup ∧ f.binary.Nodup ↔ (g.isWeakNormal = true →
      ∀ r s, [r, s, r].Sublist g.rules → r.rhs.length = s.rhs.length → r.text = s.text → r = s)) ∧
    (g.Legible → f.unary.Nodup ∧ f.binary.Nodup) := by
  obtain ⟨es, us, bs, run, hes, hus, hbs⟩ := exists_lists g
  have distinct_iff : (arrange us).Nodup ∧ (arrange bs).Nodup ↔
      TextsApart ((basis g).rulesOfLength 1) ∧ TextsApart ((basis g).rulesOfLength 2) :=
    and_congr (nodup_arrange_iff hus) (nodup_arrange_iff hbs)
  refine ⟨_, run, ?_, (nodup_arrange_iff hes).mpr textsApart_empty,
    distinct_iff.trans textsApart_basis_iff, fun legible => ?_⟩
  · simp only [List.forall_mem_cons, List.not_mem_nil, false_implies, implies_true, and_true]
    exact ⟨pairwise_arrange es, pairwise_arrange us, pairwise_arrange bs⟩
  · refine (distinct_iff.trans textsApart_basis_iff).mpr (fun _ r s twice _ => ?_)
    obtain ⟨hr, hs⟩ := mem_of_twice twice
    exact (legible r hr).eq_of_text (legible s hs)

def alternating : Grammar where
  start := "S"
  rules := [
    ⟨"S", [.nonterminal "A", .nonterminal "A"]⟩,
    ⟨"S", [.nonterminal "A", .nonterminal "b"]⟩,
    ⟨"S", [.nonterminal "A", .nonterminal "A"]⟩,
    ⟨"A", []⟩,
    ⟨"A", [.terminal "a"]⟩,
    ⟨"A", [.terminal "A"]⟩,
    ⟨"A", [.terminal "a"]⟩]

def alternatingText : String :=
  "S -> A A | A VAR:b | A A
A -> $ | a | TER:A | a"

theorem alternating_sorted_sets : Grammar.ofText "S" alternatingText = .ok alternating ∧
    alternating.isWeakNormal = true ∧
    ∃ f, ofGrammar alternating = .ok f ∧ f.unary.Nodup ∧ f.binary.Nodup ∧
      ∀ r s, [r, s, r].Sublist alternating.rules → r.rhs.length = s.rhs.length →
        r.text = s.text → r = s := by
  have loaded : Grammar.ofText "S" alternatingText = .ok alternating := by decide +kernel
  have weak : alternating.isWeakNormal = true := by decide
  obtain ⟨f, run, _, _, distinct, read⟩ := sorted_sets_iff alternating
  obtain ⟨unary, binary⟩ := read (Grammar.legible_of_ofText loaded).2
  exact ⟨loaded, weak, f, run, unary, binary, distinct.mp ⟨unary, binary⟩ weak⟩

/-- Names with blanks and marks inside: both bodies are written `VAR:a VAR:b VAR:c`. -/
def blended : Grammar where
  start := "S"
  rules := [
    ⟨"S", [.nonterminal "a VAR:b", .nonterminal "c"]⟩,
    ⟨"S", [.nonterminal "a", .nonterminal "b VAR:c"]⟩,
    ⟨"S", [.nonterminal "a VAR:b", .nonterminal "c"]⟩]

theorem blended_binary_repeats : ∃ f, ofGrammar blended = .ok f ∧
    f.binary = [⟨"S", .binary "a VAR:b" "c"⟩, ⟨"S", .binary "a" "b VAR:c"⟩,
      ⟨"S", .binary "a VAR:b" "c"⟩] ∧ ¬f.binary.Nodup := by
  obtain ⟨f, run, _⟩ := exists_ofGrammar blended
  have binary : (ofGrammar blended).toOption.map WeakNormalForm.binary =
      some [⟨"S", .binary "a VAR:b" "c"⟩, ⟨"S", .binary "a" "b VAR:c"⟩,
        ⟨"S", .binary "a VAR:b" "c"⟩] := by decide +kernel
  rw [run] at binary
  have lists := Option.some.inj binary
  refine ⟨f, run, lists, ?_⟩
  rw [lists]
  decide

end WeakNormalForm

end ContextFreePaths
