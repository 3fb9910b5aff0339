import Mathlib.Data.List.Nodup
import ContextFreePaths.Grammar.NormalForm
import ContextFreePaths.Proofs.NameRelation

namespace ContextFreePaths.Grammar

open Interpretation

variable {g : Grammar} {S T : Interpretation} {labels : List Label} {pairs : List (Label × Name)}
  {α : List Symbol} {s : NameSupply} {r : Rule} {a b : Label} {A : Name} {w : Word}

theorem standIns_cons : standIns (a :: labels) s =
    ((a, (s.fresh ("T_" ++ a)).1) :: (standIns labels (s.fresh ("T_" ++ a)).2).1,
      (standIns labels (s.fresh ("T_" ++ a)).2).2) :=
  rfl

theorem map_fst_standIns : (standIns labels s).1.map Prod.fst = labels := by
  induction labels generalizing s with
  | nil => rfl
  | cons a labels ih => rw [standIns_cons, List.map_cons, ih]

theorem mem_map_fst_standIns : a ∈ (standIns labels s).1.map Prod.fst ↔ a ∈ labels := by
  rw [map_fst_standIns]

theorem adds_standIns (labels : List Label) (s : NameSupply) :
    s.Adds (standIns labels s).2 ((standIns labels s).1.map Prod.snd) := by
  induction labels generalizing s with
  | nil => exact .refl s
  | cons a labels ih =>
    rw [standIns_cons]
    exact NameSupply.adds_fresh.trans (ih _)

theorem label_of_standIn (ha : (a, A) ∈ (standIns labels s).1)
    (hb : (b, A) ∈ (standIns labels s).1) : a = b :=
  congrArg Prod.fst (List.inj_on_of_nodup_map (adds_standIns labels s).nodup ha hb rfl)

theorem standIns_names : s.taken ⊆ (standIns labels s).2.taken ∧
    ∀ p ∈ (standIns labels s).1, p.2 ∈ (standIns labels s).2.taken ∧ p.2 ∉ s.taken := by
  have adds := adds_standIns labels s
  exact ⟨adds.taken_subset, fun p hp => adds.mem_iff.mpr (List.mem_map_of_mem hp)⟩

theorem exists_model_standIns (S : Interpretation) (labels : List Label) (s : NameSupply) :
    ∃ T : Interpretation, S.AgreesOn T s.taken ∧
      ∀ p ∈ (standIns labels s).1, ∀ w, T p.2 w ↔ w = [p.1] := by
  induction labels generalizing S s with
  | nil => exact ⟨S, fun _ _ => rfl, fun _ h => absurd h List.not_mem_nil⟩
  | cons a labels ih =>
    rw [standIns_cons]
    -- The new name is read as its terminal, and no old name is read otherwise than before.
    let S' : Interpretation := Function.update S (s.fresh ("T_" ++ a)).1 (fun w => w = [a])
    have agree : S.AgreesOn S' s.taken := agreesOn_update NameSupply.fresh_not_mem
    obtain ⟨T, hT, words⟩ := ih S' (s.fresh ("T_" ++ a)).2
    refine ⟨T, agree.trans (hT.mono NameSupply.taken_subset_fresh), ?_⟩
    intro p hp w
    rcases List.mem_cons.mp hp with rfl | hp
    · rw [← hT _ NameSupply.fresh_mem_taken]
      simp only [S', Function.update_self]
    · exact words p hp w

theorem standIn_terminal : standIn pairs (.terminal a) =
    match pairs.lookup a with
    | some X => .nonterminal X
    | none => .terminal a := by
  rfl

theorem spells_standIn (hT : ∀ p ∈ pairs, ∀ w, T p.2 w ↔ w = [p.1]) {x : Symbol} :
    T.Spells [standIn pairs x] w ↔ T.Spells [x] w := by
  cases x with
  | nonterminal A => rfl
  | terminal a =>
    rw [standIn_terminal]
    cases h : pairs.lookup a with
    | none => rfl
    | some X =>
      simp only [spells_nonterminal, spells_terminal, hT _ (SortedList.mem_of_lookup h)]

theorem spells_map_standIn (hT : ∀ p ∈ pairs, ∀ w, T p.2 w ↔ w = [p.1]) :
    T.Spells (α.map (standIn pairs)) w ↔ T.Spells α w := by
  induction α generalizing w with
  | nil => rfl
  | cons x α ih =>
    rw [List.map_cons, spells_cons, spells_cons (α := α)]
    simp only [spells_standIn hT, ih]

@[simp] theorem lhs_separateRule : (separateRule pairs r).lhs = r.lhs := by
  unfold separateRule
  split <;> rfl

theorem spells_separateRule (hT : ∀ p ∈ pairs, ∀ w, T p.2 w ↔ w = [p.1]) :
    T.Spells (separateRule pairs r).rhs w ↔ T.Spells r.rhs w := by
  unfold separateRule
  split
  · exact spells_map_standIn hT
  · rfl

@[simp] theorem start_separated : (g.separated s).1.start = g.start :=
  rfl

theorem mem_separated : r ∈ (g.separated s).1.rules ↔
    (∃ r' ∈ g.rules, separateRule (standIns g.sharedLabels s).1 r' = r) ∨
      ∃ p ∈ (standIns g.sharedLabels s).1, r = ⟨p.2, [.terminal p.1]⟩ := by
  simp only [separated, List.mem_append, List.mem_map, (SortedList.sortBy_perm _ _).mem_iff,
    eq_comm (b := r)]

theorem exists_model_separated (hs : g.nonterminals ⊆ s.taken) (hS : S.Models g.rules) :
    ∃ T : Interpretation, S.AgreesOn T s.taken ∧ T.Models (g.separated s).1.rules ∧
      ∀ p ∈ (standIns g.sharedLabels s).1, ∀ w, T p.2 w ↔ w = [p.1] := by
  obtain ⟨T, hT, words⟩ := exists_model_standIns S g.sharedLabels s
  have models : T.Models g.rules :=
    hS.of_agreesOn hT (fun r hr => List.Subset.trans (names_subset_nonterminals hr) hs)
  refine ⟨T, hT, ?_, words⟩
  intro r hr w hw
  rcases mem_separated.mp hr with ⟨r', hr', rfl⟩ | ⟨p, hp, rfl⟩
  · rw [lhs_separateRule]
    exact models r' hr' w ((spells_separateRule words).mp hw)
  · exact (words p hp w).mpr (spells_terminal.mp hw)

theorem generates_standIn (hs : g.nonterminals ⊆ s.taken) {p : Label × Name}
    (hp : p ∈ (standIns g.sharedLabels s).1) :
    (g.separated s).1.Generates p.2 w ↔ w = [p.1] := by
  constructor
  · intro h
    obtain ⟨T, _, models, words⟩ := exists_model_separated hs g.models_generates
    exact (words p hp w).mp (models.generates h)
  · rintro rfl
    have mem : ⟨p.2, [.terminal p.1]⟩ ∈ (g.separated s).1.rules :=
      mem_separated.mpr (.inr ⟨p, hp, rfl⟩)
    exact models_generates _ _ mem _ (spells_terminal.mpr rfl)

theorem generates_separated (hs : g.nonterminals ⊆ s.taken) (hA : A ∈ s.taken) :
    (g.separated s).1.Generates A w ↔ g.Generates A w := by
  constructor
  · intro h
    obtain ⟨T, hT, models, _⟩ := exists_model_separated hs g.models_generates
    rw [hT A hA]
    exact models.generates h
  · intro h
    refine Models.generates (S := (g.separated s).1.Generates) ?_ h
    intro r hr u hu
    have mem : separateRule (standIns g.sharedLabels s).1 r ∈ (g.separated s).1.rules :=
      mem_separated.mpr (.inl ⟨r, hr, rfl⟩)
    have same : (separateRule (standIns g.sharedLabels s).1 r).lhs = r.lhs := lhs_separateRule
    rw [← same]
    apply models_generates _ _ mem
    exact (spells_separateRule (fun p hp w => generates_standIn hs hp)).mpr hu

theorem standIn_eq_nonterminal {x : Symbol} (h : standIn pairs x = .nonterminal A) :
    x = .nonterminal A ∨ ∃ p ∈ pairs, p.2 = A := by
  cases x with
  | nonterminal B => exact .inl h
  | terminal a =>
    rw [standIn_terminal] at h
    cases hl : pairs.lookup a with
    | none => simp [hl] at h
    | some X =>
      simp only [hl, Symbol.nonterminal.injEq] at h
      exact .inr ⟨(a, X), SortedList.mem_of_lookup hl, h⟩

theorem mem_names_separateRule (hA : A ∈ (separateRule pairs r).names) :
    A ∈ r.names ∨ ∃ p ∈ pairs, p.2 = A := by
  rw [Rule.mem_names, lhs_separateRule] at hA
  rcases hA with rfl | hA
  · exact .inl (Rule.mem_names.mpr (.inl rfl))
  · unfold separateRule at hA
    split at hA
    · obtain ⟨x, hx, hxA⟩ := List.mem_map.mp hA
      rcases standIn_eq_nonterminal hxA with rfl | hp
      · exact .inl (Rule.mem_names.mpr (.inr hx))
      · exact .inr hp
    · exact .inl (Rule.mem_names.mpr (.inr hA))

theorem mem_nonterminals_separated (hA : A ∈ (g.separated s).1.nonterminals) :
    A ∈ g.nonterminals ∨ ∃ p ∈ (standIns g.sharedLabels s).1, p.2 = A := by
  rcases mem_nonterminals.mp hA with rfl | ⟨r, hr, hA⟩
  · exact .inl (mem_nonterminals.mpr (.inl rfl))
  · rcases mem_separated.mp hr with ⟨r', hr', rfl⟩ | ⟨p, hp, rfl⟩
    · exact (mem_names_separateRule hA).imp_left (fun hA => names_subset_nonterminals hr' hA)
    · obtain rfl : A = p.2 := by simpa [Rule.mem_names] using hA
      exact .inr ⟨p, hp, rfl⟩

theorem mem_nonterminals_of_separated (hA : A ∈ s.taken)
    (h : A ∈ (g.separated s).1.nonterminals) : A ∈ g.nonterminals := by
  rcases mem_nonterminals_separated h with h | ⟨p, hp, rfl⟩
  · exact h
  · exact absurd hA (standIns_names.2 p hp).2

theorem mem_sharedLabels :
    a ∈ g.sharedLabels ↔ ∃ r ∈ g.rules, 2 ≤ r.rhs.length ∧ .terminal a ∈ r.rhs := by
  simp only [sharedLabels, FirstSeen.mem_ofList, List.mem_flatMap, List.mem_filter,
    decide_eq_true_eq, Rule.mem_rhsLabels, and_assoc]

theorem exists_standIn (ha : a ∈ pairs.map Prod.fst) :
    ∃ X, (a, X) ∈ pairs ∧ standIn pairs (.terminal a) = .nonterminal X := by
  rw [standIn_terminal]
  cases hl : pairs.lookup a with
  | some X => exact ⟨X, SortedList.mem_of_lookup hl, rfl⟩
  | none =>
    obtain ⟨p, hp, rfl⟩ := List.mem_map.mp ha
    have := List.lookup_eq_none_iff.mp hl p hp
    simp at this

theorem isNonterminal_standIn {x : Symbol} (h : ∀ a, x = .terminal a → a ∈ pairs.map Prod.fst) :
    (standIn pairs x).isNonterminal = true := by
  cases x with
  | nonterminal A => rfl
  | terminal a =>
    obtain ⟨X, _, eq⟩ := exists_standIn (h a rfl)
    rw [eq]
    rfl

theorem length_separateRule : (separateRule pairs r).rhs.length = r.rhs.length := by
  unfold separateRule
  split
  · exact List.length_map _
  · rfl

theorem rhs_of_mem_separated (hr : r ∈ (g.separated s).1.rules) :
    (∃ a, r.rhs = [.terminal a]) ∨ ∃ r' ∈ g.rules, r.rhs.length = r'.rhs.length ∧
      (r'.rhs.length < 2 → r.rhs = r'.rhs) ∧
      (2 ≤ r'.rhs.length → ∀ x ∈ r.rhs, x.isNonterminal = true) := by
  rcases mem_separated.mp hr with ⟨r', hr', rfl⟩ | ⟨p, _, rfl⟩
  · refine .inr ⟨r', hr', length_separateRule, ?_, ?_⟩
    · intro h
      rw [separateRule, if_neg (by omega)]
    · intro h x hx
      rw [separateRule, if_pos h] at hx
      obtain ⟨y, hy, rfl⟩ := List.mem_map.mp hx
      apply isNonterminal_standIn
      rintro a rfl
      exact mem_map_fst_standIns.mpr (mem_sharedLabels.mpr ⟨r', hr', h, hy⟩)
  · exact .inl ⟨p.1, rfl⟩

theorem standIn_nil {x : Symbol} : standIn [] x = x := by
  cases x <;> rfl

theorem separateRule_nil : separateRule [] r = r := by
  unfold separateRule
  split
  · have same : r.rhs.map (standIn []) = r.rhs :=
      (List.map_congr_left (fun _ _ => standIn_nil)).trans (List.map_id _)
    rw [same]
  · rfl

theorem separated_of_apart (h : ∀ r ∈ g.rules, 2 ≤ r.rhs.length → ∀ a, .terminal a ∉ r.rhs) :
    g.separated s = (g, s) := by
  have none : g.sharedLabels = [] := by
    refine List.eq_nil_iff_forall_not_mem.mpr (fun a ha => ?_)
    obtain ⟨r, hr, long, mem⟩ := mem_sharedLabels.mp ha
    exact h r hr long a mem
  have same : g.rules.map (separateRule []) = g.rules :=
    (List.map_congr_left (fun _ _ => separateRule_nil)).trans (List.map_id _)
  rw [separated, none]
  change ({ g with rules := g.rules.map (separateRule []) ++ [] }, s) = (g, s)
  rw [same, List.append_nil]

end ContextFreePaths.Grammar
