import ContextFreePaths.Proofs.NormalForm.Separated

namespace ContextFreePaths.Grammar

variable {g : Grammar} {labels : List Label} {a : Label} {A X : Name} {s : NameSupply}

def Shares (g : Grammar) (a : Label) : Prop :=
  ∃ r ∈ g.rules, 2 ≤ r.rhs.length ∧ .terminal a ∈ r.rhs

def sign (g : Grammar) (s : NameSupply) (a : Label) : Name :=
  ((standIns g.sharedLabels s).1.lookup a).getD a

theorem sign_eq (hX : (a, X) ∈ (standIns g.sharedLabels s).1) : g.sign s a = X := by
  have nodup : ((standIns g.sharedLabels s).1.map Prod.fst).Nodup := by
    rw [map_fst_standIns]
    exact FirstSeen.nodup_ofList
  rw [sign, SortedList.lookup_of_mem nodup hX]
  rfl

theorem exists_standIn_of_shares (s : NameSupply) (ha : g.Shares a) :
    ∃ X, (a, X) ∈ (standIns g.sharedLabels s).1 ∧
      standIn (standIns g.sharedLabels s).1 (.terminal a) = .nonterminal X :=
  exists_standIn (mem_map_fst_standIns.mpr (mem_sharedLabels.mpr ha))

theorem sign_mem (s : NameSupply) (ha : g.Shares a) :
    (a, g.sign s a) ∈ (standIns g.sharedLabels s).1 := by
  obtain ⟨X, hX, _⟩ := exists_standIn_of_shares s ha
  rwa [sign_eq hX]

theorem shares_of_mem_standIns (hX : (a, X) ∈ (standIns g.sharedLabels s).1) : g.Shares a :=
  mem_sharedLabels.mp (mem_map_fst_standIns.mp (List.mem_map_of_mem hX))

theorem filter_eq_singleton {α β : Type} [DecidableEq β] {f : α → β} {l : List α} {a : α}
    (h : (l.map f).Nodup) (ha : a ∈ l) : l.filter (fun b => f b = f a) = [a] := by
  apply List.perm_singleton.mp
  refine (List.perm_ext_iff_of_nodup (h.of_map.filter _) (List.nodup_singleton a)).mpr (fun b => ?_)
  rw [List.mem_filter, decide_eq_true_eq, List.mem_singleton]
  constructor
  · rintro ⟨hb, same⟩
    exact List.inj_on_of_nodup_map h hb ha same
  · rintro rfl
    exact ⟨ha, rfl⟩

theorem rules_separated : ∃ byLabel : List (Label × Name),
    byLabel.Perm (standIns g.sharedLabels s).1 ∧
      (g.separated s).1.rules = g.rules.map (separateRule (standIns g.sharedLabels s).1) ++
        byLabel.map (fun p => ⟨p.2, [.terminal p.1]⟩) :=
  ⟨_, SortedList.sortBy_perm _ _, rfl⟩

theorem filter_lhs_separated (hs : g.nonterminals ⊆ s.taken)
    (hX : (a, X) ∈ (standIns g.sharedLabels s).1) :
    (g.separated s).1.rules.filter (fun r => r.lhs = X) = [⟨X, [.terminal a]⟩] := by
  obtain ⟨byLabel, perm, rules⟩ := rules_separated (g := g) (s := s)
  have old : (g.rules.map (separateRule (standIns g.sharedLabels s).1)).filter
      (fun r => r.lhs = X) = [] := by
    simp only [List.filter_eq_nil_iff, List.forall_mem_map, lhs_separateRule, decide_eq_true_eq]
    rintro r hr rfl
    exact (standIns_names.2 _ hX).2 (rules_names_subset hs r hr (Rule.mem_names.mpr (.inl rfl)))
  have nodup : (byLabel.map Prod.snd).Nodup :=
    (perm.map Prod.snd).nodup_iff.mpr (adds_standIns g.sharedLabels s).nodup
  have new : byLabel.filter (fun p => p.2 = X) = [(a, X)] :=
    filter_eq_singleton nodup (perm.mem_iff.mpr hX)
  calc (g.separated s).1.rules.filter (fun r => r.lhs = X)
    _ = [] ++ (byLabel.filter (fun p => p.2 = X)).map (fun p => ⟨p.2, [.terminal p.1]⟩) := by
      rw [rules, List.filter_append, old, List.filter_map]
      rfl
    _ = [⟨X, [.terminal a]⟩] := by
      rw [new]
      rfl

theorem exists_standIn_iff_new (hs : g.nonterminals ⊆ s.taken) :
    (∃ a, (a, X) ∈ (standIns g.sharedLabels s).1) ↔
      X ∈ (g.separated s).1.nonterminals ∧ X ∉ g.nonterminals := by
  constructor
  · rintro ⟨a, hX⟩
    have mem : ⟨X, [.terminal a]⟩ ∈ (g.separated s).1.rules :=
      mem_separated.mpr (.inr ⟨_, hX, rfl⟩)
    exact ⟨names_subset_nonterminals mem (Rule.mem_names.mpr (.inl rfl)),
      fun old => (standIns_names.2 _ hX).2 (hs old)⟩
  · rintro ⟨occurs, new⟩
    obtain ⟨p, hp, rfl⟩ := (mem_nonterminals_separated occurs).resolve_left new
    exact ⟨p.1, hp⟩

theorem nonterminals_separated_subset (hs : g.nonterminals ⊆ s.taken) :
    (g.separated s).1.nonterminals ⊆ (g.separated s).2.taken := by
  intro A hA
  rcases mem_nonterminals_separated hA with old | ⟨p, hp, rfl⟩
  · exact standIns_names.1 (hs old)
  · exact (standIns_names.2 p hp).1

theorem not_mem_of_separated {r : Rule} (hr : r ∈ (g.separated s).1.rules)
    (long : 2 ≤ r.rhs.length) : .terminal a ∉ r.rhs := by
  intro ha
  rcases rhs_of_mem_separated hr with ⟨b, hb⟩ | ⟨r', _, same, _, apart⟩
  · rw [hb, List.length_singleton] at long
    omega
  · have := apart (same ▸ long) _ ha
    contradiction

/-- With a supply that knows the nonterminals, no terminal stands beside another symbol any more,
and each old nonterminal keeps its words. Each terminal that stood so has one new name, the names
of different terminals differ, and the terminal is the only right side of its name. The supply
that is given back knows the nonterminals of the new grammar. -/
theorem separated_exact (g : Grammar) (s : NameSupply) (hs : g.nonterminals ⊆ s.taken) :
    (∀ r ∈ (g.separated s).1.rules, 2 ≤ r.rhs.length → ∀ a, .terminal a ∉ r.rhs) ∧
    (∀ A ∈ g.nonterminals, ∀ w, (g.separated s).1.Generates A w ↔ g.Generates A w) ∧
    (∃ sign : Label → Name,
      (∀ a, g.Shares a → sign a ∉ s.taken ∧
        (g.separated s).1.rules.filter (fun r => r.lhs = sign a) = [⟨sign a, [.terminal a]⟩]) ∧
      (∀ a b, g.Shares a → g.Shares b → sign a = sign b → a = b) ∧
      ∀ X, X ∈ (g.separated s).1.nonterminals ∧ X ∉ g.nonterminals ↔
        ∃ a, g.Shares a ∧ sign a = X) ∧
    (g.separated s).1.nonterminals ⊆ (g.separated s).2.taken := by
  refine ⟨fun r hr long a => not_mem_of_separated hr long,
    fun A hA w => generates_separated hs (hs hA), ⟨g.sign s, fun a ha => ?_, ?_, fun X => ?_⟩,
    nonterminals_separated_subset hs⟩
  · have hX := sign_mem s ha
    exact ⟨(standIns_names.2 _ hX).2, filter_lhs_separated hs hX⟩
  · intro a b ha hb same
    exact label_of_standIn (sign_mem s ha) (same ▸ sign_mem s hb)
  · rw [← exists_standIn_iff_new hs]
    constructor
    · rintro ⟨a, hX⟩
      exact ⟨a, shares_of_mem_standIns hX, sign_eq hX⟩
    · rintro ⟨a, ha, rfl⟩
      exact ⟨a, sign_mem s ha⟩

def twisted : Grammar where
  start := "S"
  rules := [
    ⟨"S", [.terminal "a", .nonterminal "S", .terminal "a#0"]⟩,
    ⟨"S", [.terminal "a#0", .terminal "a", .nonterminal "T_a"]⟩,
    ⟨"T_a", [.terminal "b"]⟩]

theorem twisted_separated_exact :
    let s := NameSupply.ofTaken twisted.nonterminals
    twisted.nonterminals ⊆ s.taken ∧
      (∀ w, (twisted.separated s).1.Generates "T_a" w ↔ twisted.Generates "T_a" w) ∧
      ∃ a, twisted.Shares a ∧
        (twisted.separated s).1.rules.filter (fun r => r.lhs = "T_a#0#1") =
          [⟨"T_a#0#1", [.terminal a]⟩] := by
  intro s
  have known : twisted.nonterminals ⊆ s.taken :=
    fun _ hA => NameSupply.mem_taken_ofTaken.mpr hA
  obtain ⟨_, words, ⟨sign, only, _, new⟩, _⟩ := separated_exact twisted s known
  have occurs : "T_a#0#1" ∈ (twisted.separated s).1.nonterminals ∧
      "T_a#0#1" ∉ twisted.nonterminals := by
    decide +kernel
  obtain ⟨a, ha, sign_a⟩ := (new "T_a#0#1").mp occurs
  have rules := (only a ha).2
  rw [sign_a] at rules
  exact ⟨known, words "T_a" (by decide +kernel), a, ha, rules⟩

end ContextFreePaths.Grammar
