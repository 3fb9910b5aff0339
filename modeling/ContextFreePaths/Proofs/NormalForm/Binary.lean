import ContextFreePaths.Grammar.NormalForm
import ContextFreePaths.Proofs.NameRelation

namespace ContextFreePaths.Grammar

open Interpretation

variable {g : Grammar} {S T : Interpretation} {lhs A : Name} {z : Symbol} {α : List Symbol}
  {s : NameSupply} {rules : List Rule} {r : Rule} {w : Word}

theorem chain_of_short (h : α.length ≤ 2) : chain lhs α s = ([⟨lhs, α.reverse⟩], s) := by
  match α, h with
  | [], _ => rfl
  | [_], _ => rfl
  | [_, _], _ => rfl

theorem chain_of_long (h : 2 ≤ α.length) : chain lhs (z :: α) s =
    (⟨lhs, [.nonterminal s.next.1, z]⟩ :: (chain s.next.1 α s.next.2).1,
      (chain s.next.1 α s.next.2).2) := by
  match α, h with
  | _ :: _ :: _, _ => rfl

theorem chain_induction {motive : Name → List Symbol → NameSupply → Prop}
    (short : ∀ lhs α s, α.length ≤ 2 → motive lhs α s)
    (long : ∀ lhs z α s, 2 ≤ α.length → motive s.next.1 α s.next.2 → motive lhs (z :: α) s)
    (lhs : Name) (α : List Symbol) (s : NameSupply) : motive lhs α s := by
  induction α generalizing lhs s with
  | nil => exact short lhs [] s (Nat.zero_le 2)
  | cons z α ih =>
    by_cases h : 2 ≤ α.length
    · exact long lhs z α s h (ih _ _)
    · exact short lhs (z :: α) s (by rw [List.length_cons]; omega)

theorem spells_of_models_chain (hT : T.Models (chain lhs α s).1) (h : T.Spells α.reverse w) :
    T lhs w := by
  induction lhs, α, s using chain_induction generalizing w with
  | short lhs α s hα =>
    rw [chain_of_short hα] at hT
    exact hT _ List.mem_cons_self w h
  | long lhs z α s hα ih =>
    rw [chain_of_long hα] at hT
    rw [List.reverse_cons, spells_append] at h
    obtain ⟨u, v, rfl, hu, hv⟩ := h
    have link : T s.next.1 u := ih (hT.mono (List.subset_cons_self _ _)) hu
    exact hT _ List.mem_cons_self _ ⟨u, v, rfl, link, hv⟩

theorem models_of_models_chains (hT : T.Models (chains rules s).1) : T.Models rules := by
  induction rules generalizing s with
  | nil => exact fun _ hr => absurd hr List.not_mem_nil
  | cons r rules ih =>
    obtain ⟨front, back⟩ := models_append.mp hT
    intro r' hr' w hw
    rcases List.mem_cons.mp hr' with rfl | hr'
    · exact spells_of_models_chain front (by rwa [List.reverse_reverse])
    · exact ih back r' hr' w hw

theorem chain_names (hlhs : lhs ∈ s.taken) (hα : ∀ A, .nonterminal A ∈ α → A ∈ s.taken) :
    s.taken ⊆ (chain lhs α s).2.taken ∧
      ∀ r ∈ (chain lhs α s).1, r.names ⊆ (chain lhs α s).2.taken ∧
        ∀ A ∈ r.names, A ∈ s.taken → A = lhs ∨ .nonterminal A ∈ α := by
  induction lhs, α, s using chain_induction with
  | short lhs α s h =>
    rw [chain_of_short h]
    refine ⟨List.Subset.refl _, ?_⟩
    rintro r hr
    obtain rfl := List.mem_singleton.mp hr
    simp only [List.subset_def, Rule.mem_names, List.mem_reverse]
    constructor
    · rintro A (rfl | hA)
      · exact hlhs
      · exact hα A hA
    · exact fun A hA _ => hA
  | long lhs z α s h ih =>
    rw [chain_of_long h]
    have hsub : s.taken ⊆ s.next.2.taken := List.subset_cons_self _ _
    obtain ⟨keeps, names⟩ := ih (List.mem_cons_self)
      (fun A hA => hsub (hα A (List.mem_cons_of_mem z hA)))
    refine ⟨List.Subset.trans hsub keeps, ?_⟩
    intro r hr
    rcases List.mem_cons.mp hr with rfl | hr
    · simp only [List.subset_def, Rule.mem_names, List.mem_cons, List.not_mem_nil, or_false,
        Symbol.nonterminal.injEq]
      constructor
      · rintro A (rfl | rfl | rfl)
        · exact keeps (hsub hlhs)
        · exact keeps List.mem_cons_self
        · exact keeps (hsub (hα A List.mem_cons_self))
      · rintro A (rfl | rfl | rfl) hA
        · exact .inl rfl
        · exact absurd hA NameSupply.next_not_mem
        · exact .inr (.inl rfl)
    · refine ⟨(names r hr).1, fun A hA htaken => ?_⟩
      rcases (names r hr).2 A hA (hsub htaken) with rfl | hA
      · exact absurd htaken NameSupply.next_not_mem
      · exact .inr (List.mem_cons_of_mem z hA)

theorem exists_model_chain (hlhs : lhs ∈ s.taken) (hα : ∀ A, .nonterminal A ∈ α → A ∈ s.taken)
    (hS : ∀ w, S.Spells α.reverse w → S lhs w) :
    ∃ T : Interpretation, S.AgreesOn T s.taken ∧ T.Models (chain lhs α s).1 := by
  induction lhs, α, s using chain_induction generalizing S with
  | short lhs α s h =>
    rw [chain_of_short h]
    refine ⟨S, fun _ _ => rfl, fun r hr => ?_⟩
    obtain rfl := List.mem_singleton.mp hr
    exact hS
  | long lhs z α s h ih =>
    rw [chain_of_long h]
    -- The link stands for the words of the symbols that it replaces.
    let S' : Interpretation := Function.update S s.next.1 (S.Spells α.reverse)
    have link : S' s.next.1 = S.Spells α.reverse := Function.update_self _ _ _
    have agree : S.AgreesOn S' s.taken := agreesOn_update NameSupply.next_not_mem
    have hz : ∀ A, .nonterminal A ∈ [z] → A ∈ s.taken := by
      intro A hA
      exact hα A (List.mem_cons.mpr (.inl (List.mem_singleton.mp hA)))
    have hrest : ∀ A, .nonterminal A ∈ α → A ∈ s.taken :=
      fun A hA => hα A (List.mem_cons_of_mem z hA)
    have models : ∀ w, S'.Spells α.reverse w → S' s.next.1 w := by
      intro w hw
      rw [link]
      exact (agree.spells (fun A hA => hrest A (List.mem_reverse.mp hA))).mpr hw
    obtain ⟨T, hT, rest⟩ := ih NameSupply.next_mem_taken
      (fun A hA => NameSupply.taken_subset_next (hrest A hA)) models
    have hST : S.AgreesOn T s.taken := agree.trans (hT.mono NameSupply.taken_subset_next)
    refine ⟨T, hST, ?_⟩
    intro r hr
    rcases List.mem_cons.mp hr with rfl | hr
    · rintro _ ⟨u, v, rfl, hu, hv⟩
      have hu : S.Spells α.reverse u := by rwa [← link, hT _ NameSupply.next_mem_taken]
      have hv : S.Spells [z] v := (hST.spells hz).mpr hv
      change T lhs (u ++ v)
      rw [← hST lhs hlhs]
      apply hS
      rw [List.reverse_cons, spells_append]
      exact ⟨u, v, rfl, hu, hv⟩
    · exact rest r hr

theorem chain_lhs_rhs_taken {r : Rule} (hr : r.names ⊆ s.taken) :
    r.lhs ∈ s.taken ∧ ∀ A, .nonterminal A ∈ r.rhs.reverse → A ∈ s.taken :=
  ⟨hr (Rule.mem_names.mpr (.inl rfl)),
    fun _ hA => hr (Rule.mem_names.mpr (.inr (List.mem_reverse.mp hA)))⟩

theorem chains_names (hr : ∀ r ∈ rules, r.names ⊆ s.taken) :
    s.taken ⊆ (chains rules s).2.taken ∧
      ∀ r ∈ (chains rules s).1, r.names ⊆ (chains rules s).2.taken ∧
        ∀ A ∈ r.names, A ∈ s.taken → ∃ r' ∈ rules, A ∈ r'.names := by
  induction rules generalizing s with
  | nil => exact ⟨List.Subset.refl _, fun _ h => absurd h List.not_mem_nil⟩
  | cons r rules ih =>
    rw [List.forall_mem_cons] at hr
    obtain ⟨hlhs, hrhs⟩ := chain_lhs_rhs_taken hr.1
    obtain ⟨keeps, front⟩ := chain_names hlhs hrhs
    obtain ⟨keeps', back⟩ := ih (fun r' hr' => List.Subset.trans (hr.2 r' hr') keeps)
    refine ⟨List.Subset.trans keeps keeps', ?_⟩
    intro r' hr'
    rcases List.mem_append.mp hr' with hr' | hr'
    · refine ⟨List.Subset.trans (front r' hr').1 keeps', fun A hA htaken => ?_⟩
      refine ⟨r, List.mem_cons_self, ?_⟩
      rw [Rule.mem_names, ← List.mem_reverse]
      exact (front r' hr').2 A hA htaken
    · refine ⟨(back r' hr').1, fun A hA htaken => ?_⟩
      obtain ⟨r'', hr'', hA⟩ := (back r' hr').2 A hA (keeps htaken)
      exact ⟨r'', List.mem_cons_of_mem r hr'', hA⟩

theorem exists_model_chains (hr : ∀ r ∈ rules, r.names ⊆ s.taken) (hS : S.Models rules) :
    ∃ T : Interpretation, S.AgreesOn T s.taken ∧ T.Models (chains rules s).1 := by
  induction rules generalizing S s with
  | nil => exact ⟨S, fun _ _ => rfl, fun _ h => absurd h List.not_mem_nil⟩
  | cons r rules ih =>
    rw [List.forall_mem_cons] at hr
    obtain ⟨hlhs, hrhs⟩ := chain_lhs_rhs_taken hr.1
    obtain ⟨keeps, names⟩ := chain_names hlhs hrhs
    obtain ⟨T, hT, front⟩ := exists_model_chain hlhs hrhs (fun w hw =>
      hS r List.mem_cons_self w (by rwa [List.reverse_reverse] at hw))
    have hTrules : T.Models rules := (hS.mono (List.subset_cons_self _ _)).of_agreesOn hT hr.2
    obtain ⟨U, hU, back⟩ := ih (fun r' hr' => List.Subset.trans (hr.2 r' hr') keeps) hTrules
    refine ⟨U, hT.trans (hU.mono keeps), models_append.mpr ⟨?_, back⟩⟩
    exact front.of_agreesOn hU (fun r' hr' => (names r' hr').1)

theorem chain_short (hr : r ∈ (chain lhs α s).1) : r.rhs.length ≤ 2 := by
  induction lhs, α, s using chain_induction with
  | short lhs α s h =>
    rw [chain_of_short h] at hr
    obtain rfl := List.mem_singleton.mp hr
    rwa [List.length_reverse]
  | long lhs z α s h ih =>
    rw [chain_of_long h] at hr
    rcases List.mem_cons.mp hr with rfl | hr
    · exact Nat.le_refl 2
    · exact ih hr

theorem chains_short (hr : r ∈ (chains rules s).1) : r.rhs.length ≤ 2 := by
  induction rules generalizing s with
  | nil => exact absurd hr List.not_mem_nil
  | cons r' rules ih =>
    rcases List.mem_append.mp hr with hr | hr
    · exact chain_short hr
    · exact ih hr

theorem chains_of_short (h : ∀ r ∈ rules, r.rhs.length ≤ 2) : chains rules s = (rules, s) := by
  induction rules with
  | nil => rfl
  | cons r rules ih =>
    rw [List.forall_mem_cons, ← List.length_reverse] at h
    rw [chains, chain_of_short h.1, List.reverse_reverse]
    simp only [ih h.2, List.singleton_append]

theorem binary_of_short (h : ∀ r ∈ g.rules, r.rhs.length ≤ 2) : g.binary s = (g, s) := by
  rw [binary, chains_of_short h]

@[simp] theorem start_binary : (g.binary s).1.start = g.start :=
  rfl

theorem exists_model_binary (hs : g.nonterminals ⊆ s.taken) (hS : S.Models g.rules) :
    ∃ T : Interpretation, S.AgreesOn T s.taken ∧ T.Models (g.binary s).1.rules :=
  exists_model_chains (rules_names_subset hs) hS

theorem nonterminals_binary_subset (hs : g.nonterminals ⊆ s.taken) :
    (g.binary s).1.nonterminals ⊆ (g.binary s).2.taken := by
  obtain ⟨keeps, names⟩ := chains_names (rules_names_subset hs)
  intro A hA
  rcases mem_nonterminals.mp hA with rfl | ⟨r, hr, hA⟩
  · exact keeps (hs (mem_nonterminals.mpr (.inl rfl)))
  · exact (names r hr).1 hA

theorem taken_subset_binary (hs : g.nonterminals ⊆ s.taken) : s.taken ⊆ (g.binary s).2.taken :=
  (chains_names (rules_names_subset hs)).1

theorem mem_nonterminals_of_binary (hs : g.nonterminals ⊆ s.taken) (hA : A ∈ s.taken)
    (h : A ∈ (g.binary s).1.nonterminals) : A ∈ g.nonterminals := by
  rcases mem_nonterminals.mp h with rfl | ⟨r, hr, h⟩
  · exact mem_nonterminals.mpr (.inl rfl)
  · obtain ⟨r', hr', h⟩ := ((chains_names (rules_names_subset hs)).2 r hr).2 A h hA
    exact mem_nonterminals.mpr (.inr ⟨r', hr', h⟩)

theorem generates_binary (hs : g.nonterminals ⊆ s.taken) (hA : A ∈ s.taken) :
    (g.binary s).1.Generates A w ↔ g.Generates A w := by
  constructor
  · intro h
    obtain ⟨T, hT, models⟩ := exists_model_binary hs g.models_generates
    rw [hT A hA]
    exact models.generates h
  · intro h
    have models : Models (g.binary s).1.Generates g.rules :=
      models_of_models_chains (models_generates (g.binary s).1)
    exact models.generates h

end ContextFreePaths.Grammar
