import ContextFreePaths.Proofs.NormalForm.Language
import ContextFreePaths.Proofs.RoundTrip

namespace ContextFreePaths

open Text

/-- No blank, and not a part of a bar or of the end of an arrow. -/
def Inert (c : Char) : Prop :=
  isBlank c = false ∧ c ≠ '|' ∧ c ≠ '>'

theorem inert_of_isDigit {c : Char} (hc : c.isDigit = true) : Inert c := by
  refine ⟨?_, ?_, ?_⟩
  · simp only [Char.isDigit, Bool.and_eq_true, decide_eq_true_eq, ge_iff_le,
      UInt32.le_iff_toNat_le] at hc
    have low : 48 ≤ c.toNat := hc.1
    have high : c.toNat ≤ 57 := hc.2
    simp only [isBlank, blankRanges, List.any_cons, List.any_nil, Bool.or_eq_false_iff,
      Bool.and_eq_false_iff, decide_eq_false_iff_not, and_true]
    omega
  · rintro rfl
    cases hc
  · rintro rfl
    cases hc

theorem inert_toString {k : Nat} {c : Char} (hc : c ∈ (toString k).toList) : Inert c := by
  rw [Nat.toString_eq_repr, Nat.toList_repr] at hc
  exact inert_of_isDigit (Nat.isDigit_of_mem_toDigits (by decide) (by decide) hc)

theorem fits_of_inert {name : Name} (h : ∀ c ∈ name.toList, Inert c) :
    FitsHead name ∧ FitsBody name := by
  refine ⟨⟨fun c hc => (h c hc).1, fun arrow => ?_⟩, fun c hc => ⟨(h c hc).1, (h c hc).2.1⟩⟩
  exact (h '>' (arrow.subset (by simp))).2.2 rfl

namespace NameSupply

variable {s : NameSupply} {hint : String} {a : Label} {c : Char}

theorem fits_next : FitsHead s.next.1 ∧ FitsBody s.next.1 := by
  apply fits_of_inert
  intro c hc
  have name : s.next.1.toList = 'g' :: (toString (s.counter + s.firstFree s.numbered)).toList := by
    rw [next, numbered, String.toList_append]
    rfl
  rw [name, List.mem_cons] at hc
  rcases hc with rfl | hc
  · exact ⟨by decide, by decide, by decide⟩
  · exact inert_toString hc

theorem toList_fresh : ∃ t, (s.fresh hint).1.toList = hint.toList ++ t ∧ ∀ c ∈ t, Inert c := by
  unfold fresh
  simp only
  cases s.firstFree (s.hinted hint) with
  | zero => exact ⟨[], (List.append_nil _).symm, fun _ hc => absurd hc List.not_mem_nil⟩
  | succ i =>
    refine ⟨'#' :: (toString (s.counter + i)).toList, by simp [hinted], fun c hc => ?_⟩
    rcases List.mem_cons.mp hc with rfl | hc
    · exact ⟨by decide, by decide, by decide⟩
    · exact inert_toString hc

theorem toList_standIn : ∃ t, (s.fresh ("T_" ++ a)).1.toList = 'T' :: '_' :: (a.toList ++ t) ∧
    ∀ c ∈ t, Inert c := by
  obtain ⟨t, ht, inert⟩ : ∃ t, (s.fresh ("T_" ++ a)).1.toList = ("T_" ++ a).toList ++ t ∧
      ∀ c ∈ t, Inert c := toList_fresh
  refine ⟨t, ?_, inert⟩
  rw [ht, String.toList_append]
  rfl

theorem fitsBody_standIn (h : FitsBody a) : FitsBody (s.fresh ("T_" ++ a)).1 := by
  obtain ⟨t, ht, inert⟩ := toList_standIn (s := s) (a := a)
  intro c hc
  simp only [ht, List.mem_cons, List.mem_append] at hc
  rcases hc with rfl | rfl | hc | hc
  · exact ⟨by decide, by decide⟩
  · exact ⟨by decide, by decide⟩
  · exact h c hc
  · exact ⟨(inert c hc).1, (inert c hc).2.1⟩

theorem fitsHead_standIn (h : FitsBody a) :
    FitsHead (s.fresh ("T_" ++ a)).1 ↔ ¬['-', '>'] <:+: a.toList := by
  obtain ⟨t, ht, inert⟩ := toList_standIn (s := s) (a := a)
  have blank : ∀ c ∈ (s.fresh ("T_" ++ a)).1.toList, isBlank c = false :=
    fun c hc => (fitsBody_standIn h c hc).1
  -- neither the front of the name nor what keeps it apart from others can end an arrow
  have arrow : Token.hasArrow (s.fresh ("T_" ++ a)).1.toList = Token.hasArrow a.toList := by
    have rest : Token.hasArrow (a.toList ++ t) = Token.hasArrow a.toList :=
      hasArrow_append (fun mem => (inert '>' mem).2.2 rfl)
    rw [ht, ← rest]
    simp [Token.hasArrow]
  rw [FitsHead, and_iff_right blank, ← hasArrow_iff, ← hasArrow_iff, arrow]

end NameSupply

namespace Grammar

variable {g : Grammar} {head : Name → Prop} {body : Symbol → Prop} {lhs : Name} {α : List Symbol}
  {s : NameSupply} {rules more : List Rule} {r : Rule} {a : Label}

def UsesOnly (head : Name → Prop) (body : Symbol → Prop) (rules : List Rule) : Prop :=
  ∀ r ∈ rules, head r.lhs ∧ ∀ x ∈ r.rhs, body x

theorem UsesOnly.mono (h : UsesOnly head body more) (hr : rules ⊆ more) :
    UsesOnly head body rules :=
  fun r mem => h r (hr mem)

theorem usesOnly_chain (next : ∀ s : NameSupply, head s.next.1 ∧ body (.nonterminal s.next.1))
    (hlhs : head lhs) (hα : ∀ x ∈ α, body x) : UsesOnly head body (chain lhs α s).1 := by
  induction lhs, α, s using chain_induction with
  | short lhs α s h =>
    rw [chain_of_short h]
    intro r hr
    obtain rfl := List.mem_singleton.mp hr
    exact ⟨hlhs, fun x hx => hα x (List.mem_reverse.mp hx)⟩
  | long lhs z α s h ih =>
    rw [List.forall_mem_cons] at hα
    rw [chain_of_long h]
    intro r hr
    rcases List.mem_cons.mp hr with rfl | hr
    -- the link ends this body and heads the next one, so it needs both properties
    · refine ⟨hlhs, ?_⟩
      simp only [List.forall_mem_cons, List.not_mem_nil, false_implies, implies_true, and_true]
      exact ⟨(next s).2, hα.1⟩
    · exact ih (next s).1 hα.2 r hr

theorem usesOnly_chains (next : ∀ s : NameSupply, head s.next.1 ∧ body (.nonterminal s.next.1))
    (h : UsesOnly head body rules) : UsesOnly head body (chains rules s).1 := by
  induction rules generalizing s with
  | nil => exact fun _ hr => absurd hr List.not_mem_nil
  | cons r rules ih =>
    have first := h r List.mem_cons_self
    intro r' hr'
    rcases List.mem_append.mp hr' with hr' | hr'
    · exact usesOnly_chain next first.1 (fun x hx => first.2 x (List.mem_reverse.mp hx)) r' hr'
    · exact ih (h.mono (List.subset_cons_self r rules)) r' hr'

theorem usesOnly_epsilonFree (h : UsesOnly head body g.rules) :
    UsesOnly head body g.epsilonFree.rules := by
  intro r hr
  obtain ⟨r', hr', hlhs, hrhs, _⟩ := mem_epsilonFree.mp hr
  rw [hlhs]
  exact ⟨(h r' hr').1, fun x hx => (h r' hr').2 x (subset_of_mem_omissions hrhs hx)⟩

theorem usesOnly_unitFree (h : UsesOnly head body g.rules) :
    UsesOnly head body g.unitFree.rules := by
  intro r hr
  obtain ⟨front, hfront, hlhs⟩ := lhs_of_mem_unitFree hr
  obtain ⟨back, hback, hrhs⟩ := rhs_of_mem_unitFree hr
  rw [← hlhs, ← hrhs]
  exact ⟨(h front hfront).1, (h back hback).2⟩

theorem usesOnly_compact (next : ∀ s : NameSupply, head s.next.1 ∧ body (.nonterminal s.next.1))
    (h : UsesOnly head body g.rules) : UsesOnly head body g.compact.rules := by
  have short : UsesOnly head body g.short.1.rules :=
    usesOnly_chains next (h.mono useful_rules_subset)
  exact (usesOnly_unitFree (usesOnly_epsilonFree short)).mono useful_rules_subset

theorem exists_fresh_of_mem_standIns {labels : List Label} {p : Label × Name}
    (hp : p ∈ (standIns labels s).1) : ∃ s' : NameSupply, p.2 = (s'.fresh ("T_" ++ p.1)).1 := by
  induction labels generalizing s with
  | nil => exact absurd hp List.not_mem_nil
  | cons a labels ih =>
    rw [standIns_cons] at hp
    rcases List.mem_cons.mp hp with rfl | hp
    · exact ⟨s, rfl⟩
    · exact ih hp

theorem fitsBody_of_mem_sharedLabels (h : g.Legible) (ha : a ∈ g.sharedLabels) : FitsBody a := by
  obtain ⟨r, hr, _, hx⟩ := mem_sharedLabels.mp ha
  exact (h r hr).2 _ hx

theorem mem_sharedLabels_of_standIn {p : Label × Name}
    (hp : p ∈ (standIns g.sharedLabels s).1) : p.1 ∈ g.sharedLabels := by
  have := List.mem_map_of_mem (f := Prod.fst) hp
  rwa [map_fst_standIns] at this

theorem fitsBody_of_standIn (h : g.Legible) {p : Label × Name}
    (hp : p ∈ (standIns g.sharedLabels s).1) : FitsBody p.2 := by
  obtain ⟨s', hs'⟩ := exists_fresh_of_mem_standIns hp
  have label := fitsBody_of_mem_sharedLabels h (mem_sharedLabels_of_standIn hp)
  rw [hs']
  exact NameSupply.fitsBody_standIn label

theorem fitsHead_of_standIn (h : g.Legible) {p : Label × Name}
    (hp : p ∈ (standIns g.sharedLabels s).1) : FitsHead p.2 ↔ ¬['-', '>'] <:+: p.1.toList := by
  obtain ⟨s', hs'⟩ := exists_fresh_of_mem_standIns hp
  have label := fitsBody_of_mem_sharedLabels h (mem_sharedLabels_of_standIn hp)
  rw [hs']
  exact NameSupply.fitsHead_standIn label

theorem fitsBody_standIn_of_mem {pairs : List (Label × Name)} {x : Symbol}
    (names : ∀ p ∈ pairs, FitsBody p.2) (hx : FitsBody x.text) :
    FitsBody (standIn pairs x).text := by
  cases x with
  | nonterminal A => exact hx
  | terminal a =>
    rw [standIn_terminal]
    cases hl : pairs.lookup a with
    | none => exact hx
    | some X => exact names _ (SortedList.mem_of_lookup hl)

theorem legible_separateRule {pairs : List (Label × Name)} (names : ∀ p ∈ pairs, FitsBody p.2)
    (h : r.Legible) : (separateRule pairs r).Legible := by
  refine ⟨by rw [lhs_separateRule]; exact h.1, ?_⟩
  unfold separateRule
  split
  · intro x hx
    obtain ⟨y, hy, rfl⟩ := List.mem_map.mp hx
    exact fitsBody_standIn_of_mem names (h.2 y hy)
  · exact h.2

theorem legible_separated_iff (h : g.Legible) : (g.separated s).1.Legible ↔
    ∀ a ∈ g.sharedLabels, ¬['-', '>'] <:+: a.toList := by
  constructor
  · intro legible a ha
    have pairs : (standIns g.sharedLabels s).1.map Prod.fst = g.sharedLabels := map_fst_standIns
    rw [← pairs] at ha
    obtain ⟨p, hp, rfl⟩ := List.mem_map.mp ha
    have own : ⟨p.2, [.terminal p.1]⟩ ∈ (g.separated s).1.rules :=
      mem_separated.mpr (.inr ⟨p, hp, rfl⟩)
    exact (fitsHead_of_standIn h hp).mp (legible _ own).1
  · intro noArrow r hr
    rcases mem_separated.mp hr with ⟨r', hr', rfl⟩ | ⟨p, hp, rfl⟩
    · exact legible_separateRule (fun p hp => fitsBody_of_standIn h hp) (h r' hr')
    · have shared := mem_sharedLabels_of_standIn hp
      refine ⟨(fitsHead_of_standIn h hp).mpr (noArrow _ shared), fun x hx => ?_⟩
      obtain rfl := List.mem_singleton.mp hx
      exact fitsBody_of_mem_sharedLabels h shared

theorem legible_compact (h : g.Legible) : g.compact.Legible := by
  have own : UsesOnly FitsHead (fun x => FitsBody x.text) g.rules := h
  exact usesOnly_compact (fun _ => NameSupply.fits_next) own

theorem legible_normalForm_iff (h : g.Legible) : g.normalForm.Legible ↔
    ∀ a ∈ g.compact.sharedLabels, ¬['-', '>'] <:+: a.toList := by
  rw [← legible_separated_iff (legible_compact h) (s := g.short.2)]
  exact forall_congr' (fun r => by rw [mem_normalForm])

theorem sharedLabels_compact_subset : g.compact.sharedLabels ⊆ g.terminals := by
  have known :
      UsesOnly (fun _ => True) (fun x => ∀ a, x = .terminal a → a ∈ g.terminals) g.rules := by
    refine fun r hr => ⟨trivial, ?_⟩
    rintro _ hx a rfl
    exact mem_terminals.mpr ⟨r, hr, hx⟩
  have compact := usesOnly_compact (fun _ => ⟨trivial, fun _ h => nomatch h⟩) known
  intro a ha
  obtain ⟨r, hr, _, hx⟩ := mem_sharedLabels.mp ha
  exact (compact r hr).2 _ hx a rfl

/-- The normal form of a grammar that was read can be read again unless a label with an arrow
stands in a body of two symbols, where the label gives its stand-in a name that no line can have
as its head. -/
theorem normalForm_reads_back_iff {start : Name} {text : String} (h : ofText start text = .ok g) :
    (ofText start g.normalForm.text = .ok g.normalForm ↔
      ∀ a ∈ g.compact.sharedLabels, ¬['-', '>'] <:+: a.toList) ∧
    g.compact.sharedLabels ⊆ g.terminals := by
  obtain ⟨rfl, legible⟩ := legible_of_ofText h
  refine ⟨?_, sharedLabels_compact_subset⟩
  rw [← legible_normalForm_iff legible, ← ofText_text_iff, start_normalForm]

def lone : Grammar where
  start := "S"
  rules := [
    ⟨"S", [.terminal "a", .nonterminal "S", .terminal "b"]⟩,
    ⟨"S", [.terminal "x->y"]⟩]

theorem lone_normalForm_reads_back : ofText "S" "S -> a S b | x->y" = .ok lone ∧
    (∀ a ∈ lone.compact.sharedLabels, ¬['-', '>'] <:+: a.toList) ∧
      ofText "S" lone.normalForm.text = .ok lone.normalForm := by
  have loaded : ofText "S" "S -> a S b | x->y" = .ok lone := by decide +kernel
  have shared : ∀ a ∈ lone.compact.sharedLabels, ¬['-', '>'] <:+: a.toList := by decide +kernel
  exact ⟨loaded, shared, (normalForm_reads_back_iff loaded).1.mpr shared⟩

def paired : Grammar where
  start := "S"
  rules := [⟨"S", [.terminal "x", .terminal "a->b"]⟩]

def misreadPaired : Grammar where
  start := "S"
  rules := [
    ⟨"S", [.nonterminal "T_x", .nonterminal "T_a->b"]⟩,
    ⟨"T_a", [.terminal "b", .terminal "->", .terminal "a->b"]⟩,
    ⟨"T_x", [.terminal "x"]⟩]

theorem paired_normalForm_misread : ofText "S" "S -> x a->b" = .ok paired ∧
    ofText "S" paired.normalForm.text = .ok misreadPaired ∧ misreadPaired ≠ paired.normalForm := by
  decide +kernel

end Grammar

end ContextFreePaths
