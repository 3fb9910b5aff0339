import ContextFreePaths.Grammar.Closure
import ContextFreePaths.Proofs.Interpretation
import ContextFreePaths.Runs

namespace ContextFreePaths

def Demand.Holds (d : Demand) (p : Symbol → Prop) (rhs : List Symbol) : Prop :=
  match d with
  | all => ∀ s ∈ rhs, p s
  | any => ∃ s ∈ rhs, p s

theorem Demand.met_iff {d : Demand} {known rhs : List Symbol} :
    d.met known rhs = true ↔ d.Holds (· ∈ known) rhs := by
  cases d <;> simp [met, Holds]

theorem Demand.Holds.exists_mem {d : Demand} {p : Symbol → Prop} {rhs : List Symbol}
    (h : d.Holds p rhs) (hne : rhs ≠ []) : ∃ s ∈ rhs, p s := by
  cases d with
  | all =>
    obtain ⟨s, hs⟩ := List.exists_mem_of_ne_nil rhs hne
    exact ⟨s, hs, h s hs⟩
  | any => exact h

theorem Demand.Holds.imp_mem {d : Demand} {p q : Symbol → Prop} {rhs : List Symbol}
    (h : d.Holds p rhs) (hpq : ∀ s ∈ rhs, p s → q s) : d.Holds q rhs := by
  cases d with
  | all => exact fun s hs => hpq s hs (h s hs)
  | any =>
    obtain ⟨s, hs, hp⟩ := h
    exact ⟨s, hs, hpq s hs hp⟩

theorem Demand.Holds.imp {d : Demand} {p q : Symbol → Prop} {rhs : List Symbol}
    (h : d.Holds p rhs) (hpq : ∀ s, p s → q s) : d.Holds q rhs :=
  h.imp_mem (fun s _ => hpq s)

def Grammar.ClosedUnder (g : Grammar) (d : Demand) (p : Symbol → Prop) : Prop :=
  ∀ r ∈ g.rules, r.rhs ≠ [] → d.Holds p r.rhs → p (.nonterminal r.lhs)

namespace Spread

variable {g : Grammar} {d : Demand} {t u v : Spread} {s : Symbol} {seed rest : List Symbol}
  {r : Rule} {n : Nat}

/-- A bound on the number of symbols that are still taken up: those pending, and the left sides that
are not known yet. -/
def room (t : Spread) (rules : List Rule) : Nat :=
  t.pending.length + rules.countP (fun r => decide (.nonterminal r.lhs ∉ t.known))

structure Grows (g : Grammar) (d : Demand) (t u : Spread) : Prop where
  known : t.known ⊆ u.known
  ascending : SortedList.Ascending t.known → SortedList.Ascending u.known
  pending : t.pending ⊆ u.pending
  added : ∀ s ∈ u.known, s ∈ t.known ∨ s ∈ u.pending
  least : ∀ p, g.ClosedUnder d p → (∀ s ∈ t.known, p s) → ∀ s ∈ u.known, p s
  room : u.room g.rules ≤ t.room g.rules

theorem Grows.refl (t : Spread) : Grows g d t t where
  known := List.Subset.refl _
  ascending := id
  pending := List.Subset.refl _
  added := fun _ => .inl
  least := fun _ _ h => h
  room := Nat.le_refl _

theorem Grows.trans (h : Grows g d t u) (h' : Grows g d u v) : Grows g d t v where
  known := List.Subset.trans h.known h'.known
  ascending := h'.ascending ∘ h.ascending
  pending := List.Subset.trans h.pending h'.pending
  added s hs := by
    rcases h'.added s hs with hs | hs
    · exact (h.added s hs).imp_right (fun hs => h'.pending hs)
    · exact .inr hs
  least p hp ht := h'.least p hp (h.least p hp ht)
  room := Nat.le_trans h'.room h.room

theorem room_insert (hr : r ∈ g.rules) (new : .nonterminal r.lhs ∉ t.known) :
    room ⟨SortedList.insert (.nonterminal r.lhs) t.known, .nonterminal r.lhs :: t.pending⟩ g.rules ≤
      t.room g.rules := by
  have fewer : g.rules.countP (fun r' => decide
        (.nonterminal r'.lhs ∉ SortedList.insert (.nonterminal r.lhs) t.known)) <
      g.rules.countP (fun r' => decide (.nonterminal r'.lhs ∉ t.known)) := by
    apply countP_lt_countP hr
    · simp [SortedList.mem_insert]
    · exact decide_eq_true new
    · intro r' _ h
      simp only [SortedList.mem_insert, decide_eq_true_eq, not_or] at h ⊢
      exact h.2
  simp only [room, List.length_cons]
  omega

theorem grows_visit (hr : r ∈ g.rules) (hne : r.rhs ≠ []) : Grows g d t (t.visit d r) := by
  unfold visit
  split
  · exact .refl t
  · next new =>
    split
    · next met =>
      rw [Demand.met_iff] at met
      constructor
      · exact fun s hs => SortedList.mem_insert.mpr (.inr hs)
      · exact SortedList.ascending_insert
      · exact List.subset_cons_self _ _
      · intro s hs
        rcases SortedList.mem_insert.mp hs with rfl | hs
        · exact .inr List.mem_cons_self
        · exact .inl hs
      · intro p hp ht s hs
        rcases SortedList.mem_insert.mp hs with rfl | hs
        · exact hp r hr hne (met.imp ht)
        · exact ht s hs
      · exact room_insert hr new
    · exact .refl t

theorem known_of_visit (met : d.Holds (· ∈ t.known) r.rhs) :
    .nonterminal r.lhs ∈ (t.visit d r).known := by
  unfold visit
  split
  · assumption
  · rw [if_pos (Demand.met_iff.mpr met)]
    exact SortedList.mem_insert.mpr (.inl rfl)

theorem grows_visits {rules : List Rule} (hr : ∀ r ∈ rules, r ∈ g.rules ∧ r.rhs ≠ [])
    (t : Spread) : Grows g d t (rules.foldl (visit d) t) ∧
      ∀ r ∈ rules, d.Holds (· ∈ t.known) r.rhs →
        .nonterminal r.lhs ∈ (rules.foldl (visit d) t).known := by
  induction rules generalizing t with
  | nil => exact ⟨.refl t, fun _ h => absurd h List.not_mem_nil⟩
  | cons r rules ih =>
    rw [List.forall_mem_cons] at hr
    have first : Grows g d t (t.visit d r) := grows_visit hr.1.1 hr.1.2
    obtain ⟨rest, complete⟩ := ih hr.2 (t.visit d r)
    refine ⟨first.trans rest, fun r' hr' met => ?_⟩
    rcases List.mem_cons.mp hr' with rfl | hr'
    · exact rest.known (known_of_visit met)
    · exact complete r' hr' (met.imp (fun _ hs => first.known hs))

inductive TakesUp (g : Grammar) (d : Demand) : Spread → Spread → Prop
  | mk (known front back : List Symbol) (s : Symbol) (rules : List Rule)
      (holding : ∀ r, r ∈ rules ↔ r ∈ g.rules ∧ s ∈ r.rhs) :
      TakesUp g d ⟨known, front ++ s :: back⟩ (rules.foldl (visit d) ⟨known, front ++ back⟩)

theorem TakesUp.grows (step : TakesUp g d t u) :
    ∃ front s back, t.pending = front ++ s :: back ∧ Grows g d ⟨t.known, front ++ back⟩ u ∧
      ∀ r ∈ g.rules, s ∈ r.rhs → d.Holds (· ∈ t.known) r.rhs → .nonterminal r.lhs ∈ u.known := by
  cases step with
  | mk known front back s rules holding =>
    have proper : ∀ r ∈ rules, r ∈ g.rules ∧ r.rhs ≠ [] := fun r hr =>
      ⟨((holding r).mp hr).1, List.ne_nil_of_mem ((holding r).mp hr).2⟩
    obtain ⟨grows, complete⟩ := grows_visits (d := d) proper ⟨known, front ++ back⟩
    exact ⟨front, s, back, rfl, grows, fun r mem hs => complete r ((holding r).mpr ⟨mem, hs⟩)⟩

theorem TakesUp.room_lt (step : TakesUp g d t u) : u.room g.rules < t.room g.rules := by
  obtain ⟨front, s, back, pending, grows, _⟩ := step.grows
  have le := grows.room
  simp only [room, pending, List.length_append, List.length_cons] at le ⊢
  omega

abbrev next (g : Grammar) (d : Demand) (t : Spread) : Spread :=
  t.step (OccurrenceIndex.ofRules g.rules) d

theorem next_of_nil (h : t.pending = []) : t.next g d = t := by
  rw [next, step, h]

theorem next_of_cons (h : t.pending = s :: rest) :
    t.next g d = (g.rules.filter (fun r => s ∈ r.rhs)).foldl (visit d) ⟨t.known, rest⟩ := by
  rw [next, step, h, ← OccurrenceIndex.holding_ofRules]

theorem takesUp_of_pending (front back : List Symbol) (h : t.pending = front ++ s :: back) :
    TakesUp g d t ((g.rules.filter (fun r => s ∈ r.rhs)).foldl (visit d)
      ⟨t.known, front ++ back⟩) := by
  obtain ⟨known, pending⟩ := t
  obtain rfl : pending = front ++ s :: back := h
  exact .mk known front back s _
    (fun r => by rw [List.mem_filter, decide_eq_true_eq])

theorem takesUp_next (h : t.pending ≠ []) : TakesUp g d t (t.next g d) := by
  obtain ⟨s, rest, pending⟩ := List.exists_cons_of_ne_nil h
  rw [next_of_cons pending]
  exact takesUp_of_pending [] rest pending

inductive Steps (g : Grammar) (d : Demand) : Nat → Spread → Spread → Prop
  | refl (t : Spread) : Steps g d 0 t t
  | head {n : Nat} {t u v : Spread} (step : TakesUp g d t u) (rest : Steps g d n u v) :
      Steps g d (n + 1) t v

theorem exists_steps_run (t : Spread) (n : Nat) :
    ∃ k, Steps g d k t (run (OccurrenceIndex.ofRules g.rules) d n t) := by
  induction n generalizing t with
  | zero => exact ⟨0, .refl t⟩
  | succ n ih =>
    by_cases h : t.pending = []
    · change ∃ k, Steps g d k t (run _ _ n (t.next g d))
      rw [next_of_nil h]
      exact ih t
    · obtain ⟨k, rest⟩ := ih (t.next g d)
      exact ⟨k + 1, .head (takesUp_next h) rest⟩

/-- The invariant of the work. A rule that could be applied but was not has a symbol that is still
to be taken up. -/
structure Approaches (g : Grammar) (d : Demand) (seed : List Symbol) (t : Spread) : Prop where
  ascending : SortedList.Ascending t.known
  seeded : seed ⊆ t.known
  covers : ∀ r ∈ g.rules, r.rhs ≠ [] → d.Holds (· ∈ t.known) r.rhs →
    .nonterminal r.lhs ∈ t.known ∨ ∃ s ∈ r.rhs, s ∈ t.pending
  least : ∀ p, g.ClosedUnder d p → (∀ s ∈ seed, p s) → ∀ s ∈ t.known, p s

theorem Approaches.takesUp (ht : t.Approaches g d seed) (step : TakesUp g d t u) :
    u.Approaches g d seed := by
  obtain ⟨front, s, back, pending_eq, grows, complete⟩ := step.grows
  constructor
  · exact grows.ascending ht.ascending
  · exact List.Subset.trans ht.seeded grows.known
  · intro r mem hne met
    by_cases new : ∃ s ∈ r.rhs, s ∈ u.pending
    · exact .inr new
    · -- No symbol of the rule was added, so the rule could be applied before.
      have before : d.Holds (· ∈ t.known) r.rhs := met.imp_mem (fun s hs known =>
        (grows.added s known).resolve_right (fun pending => new ⟨s, hs, pending⟩))
      rcases ht.covers r mem hne before with known | ⟨s', hs', pending⟩
      · exact .inl (grows.known known)
      · rw [pending_eq, List.mem_append, List.mem_cons, or_left_comm, ← List.mem_append] at pending
        rcases pending with rfl | pending
        · exact .inl (complete r mem hs' before)
        · exact absurd ⟨s', hs', grows.pending pending⟩ new
  · exact fun p hp hseed => grows.least p hp (ht.least p hp hseed)

theorem Approaches.steps (ht : t.Approaches g d seed) (steps : Steps g d n t u) :
    u.Approaches g d seed := by
  induction steps with
  | refl => exact ht
  | head step _ ih => exact ih (ht.takesUp step)

theorem Approaches.run (ht : t.Approaches g d seed) (n : Nat) :
    (run (OccurrenceIndex.ofRules g.rules) d n t).Approaches g d seed := by
  obtain ⟨k, steps⟩ := exists_steps_run (g := g) (d := d) t n
  exact ht.steps steps

theorem Approaches.closedUnder (ht : t.Approaches g d seed) (done : t.pending = []) :
    g.ClosedUnder d (· ∈ t.known) := by
  intro r hr hne met
  rcases ht.covers r hr hne met with h | ⟨s, _, hs⟩
  · exact h
  · rw [done] at hs
    exact absurd hs List.not_mem_nil

theorem run_of_nil (h : t.pending = []) :
    run (OccurrenceIndex.ofRules g.rules) d n t = t := by
  induction n with
  | zero => rfl
  | succ n ih =>
    change run _ _ n (t.next g d) = t
    rw [next_of_nil h, ih]

theorem pending_run (hn : t.room g.rules ≤ n) :
    (run (OccurrenceIndex.ofRules g.rules) d n t).pending = [] := by
  induction n generalizing t with
  | zero =>
    have : t.pending.length ≤ t.room g.rules := Nat.le_add_right _ _
    exact List.length_eq_zero_iff.mp (Nat.le_zero.mp (Nat.le_trans this hn))
  | succ n ih =>
    by_cases h : t.pending = []
    · rwa [run_of_nil h]
    · have := (takesUp_next (g := g) (d := d) h).room_lt
      exact ih (Nat.le_of_lt_succ (Nat.lt_of_lt_of_le this hn))

def ofSeed (seed : List Symbol) : Spread where
  known := SortedList.ofList seed
  pending := (SortedList.ofList seed).reverse

theorem approaches_ofSeed : (ofSeed seed).Approaches g d seed := by
  constructor
  · exact SortedList.ascending_ofList seed
  · exact fun s hs => SortedList.mem_ofList.mpr hs
  · intro r _ hne met
    obtain ⟨s, hs, known⟩ := met.exists_mem hne
    exact .inr ⟨s, hs, List.mem_reverse.mpr known⟩
  · exact fun p _ hseed s hs => hseed s (SortedList.mem_ofList.mp hs)

theorem room_ofSeed :
    (ofSeed seed).room g.rules ≤ (SortedList.ofList seed).length + g.rules.length := by
  rw [room, ofSeed, List.length_reverse]
  exact Nat.add_le_add_left List.countP_le_length _

end Spread

namespace Grammar

open Interpretation

variable {g : Grammar} {d : Demand} {known seed : List Symbol} {s : Symbol} {A : Name}

theorem exists_closure (g : Grammar) (d : Demand) (seed : List Symbol) :
    ∃ t : Spread, t.known = g.closure d seed ∧ t.pending = [] ∧ t.Approaches g d seed :=
  ⟨_, rfl, Spread.pending_run Spread.room_ofSeed, Spread.approaches_ofSeed.run _⟩

theorem closedUnder_closure : g.ClosedUnder d (· ∈ g.closure d seed) := by
  obtain ⟨t, known, done, ht⟩ := exists_closure g d seed
  exact known ▸ ht.closedUnder done

theorem ascending_closure : SortedList.Ascending (g.closure d seed) := by
  obtain ⟨t, known, _, ht⟩ := exists_closure g d seed
  exact known ▸ ht.ascending

theorem seed_subset_closure (hs : s ∈ seed) : s ∈ g.closure d seed := by
  obtain ⟨t, known, _, ht⟩ := exists_closure g d seed
  exact known ▸ ht.seeded hs

theorem closure_least (p : Symbol → Prop) (hp : g.ClosedUnder d p) (hseed : ∀ s ∈ seed, p s)
    (h : s ∈ g.closure d seed) : p s := by
  obtain ⟨t, known, _, ht⟩ := exists_closure g d seed
  rw [← known] at h
  exact ht.least p hp hseed s h

theorem mem_emptyHeads : s ∈ g.emptyHeads ↔ ∃ r ∈ g.rules, r.rhs = [] ∧ s = .nonterminal r.lhs := by
  simp only [emptyHeads, List.mem_map, List.mem_filter, List.isEmpty_iff, and_assoc]
  grind

theorem mem_filterMap_name : A ∈ known.filterMap Symbol.name? ↔ .nonterminal A ∈ known :=
  Rule.mem_rhsNames (r := ⟨A, known⟩)

theorem mem_nullable : A ∈ g.nullable ↔ g.Generates A [] := by
  rw [nullable, mem_filterMap_name]
  constructor
  · intro h
    have hp : ∃ B, Symbol.nonterminal A = .nonterminal B ∧ g.Generates B [] := by
      refine closure_least (fun s => ∃ B, s = .nonterminal B ∧ g.Generates B []) ?_ ?_ h
      · intro r hr _ hall
        exact ⟨_, rfl, g.models_generates r hr [] (spells_nil.mpr hall)⟩
      · intro s hs
        obtain ⟨r, hr, he, rfl⟩ := mem_emptyHeads.mp hs
        exact ⟨_, rfl, g.models_generates r hr [] (by rw [he]; rfl)⟩
    obtain ⟨B, hB, hg⟩ := hp
    exact Symbol.nonterminal.inj hB ▸ hg
  · intro h
    let S : Interpretation := fun B w => w = [] → .nonterminal B ∈ g.closure .all g.emptyHeads
    refine Models.generates (S := S) ?_ h rfl
    rintro r hr w hw rfl
    by_cases hne : r.rhs = []
    · exact seed_subset_closure (mem_emptyHeads.mpr ⟨r, hr, hne, rfl⟩)
    · apply closedUnder_closure r hr hne
      intro s hs
      obtain ⟨B, rfl, hB⟩ := spells_nil.mp hw s hs
      exact hB rfl

theorem mem_terminals {a : Label} : a ∈ g.terminals ↔ ∃ r ∈ g.rules, .terminal a ∈ r.rhs := by
  simp only [terminals, SortedList.mem_ofList, List.mem_flatMap, Rule.mem_rhsLabels]

theorem mem_productive : A ∈ g.productive ↔ ∃ w, g.Generates A w := by
  rw [productive, mem_filterMap_name]
  constructor
  · intro h
    refine closure_least (fun s => ∀ B, s = .nonterminal B → ∃ w, g.Generates B w) ?_ ?_ h A rfl
    · intro r hr _ hall B hB
      obtain ⟨w, hw⟩ := exists_spells_iff.mpr (fun C hC => hall _ hC C rfl)
      exact ⟨w, Symbol.nonterminal.inj hB ▸ g.models_generates r hr w hw⟩
    · rintro _ hs B rfl
      obtain ⟨r, hr, he, hB⟩ := mem_emptyHeads.mp (by simpa using hs)
      obtain rfl := Symbol.nonterminal.inj hB
      exact ⟨[], g.models_generates r hr [] (by rw [he]; rfl)⟩
  · rintro ⟨w, h⟩
    let S : Interpretation := fun B _ =>
      .nonterminal B ∈ g.closure .all (g.terminals.map .terminal ++ g.emptyHeads)
    refine Models.generates (S := S) ?_ h
    intro r hr w hw
    by_cases hne : r.rhs = []
    · apply seed_subset_closure
      exact List.mem_append_right _ (mem_emptyHeads.mpr ⟨r, hr, hne, rfl⟩)
    · apply closedUnder_closure r hr hne
      intro s hs
      cases s with
      | terminal a =>
        apply seed_subset_closure
        exact List.mem_append_left _ (List.mem_map_of_mem (mem_terminals.mpr ⟨r, hr, hs⟩))
      | nonterminal B =>
        obtain ⟨_, hB⟩ := exists_spells_iff.mp ⟨w, hw⟩ B hs
        exact hB

end Grammar

end ContextFreePaths
