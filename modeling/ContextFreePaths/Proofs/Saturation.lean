import ContextFreePaths.Proofs.ReachTable
import ContextFreePaths.Reachability

/-!
The passes over the binary productions. The count last seen for a head is the count of its matrix,
so a step that finds the same count has changed nothing. A pass without a change therefore leaves
a table that is closed under the productions, and from the second pass on every change sets an
entry.
-/

namespace ContextFreePaths

def Respects (P : Name → Nat → Nat → Prop) (rules : List (Name × Name × Name)) : Prop :=
  ∀ head left right, (head, left, right) ∈ rules →
    ∀ i k j, P left i k → P right k j → P head i j

namespace Sweep

variable {s s' s'' e : Sweep} {mid : List Sweep} {head left right A B : Name} {i j n : Nat}
  {rules : List (Name × Name × Name)}

structure Tracks (s : Sweep) : Prop where
  uniform : s.table.Uniform
  ascending : SortedList.Ascending (s.seen.map Prod.fst)
  count_eq : ∀ A c, s.seen.lookup A = some c → s.table.countAt A = c

structure StepOf (s s' : Sweep) (head left right : Name) : Prop where
  tracks : s'.Tracks
  wider : s.table.Extends s'.table
  reaches : ∀ B i j, s'.table.Reaches B i j ↔ s.table.Reaches B i j ∨
    B = head ∧ ∃ k, s.table.Reaches left i k ∧ s.table.Reaches right k j
  seen : ∀ B, s'.seen.lookup B =
    if B = head then some (s'.table.countAt head) else s.seen.lookup B
  changed : s'.changed = (s.changed || (s.seen.lookup head).getD 0 != s'.table.countAt head)

theorem exists_step (hs : s.Tracks) (hh : head ∈ s.table.names) (hl : left ∈ s.table.names)
    (hr : right ∈ s.table.names) :
    ∃ s', s.step? (head, left, right) = some s' ∧ s.StepOf s' head left right := by
  obtain ⟨t, ht, wider, reaches⟩ := ReachTable.exists_accumulate hs.uniform hh hl hr
  obtain ⟨m, hm⟩ := ReachTable.exists_matrix?.mp (wider.names_eq ▸ hh)
  have count : t.countAt head = m.count := by simp [ReachTable.countAt, hm]
  have seen : ∀ B, (SortedList.alter head (fun _ => m.count) s.seen).lookup B =
      if B = head then some m.count else s.seen.lookup B := by
    intro B
    rw [SortedList.lookup_alter hs.ascending]
    simp only [beq_iff_eq]
  refine ⟨⟨t, SortedList.alter head (fun _ => m.count) s.seen,
    s.changed || (s.seen.lookup head).getD 0 != m.count⟩, ?_, ?_⟩
  · simp [step?, ht, hm]
  · refine ⟨⟨wider.uniform', ?_, fun B c hB => ?_⟩, wider, reaches, ?_, ?_⟩
    · rw [SortedList.keys_alter]
      exact SortedList.ascending_insert hs.ascending
    · rw [seen] at hB
      split at hB
      · next h =>
        rw [h, count]
        exact Option.some.inj hB
      · next h =>
        rw [← hs.count_eq B c hB]
        apply wider.countAt_eq
        intro i j hij
        simpa [h] using (reaches B i j).mp hij
    · rwa [count]
    · rw [count]

theorem StepOf.of_unchanged (h : s.StepOf s' head left right) (hs : s.Tracks)
    (hc : s'.changed = false) :
    s.changed = false ∧ ∀ B i j, s'.table.Reaches B i j → s.table.Reaches B i j := by
  rw [h.changed, Bool.or_eq_false_iff, bne_eq_false_iff_eq] at hc
  refine ⟨hc.1, fun B i j hB => ?_⟩
  have kept : s'.table.countAt head ≤ s.table.countAt head := by
    -- A head that was not seen counts as empty, and so it was if the new count is zero.
    cases hseen : s.seen.lookup head with
    | none =>
      rw [hseen, Option.getD_none] at hc
      omega
    | some c =>
      have count := hs.count_eq head c hseen
      rw [hseen, Option.getD_some] at hc
      omega
  rcases (h.reaches B i j).mp hB with hB | ⟨rfl, _⟩
  · exact hB
  · exact h.wider.reaches_of_countAt_le kept hB

theorem StepOf.of_changed (h : s.StepOf s' head left right) (hs : s.Tracks)
    (hc : s'.changed = true) : s.changed = true ∨ s.seen.lookup head = none ∨
      ∃ B i j, ¬s.table.Reaches B i j ∧ s'.table.Reaches B i j := by
  rw [h.changed, Bool.or_eq_true, bne_iff_ne] at hc
  rcases hc with hc | hc
  · exact .inl hc
  · cases hseen : s.seen.lookup head with
    | none => exact .inr (.inl rfl)
    | some c =>
      rw [hseen, Option.getD_some, ← hs.count_eq head c hseen] at hc
      obtain ⟨i, j, old, new⟩ := h.wider.exists_new hc
      exact .inr (.inr ⟨head, i, j, old, new⟩)

structure Progress (rules : List (Name × Name × Name)) (s s' : Sweep) : Prop where
  tracks : s'.Tracks
  wider : s.table.Extends s'.table
  seen : ∀ A, s'.seen.lookup A = none → s.seen.lookup A = none ∧ ∀ rule ∈ rules, rule.1 ≠ A
  idle : s'.changed = false → s.changed = false ∧
    (∀ A i j, s'.table.Reaches A i j → s.table.Reaches A i j) ∧ Respects s.table.Reaches rules
  grows : s'.changed = true → s.changed = true ∨ (∃ rule ∈ rules, s.seen.lookup rule.1 = none) ∨
    ∃ A i j, ¬s.table.Reaches A i j ∧ s'.table.Reaches A i j
  least : ∀ P, Respects P rules → (∀ A i j, s.table.Reaches A i j → P A i j) →
    ∀ A i j, s'.table.Reaches A i j → P A i j

theorem Progress.refl (hs : s.Tracks) : Progress [] s s where
  tracks := hs
  wider := .refl hs.uniform
  seen A h := ⟨h, by simp⟩
  idle h := ⟨h, fun _ _ _ => id, by simp [Respects]⟩
  grows h := .inl h
  least _ _ h := h

theorem Progress.concat (h : Progress rules s s') (step : s'.StepOf s'' head left right) :
    Progress (rules ++ [(head, left, right)]) s s'' where
  tracks := step.tracks
  wider := h.wider.trans step.wider
  seen A hA := by
    rw [step.seen] at hA
    split at hA
    · cases hA
    · next hne =>
      obtain ⟨old, heads⟩ := h.seen A hA
      refine ⟨old, fun rule hrule => ?_⟩
      rcases List.mem_append.mp hrule with hrule | hrule
      · exact heads rule hrule
      · rw [List.mem_singleton.mp hrule]
        exact Ne.symm hne
  idle hc := by
    obtain ⟨hc, same⟩ := step.of_unchanged h.tracks hc
    obtain ⟨hc, same', closed⟩ := h.idle hc
    refine ⟨hc, fun A i j hA => same' A i j (same A i j hA), ?_⟩
    intro hd l r mem i k j hl hr
    rcases List.mem_append.mp mem with mem | mem
    · exact closed hd l r mem i k j hl hr
    · obtain ⟨rfl, rfl, rfl⟩ : hd = head ∧ l = left ∧ r = right := by simpa using mem
      have joined := (step.reaches hd i j).mpr
        (.inr ⟨rfl, k, h.wider.reaches l i k hl, h.wider.reaches r k j hr⟩)
      exact same' hd i j (same hd i j joined)
  grows hc := by
    rcases step.of_changed h.tracks hc with hc | unseen | ⟨A, i, j, old, new⟩
    · rcases h.grows hc with hc | ⟨rule, hrule, unseen⟩ | ⟨A, i, j, old, new⟩
      · exact .inl hc
      · exact .inr (.inl ⟨rule, List.mem_append_left _ hrule, unseen⟩)
      · exact .inr (.inr ⟨A, i, j, old, step.wider.reaches A i j new⟩)
    · exact .inr (.inl ⟨_, List.mem_append_right _ List.mem_cons_self, (h.seen head unseen).1⟩)
    · exact .inr (.inr ⟨A, i, j, fun hA => old (h.wider.reaches A i j hA), new⟩)
  least P hP hs A i j hA := by
    have before := h.least P (fun hd l r mem => hP hd l r (List.mem_append_left _ mem)) hs
    rcases (step.reaches A i j).mp hA with hA | ⟨rfl, k, hl, hr⟩
    · exact before A i j hA
    · exact hP A left right (List.mem_append_right _ List.mem_cons_self) i k j
        (before left i k hl) (before right k j hr)

def Named (rules : List (Name × Name × Name)) (names : List Name) : Prop :=
  ∀ head left right, (head, left, right) ∈ rules →
    head ∈ names ∧ left ∈ names ∧ right ∈ names

theorem exists_steps (hs : s.Tracks) (hr : Named rules s.table.names)
    (p : List (Name × Name × Name) → Sweep → Prop) (nil : p [] s)
    (step : ∀ done head left right s₁ s₂, Progress done s s₁ → StepOf s₁ s₂ head left right →
      p done s₁ → p (done ++ [(head, left, right)]) s₂) :
    ∃ s', rules.foldlM step? s = some s' ∧ Progress rules s s' ∧ p rules s' := by
  apply exists_foldlM (fun done s' => Progress done s s' ∧ p done s')
  · exact ⟨.refl hs, nil⟩
  · rintro done ⟨head, left, right⟩ s₁ mem ⟨progress, kept⟩
    obtain ⟨hh, hl, hr⟩ := hr head left right mem
    rw [← progress.wider.names_eq] at hh hl hr
    obtain ⟨s₂, run, spec⟩ := exists_step progress.tracks hh hl hr
    exact ⟨s₂, run, progress.concat spec, step done head left right s₁ s₂ progress spec kept⟩

def close (s : Sweep) : Sweep :=
  { s with table := { s.table.recordCounts with passes := s.table.passes + 1 } }

theorem Progress.close (h : Progress rules s s') : Progress rules s s'.close where
  tracks := ⟨⟨h.tracks.uniform.nodup, h.tracks.uniform.size_eq⟩, h.tracks.ascending,
    h.tracks.count_eq⟩
  wider := ⟨h.wider.uniform, ⟨h.tracks.uniform.nodup, h.tracks.uniform.size_eq⟩, h.wider.names_eq,
    h.wider.dimension_eq, h.wider.reaches⟩
  seen := h.seen
  idle := h.idle
  grows := h.grows
  least := h.least

theorem pass?_eq_some : pass? rules s = some s' ↔
    ∃ s₁, rules.foldlM step? { s with changed := false } = some s₁ ∧ s₁.close = s' := by
  simp [pass?, close, Option.bind_eq_some_iff]

theorem Tracks.restart (hs : s.Tracks) : Tracks { s with changed := false } :=
  ⟨hs.uniform, hs.ascending, hs.count_eq⟩

theorem exists_pass (hs : s.Tracks) (hr : Named rules s.table.names) :
    ∃ s', pass? rules s = some s' ∧ Progress rules { s with changed := false } s' := by
  obtain ⟨s₁, run, p, _⟩ :=
    exists_steps hs.restart hr (fun _ _ => True) trivial (fun _ _ _ _ _ _ _ _ _ => trivial)
  exact ⟨s₁.close, pass?_eq_some.mpr ⟨s₁, run, rfl⟩, p.close⟩

theorem progress_of_pass (hs : s.Tracks) (hr : Named rules s.table.names)
    (pass : pass? rules s = some s') : Progress rules { s with changed := false } s' := by
  obtain ⟨s₁, run, p⟩ := exists_pass hs hr
  obtain rfl := Option.some.inj (pass.symm.trans run)
  exact p

structure Saturates (rules : List (Name × Name × Name)) (t t' : ReachTable) : Prop where
  wider : t.Extends t'
  closed : Respects t'.Reaches rules
  least : ∀ P, Respects P rules → (∀ A i j, t.Reaches A i j → P A i j) →
    ∀ A i j, t'.Reaches A i j → P A i j

theorem saturates_of_unchanged (p : Progress rules { s with changed := false } s')
    (hc : s'.changed = false) : Saturates rules s.table s'.table := by
  obtain ⟨_, same, closed⟩ := p.idle hc
  refine ⟨p.wider, fun hd l r mem i k j hl hr => ?_, p.least⟩
  exact p.wider.reaches hd i j (closed hd l r mem i k j (same l i k hl) (same r k j hr))

theorem Saturates.of_progress {t : ReachTable} (p : Progress rules { s with changed := false } s')
    (h : Saturates rules s'.table t) : Saturates rules s.table t where
  wider := p.wider.trans h.wider
  closed := h.closed
  least P hP hs := h.least P hP (p.least P hP hs)

theorem total_lt_of_changed (p : Progress rules { s with changed := false } s')
    (seen : ∀ rule ∈ rules, s.seen.lookup rule.1 ≠ none) (hc : s'.changed = true) :
    s.table.total < s'.table.total := by
  rcases p.grows hc with hc | ⟨rule, hrule, unseen⟩ | ⟨A, i, j, old, new⟩
  · cases hc
  · exact absurd unseen (seen rule hrule)
  · exact p.wider.total_lt old new

theorem Progress.head_seen (p : Progress rules s s') :
    ∀ rule ∈ rules, s'.seen.lookup rule.1 ≠ none :=
  fun rule hrule unseen => (p.seen rule.1 unseen).2 rule hrule rfl

theorem Progress.named (p : Progress rules s s') (hr : Named rules s.table.names) :
    Named rules s'.table.names := by
  rwa [p.wider.names_eq]

/-- The passes from a sweep on, as many as it takes: the sweeps in the list come from passes that
changed something, and the last one from the first pass that did not. -/
inductive Run (rules : List (Name × Name × Name)) : Sweep → List Sweep → Sweep → Prop
  | stop {s e : Sweep} (pass : pass? rules s = some e) (idle : e.changed = false) : Run rules s [] e
  | go {s s' e : Sweep} {mid : List Sweep} (pass : pass? rules s = some s')
      (busy : s'.changed = true) (rest : Run rules s' mid e) : Run rules s (s' :: mid) e

theorem Run.idle (h : Run rules s mid e) : e.changed = false := by
  induction h with
  | stop _ idle => exact idle
  | go _ _ _ ih => exact ih

theorem Run.passes?_eq (h : Run rules s mid e) (n : Nat) :
    passes? rules n s = if mid.length < n then some e else none := by
  induction h generalizing n with
  | stop pass idle =>
    cases n with
    | zero => rfl
    | succ n => simp [passes?, pass, idle]
  | go pass busy _ ih =>
    cases n with
    | zero => rfl
    | succ n => simp [passes?, pass, busy, ih]

def advance? (rules : List (Name × Name × Name)) : Nat → Sweep → Option Sweep
  | 0, s => some s
  | n + 1, s => do advance? rules n (← pass? rules s)

theorem Run.advance?_eq (h : Run rules s mid e) (hn : n ≤ mid.length + 1) :
    advance? rules n s = (s :: (mid ++ [e]))[n]? := by
  induction h generalizing n with
  | stop pass _ =>
    cases n with
    | zero => rfl
    | succ n =>
      obtain rfl : n = 0 := by simpa using hn
      simp [advance?, pass]
  | go pass _ _ ih =>
    cases n with
    | zero => rfl
    | succ n =>
      have rest := ih (Nat.le_of_succ_le_succ hn)
      simpa [advance?, pass] using rest

theorem exists_advance (hs : s.Tracks) (hr : Named rules s.table.names) (n : Nat) :
    ∃ s', advance? rules n s = some s' ∧ s'.Tracks ∧ s.table.Extends s'.table := by
  induction n generalizing s with
  | zero => exact ⟨s, rfl, hs, .refl hs.uniform⟩
  | succ n ih =>
    obtain ⟨s₁, pass, p⟩ := exists_pass hs hr
    obtain ⟨s', run, tracks, wider⟩ := ih p.tracks (p.named hr)
    exact ⟨s', by simp [advance?, pass, run], tracks, p.wider.trans wider⟩

theorem Run.saturates (h : Run rules s mid e) (hs : s.Tracks) (hr : Named rules s.table.names) :
    Saturates rules s.table e.table := by
  induction h with
  | stop pass idle => exact saturates_of_unchanged (progress_of_pass hs hr pass) idle
  | go pass _ _ ih =>
    have p := progress_of_pass hs hr pass
    exact .of_progress p (ih p.tracks (p.named hr))

theorem Run.length_le_of_seen (h : Run rules s mid e) (hs : s.Tracks)
    (hr : Named rules s.table.names) (seen : ∀ rule ∈ rules, s.seen.lookup rule.1 ≠ none) :
    mid.length + s.table.total ≤ e.table.total := by
  induction h with
  | stop pass _ =>
    rw [List.length_nil, Nat.zero_add]
    exact (progress_of_pass hs hr pass).wider.total_le_total
  | go pass busy _ ih =>
    have p := progress_of_pass hs hr pass
    have more := total_lt_of_changed p seen busy
    have later := ih p.tracks (p.named hr) p.head_seen
    rw [List.length_cons]
    omega

theorem Run.length_le (h : Run rules s mid e) (hs : s.Tracks) (hr : Named rules s.table.names) :
    mid.length + s.table.total ≤ e.table.total + 1 := by
  cases h with
  | stop pass _ =>
    rw [List.length_nil, Nat.zero_add]
    exact Nat.le_succ_of_le (progress_of_pass hs hr pass).wider.total_le_total
  | go pass _ rest =>
    -- The first pass compares with zero, so it may go on without having set an entry.
    have p := progress_of_pass hs hr pass
    have wider : s.table.total ≤ _ := p.wider.total_le_total
    have later := rest.length_le_of_seen p.tracks (p.named hr) p.head_seen
    rw [List.length_cons]
    omega

theorem exists_run_of_seen (hs : s.Tracks) (hr : Named rules s.table.names)
    (seen : ∀ rule ∈ rules, s.seen.lookup rule.1 ≠ none) : ∃ mid e, Run rules s mid e := by
  -- Each pass that changes something sets one of the entries that are left.
  induction left : s.table.size * s.table.dimension * s.table.dimension - s.table.total
    using Nat.strongRecOn generalizing s with
  | ind n ih =>
    obtain ⟨s', pass, p⟩ := exists_pass hs hr
    have wider : s.table.Extends s'.table := p.wider
    cases hc : s'.changed with
    | false => exact ⟨[], s', .stop pass hc⟩
    | true =>
      have more := total_lt_of_changed p seen hc
      have most := s'.table.total_le
      have fewer :
          s'.table.size * s'.table.dimension * s'.table.dimension - s'.table.total < n := by
        rw [wider.size_eq, wider.dimension_eq] at most ⊢
        omega
      obtain ⟨mid, e, rest⟩ := ih _ fewer p.tracks (p.named hr) p.head_seen rfl
      exact ⟨s' :: mid, e, .go pass hc rest⟩

theorem exists_run (hs : s.Tracks) (hr : Named rules s.table.names) :
    ∃ mid e, Run rules s mid e := by
  obtain ⟨s', pass, p⟩ := exists_pass hs hr
  cases hc : s'.changed with
  | false => exact ⟨[], s', .stop pass hc⟩
  | true =>
    obtain ⟨mid, e, rest⟩ := exists_run_of_seen p.tracks (p.named hr) p.head_seen
    exact ⟨s' :: mid, e, .go pass hc rest⟩

end Sweep

namespace ReachTable

open Sweep

variable {t : ReachTable} {productions : List Production} {head left right : Name} {e : Sweep}
  {mid : List Sweep}

theorem mem_binaryRules : (head, left, right) ∈ t.binaryRules productions ↔
    ⟨head, .binary left right⟩ ∈ productions ∧
      head ∈ t.names ∧ left ∈ t.names ∧ right ∈ t.names := by
  simp only [binaryRules, List.mem_filterMap]
  constructor
  · rintro ⟨⟨A, body⟩, mem, h⟩
    cases body with
    | epsilon => cases h
    | terminal a => cases h
    | binary B C =>
      simp only [Option.ite_none_right_eq_some, Option.some.injEq, Prod.mk.injEq] at h
      obtain ⟨names, rfl, rfl, rfl⟩ := h
      exact ⟨mem, names⟩
  · rintro ⟨mem, names⟩
    exact ⟨_, mem, by simp [names]⟩

theorem map_binaryRules (binary : ∀ p ∈ productions, ∃ B C, p.body = .binary B C)
    (names : ∀ p ∈ productions, ∀ A ∈ p.names, A ∈ t.names) :
    (t.binaryRules productions).map (fun r => ⟨r.1, .binary r.2.1 r.2.2⟩) = productions := by
  induction productions with
  | nil => rfl
  | cons p productions ih =>
    rw [List.forall_mem_cons] at binary names
    obtain ⟨head, body⟩ := p
    obtain ⟨B, C, rfl⟩ : ∃ B C, body = .binary B C := binary.1
    have mem : head ∈ t.names ∧ B ∈ t.names ∧ C ∈ t.names := by
      simpa [Production.names, Body.symbols, Symbol.name?] using names.1
    have first : t.binaryRules (⟨head, .binary B C⟩ :: productions) =
        (head, B, C) :: t.binaryRules productions :=
      List.filterMap_cons_some (if_pos mem)
    rw [first, List.map_cons, ih binary.2 names.2]

theorem named_binaryRules : Named (t.binaryRules productions) t.names :=
  fun _ _ _ mem => (mem_binaryRules.mp mem).2

def sweep (t : ReachTable) : Sweep :=
  { table := t.recordCounts }

theorem tracks_sweep (ht : t.Uniform) : t.sweep.Tracks :=
  ⟨⟨ht.nodup, ht.size_eq⟩, List.Pairwise.nil, fun _ _ h => absurd h (by simp [sweep])⟩

theorem exists_run (ht : t.Uniform) (productions : List Production) :
    ∃ mid e, Run (t.binaryRules productions) t.sweep mid e :=
  Sweep.exists_run (tracks_sweep ht) named_binaryRules

theorem saturate?_eq (ht : t.Uniform) (run : Run (t.binaryRules productions) t.sweep mid e) :
    t.saturate? productions = some e.table := by
  have short := run.length_le (tracks_sweep ht) named_binaryRules
  have sized := (run.saturates (tracks_sweep ht) named_binaryRules).wider
  have bound := e.table.total_le
  rw [sized.size_eq, sized.dimension_eq] at bound
  have fits : mid.length < t.size * t.dimension * t.dimension + 2 := by
    change mid.length < t.sweep.table.size * t.sweep.table.dimension * t.sweep.table.dimension + 2
    omega
  have passes := (run.passes?_eq _).trans (if_pos fits)
  simp only [sweep] at passes
  simp [saturate?, passes]

theorem exists_saturate (ht : t.Uniform) (productions : List Production) :
    ∃ t', t.saturate? productions = some t' ∧
      Saturates (t.binaryRules productions) t t' := by
  obtain ⟨mid, e, run⟩ := exists_run ht productions
  obtain ⟨⟨_, uniform, names_eq, dimension_eq, reaches⟩, closed, least⟩ :=
    run.saturates (tracks_sweep ht) named_binaryRules
  exact ⟨e.table, saturate?_eq ht run, ⟨ht, uniform, names_eq, dimension_eq, reaches⟩, closed,
    least⟩

end ReachTable

end ContextFreePaths
