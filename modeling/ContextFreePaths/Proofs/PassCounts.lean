import Mathlib.Algebra.BigOperators.Group.Finset.Piecewise
import Mathlib.Algebra.GroupWithZero.Nat
import Mathlib.Algebra.Order.BigOperators.Group.Finset
import ContextFreePaths.Proofs.LeastSolution

namespace ContextFreePaths

namespace ReachTable

variable {t t' : ReachTable} {A head left right : Name} {m : BoolMatrix} {heads : Finset Name}
  {d : LabelMatrices} {ps : List Production} {p : Production}

def row (t : ReachTable) : List Nat :=
  t.entries.map (fun p => p.2.count)

theorem matrix?_of_mem (ht : t.Uniform) {e : Name × BoolMatrix} (he : e ∈ t.entries) :
    t.matrix? e.1 = some e.2 :=
  SortedList.lookup_of_mem ht.nodup he

theorem row_eq (ht : t.Uniform) : t.row = t.names.map t.countAt := by
  rw [row, names, List.map_map]
  apply List.map_congr_left
  intro e he
  simp [countAt, matrix?_of_mem ht he]

theorem countAt_eq_countP (ht : t.Uniform) (hA : A ∈ t.names) :
    t.countAt A = (BoolMatrix.positions t.dimension t.dimension).countP
      (fun p => decide (t.Reaches A p.1 p.2)) := by
  obtain ⟨m, hm⟩ := exists_matrix?.mp hA
  have size := ht.size_eq A m hm
  simp only [BoolMatrix.size, Prod.mk.injEq] at size
  rw [countAt, hm, Option.map_some, Option.getD_some, BoolMatrix.count_eq_countP, size.1, size.2]
  simp only [reaches_iff hm, Bool.decide_eq_true]

theorem countAt_le (ht : t.Uniform) (hA : A ∈ t.names) :
    t.countAt A ≤ t.dimension * t.dimension := by
  rw [countAt_eq_countP ht hA, ← BoolMatrix.length_positions]
  exact List.countP_le_length

theorem sum_row (ht : t.Uniform) : t.row.sum = t.total := by
  rw [row_eq ht, total, places, List.countP_flatMap]
  congr 1
  apply List.map_congr_left
  intro A hA
  rw [countAt_eq_countP ht hA, Function.comp_apply, List.countP_map]
  rfl

theorem total_eq_sum (ht : t.Uniform) : t.total = ∑ A ∈ t.names.toFinset, t.countAt A := by
  rw [← sum_row ht, row_eq ht, List.sum_toFinset _ ht.nodup]

theorem Extends.countAt_le (h : t.Extends t') (A : Name) : t.countAt A ≤ t'.countAt A := by
  by_contra fewer
  have same := h.countAt_eq (A := A) (fun i j => h.reaches_of_countAt_le (by omega))
  omega

theorem Extends.row_eq (h : t.Extends t') (same : ∀ A, t'.countAt A = t.countAt A) :
    t'.row = t.row := by
  rw [ReachTable.row_eq h.uniform, ReachTable.row_eq h.uniform', h.names_eq]
  exact List.map_congr_left (fun A _ => same A)

theorem Extends.total_le_of_heads (h : t.Extends t')
    (quiet : ∀ A ∉ heads, t'.countAt A = t.countAt A) :
    t'.total ≤ t.total + heads.card * (t.dimension * t.dimension) := by
  rw [total_eq_sum h.uniform, total_eq_sum h.uniform', h.names_eq]
  have gain : ∀ A ∈ t.names.toFinset, t'.countAt A ≤
      t.countAt A + if A ∈ heads then t.dimension * t.dimension else 0 := by
    intro A hA
    split
    · rw [List.mem_toFinset, ← h.names_eq] at hA
      have := ReachTable.countAt_le h.uniform' hA
      rw [h.dimension_eq] at this
      exact Nat.le_trans this (Nat.le_add_left _ _)
    · next hheads => exact Nat.le_of_eq (quiet A hheads)
  calc ∑ A ∈ t.names.toFinset, t'.countAt A
    _ ≤ ∑ A ∈ t.names.toFinset,
          (t.countAt A + if A ∈ heads then t.dimension * t.dimension else 0) :=
        Finset.sum_le_sum gain
    _ = ∑ A ∈ t.names.toFinset, t.countAt A +
          (t.names.toFinset ∩ heads).card * (t.dimension * t.dimension) := by
        rw [Finset.sum_add_distrib, Finset.sum_ite_mem,
          Finset.sum_const_nat (fun _ _ => rfl)]
    _ ≤ ∑ A ∈ t.names.toFinset, t.countAt A + heads.card * (t.dimension * t.dimension) := by
        have fewer : (t.names.toFinset ∩ heads).card ≤ heads.card :=
          Finset.card_le_card Finset.inter_subset_right
        exact Nat.add_le_add_left (Nat.mul_le_mul_right _ fewer) _

def log (t : ReachTable) : Nat × List (List Nat) :=
  (t.passes, t.counts)

theorem log_unionAt (h : t.unionAt? A m = some t') : t'.log = t.log := by
  simp only [unionAt?, bind, Option.bind_eq_some_iff, pure, Option.some.injEq] at h
  obtain ⟨_, _, _, _, rfl⟩ := h
  rfl

theorem log_accumulate (h : t.accumulate? head left right = some t') : t'.log = t.log := by
  simp only [accumulate?, bind, Option.bind_eq_some_iff] at h
  obtain ⟨_, _, _, _, _, _, h⟩ := h
  exact log_unionAt h

theorem log_seedEpsilon : (t.seedEpsilon ps).log = t.log := by
  induction ps generalizing t with
  | nil => rfl
  | cons p ps ih => exact ih (t := t.setMatrix p.head (.identity t.dimension))

theorem log_seedLetter (h : seedLetter? d t p = some t') : t'.log = t.log := by
  unfold seedLetter? at h
  split at h
  · split at h
    · exact log_unionAt h
    · rw [Option.some.inj h]
  · rw [Option.some.inj h]

end ReachTable

namespace Sweep

variable {s s' e : Sweep} {mid : List Sweep} {rules done : List (Name × Name × Name)}
  {rule : Name × Name × Name} {A head left right : Name}

theorem log_step (h : step? s rule = some s') : s'.table.log = s.table.log := by
  simp only [step?, bind, Option.bind_eq_some_iff, pure, Option.some.injEq] at h
  obtain ⟨_, accumulated, _, _, rfl⟩ := h
  exact ReachTable.log_accumulate accumulated

theorem log_pass (pass : pass? rules s = some s') :
    s'.table.log = (s.table.passes + 1, s.table.counts ++ [s'.table.row]) := by
  obtain ⟨s₁, run, rfl⟩ := pass?_eq_some.mp pass
  obtain ⟨passes, counts⟩ := Prod.mk.inj
    (foldlM_keeps (fun s : Sweep => s.table.log) (fun _ _ _ => log_step) run)
  simp only at passes counts
  rw [← passes, ← counts]
  rfl

theorem Run.log (h : Run rules s mid e) : e.table.log = (s.table.passes + (mid.length + 1),
    s.table.counts ++ (mid ++ [e]).map (fun x => x.table.row)) := by
  induction h with
  | stop pass _ => exact log_pass pass
  | go pass _ _ ih =>
    obtain ⟨passes, counts⟩ := Prod.mk.inj (log_pass pass)
    rw [ih, passes, counts, List.length_cons, List.cons_append, List.map_cons, List.append_assoc]
    exact Prod.ext (by omega) rfl

theorem Run.pairwise (h : Run rules s mid e) (hs : s.Tracks) (hr : Named rules s.table.names) :
    (s :: (mid ++ [e])).Pairwise (fun x y => x.table.Extends y.table) := by
  induction h with
  | stop pass _ => exact List.pairwise_pair.mpr (progress_of_pass hs hr pass).wider
  | go pass _ _ ih =>
    have p := progress_of_pass hs hr pass
    have later := ih p.tracks (p.named hr)
    refine List.pairwise_cons.mpr ⟨fun x hx => ?_, later⟩
    rcases List.mem_cons.mp hx with rfl | hx
    · exact p.wider
    · exact p.wider.trans ((List.pairwise_cons.mp later).1 x hx)

theorem Run.pairwise_total_of_seen (h : Run rules s mid e) (hs : s.Tracks)
    (hr : Named rules s.table.names) (seen : ∀ rule ∈ rules, s.seen.lookup rule.1 ≠ none) :
    (s :: mid).Pairwise (fun x y => x.table.total < y.table.total) := by
  induction h with
  | stop _ _ => exact List.pairwise_singleton _ _
  | go pass busy _ ih =>
    have p := progress_of_pass hs hr pass
    have more := total_lt_of_changed p seen busy
    have later := ih p.tracks (p.named hr) p.head_seen
    refine List.pairwise_cons.mpr ⟨fun x hx => ?_, later⟩
    rcases List.mem_cons.mp hx with rfl | hx
    · exact more
    · exact Nat.lt_trans more ((List.pairwise_cons.mp later).1 x hx)

theorem Run.pairwise_total (h : Run rules s mid e) (hs : s.Tracks)
    (hr : Named rules s.table.names) :
    mid.Pairwise (fun x y => x.table.total < y.table.total) := by
  cases h with
  | stop _ _ => exact .nil
  | go pass _ rest =>
    have p := progress_of_pass hs hr pass
    exact rest.pairwise_total_of_seen p.tracks (p.named hr) p.head_seen

theorem Progress.countAt_eq (p : Progress rules s s') (hA : ∀ rule ∈ rules, rule.1 ≠ A) :
    s'.table.countAt A = s.table.countAt A := by
  refine p.wider.countAt_eq (fun i j new => ?_)
  -- The rules respect the relation in which a head reaches everything.
  have kept := p.least (fun B i j => (∃ rule ∈ rules, rule.1 = B) ∨ s.table.Reaches B i j)
    (fun head left right mem _ _ _ _ _ => .inl ⟨_, mem, rfl⟩) (fun _ _ _ => .inr) A i j new
  rcases kept with ⟨rule, hrule, same⟩ | old
  · exact absurd same (hA rule hrule)
  · exact old

theorem Run.countAt_eq (h : Run rules s mid e) (hs : s.Tracks) (hr : Named rules s.table.names)
    (hA : ∀ rule ∈ rules, rule.1 ≠ A) :
    ∀ x ∈ mid ++ [e], x.table.countAt A = s.table.countAt A := by
  induction h with
  | stop pass _ =>
    intro x hx
    obtain rfl := List.mem_singleton.mp hx
    exact (progress_of_pass hs hr pass).countAt_eq hA
  | go pass _ _ ih =>
    have p := progress_of_pass hs hr pass
    have first := p.countAt_eq hA
    intro x hx
    rcases List.mem_cons.mp hx with rfl | hx
    · exact first
    · exact (ih p.tracks (p.named hr) x hx).trans first

theorem Run.last_row (h : Run rules s mid e) (hs : s.Tracks) (hr : Named rules s.table.names) :
    e.table.row = ((s :: mid).getLast (List.cons_ne_nil s mid)).table.row := by
  induction h with
  | stop pass idle =>
    have p := progress_of_pass hs hr pass
    have same := (p.idle idle).2.1
    exact p.wider.row_eq (fun A => p.wider.countAt_eq (same A))
  | go pass _ _ ih =>
    have p := progress_of_pass hs hr pass
    rw [List.getLast_cons_cons]
    exact ih p.tracks (p.named hr)

/-- The state of a pass that began with no count seen. -/
structure FirstPass (done : List (Name × Name × Name)) (s : Sweep) : Prop where
  empty : s.changed = false → ∀ A c, s.seen.lookup A = some c → c = 0
  idle : (∀ rule ∈ done, s.table.countAt rule.1 = 0) → s.changed = false

theorem FirstPass.seen_zero (h : FirstPass done s) (hc : s.changed = false) (A : Name) :
    (s.seen.lookup A).getD 0 = 0 := by
  cases hseen : s.seen.lookup A with
  | none => rfl
  | some c => exact h.empty hc A c hseen

theorem FirstPass.concat (h : FirstPass done s) (step : StepOf s s' head left right) :
    FirstPass (done ++ [(head, left, right)]) s' where
  empty hc A c hA := by
    rw [step.changed, Bool.or_eq_false_iff, bne_eq_false_iff_eq] at hc
    rw [step.seen] at hA
    split at hA
    · rw [← Option.some.inj hA, ← hc.2, h.seen_zero hc.1]
    · exact h.empty hc.1 A c hA
  idle zero := by
    have hc : s.changed = false := h.idle (fun rule hrule => by
      have := step.wider.countAt_le rule.1
      have := zero rule (List.mem_append_left _ hrule)
      omega)
    rw [step.changed, hc, h.seen_zero hc, zero _ (List.mem_append_right _ List.mem_cons_self)]
    rfl

theorem exists_first_pass (hs : s.Tracks) (hr : Named rules s.table.names) (fresh : s.seen = []) :
    ∃ s', pass? rules s = some s' ∧
      (s'.changed = false ↔ ∀ rule ∈ rules, s'.table.countAt rule.1 = 0) := by
  have nothing : FirstPass [] { s with changed := false } :=
    ⟨fun _ A c hA => by simp [fresh] at hA, fun _ => rfl⟩
  obtain ⟨s₁, run, p, first⟩ := exists_steps hs.restart hr FirstPass nothing
    (fun _ _ _ _ _ _ _ step h => h.concat step)
  refine ⟨s₁.close, pass?_eq_some.mpr ⟨s₁, run, rfl⟩, fun hc rule hrule => ?_, first.idle⟩
  obtain ⟨c, hc'⟩ := Option.ne_none_iff_exists'.mp (p.head_seen rule hrule)
  exact (p.tracks.count_eq rule.1 c hc').trans (first.empty hc rule.1 c hc')

theorem Run.mid_eq_nil_iff (h : Run rules s mid e) (hs : s.Tracks)
    (hr : Named rules s.table.names) (fresh : s.seen = []) :
    mid = [] ↔ ∀ rule ∈ rules, e.table.countAt rule.1 = 0 := by
  obtain ⟨s₁, pass₁, zero_iff⟩ := exists_first_pass hs hr fresh
  cases h with
  | stop pass idle =>
    obtain rfl := Option.some.inj (pass.symm.trans pass₁)
    exact ⟨fun _ => zero_iff.mp idle, fun _ => rfl⟩
  | go pass busy rest =>
    obtain rfl := Option.some.inj (pass.symm.trans pass₁)
    have p := progress_of_pass hs hr pass
    have wider := (rest.saturates p.tracks (p.named hr)).wider
    refine ⟨fun h => (nomatch h), fun zero => ?_⟩
    have idle := zero_iff.mpr (fun rule hrule => by
      have := wider.countAt_le rule.1
      have := zero rule hrule
      omega)
    exact absurd (busy.symm.trans idle) Bool.noConfusion

end Sweep

end ContextFreePaths
