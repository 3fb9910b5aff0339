import ContextFreePaths.Proofs.PassCounts
import ContextFreePaths.Proofs.Region

namespace ContextFreePaths

namespace ReachTable

variable {t x : ReachTable} {tables : List ReachTable} {A : Name} {i k : Nat}

def totalAfter (t : ReachTable) (passes : Nat) : Nat :=
  (t.counts[passes]?.getD []).sum

theorem totalAfter_eq (counts : t.counts = tables.map row) (hk : tables[k]? = some x)
    (hx : x.Uniform) : t.totalAfter k = x.total := by
  rw [totalAfter, counts, List.getElem?_map, hk, Option.map_some, Option.getD_some, sum_row hx]

theorem column_eq (counts : t.counts = tables.map row)
    (same : ∀ x ∈ tables, x.Uniform ∧ x.names = t.names) (hi : t.names[i]? = some A) :
    t.counts.map (fun row => row[i]?) = (tables.map (fun x => x.countAt A)).map some := by
  rw [counts, List.map_map, List.map_map]
  apply List.map_congr_left
  intro x hx
  obtain ⟨uniform, names⟩ := same x hx
  simp [row_eq uniform, names, hi]

theorem history?_of_mem (ht : t.names.Nodup) (counts : t.counts = tables.map row)
    (same : ∀ x ∈ tables, x.Uniform ∧ x.names = t.names) (hi : t.names[i]? = some A) :
    t.history? A = some (tables.map (fun x => x.countAt A)) := by
  have place : t.names.idxOf? A = some i := (FirstSeen.idxOf?_eq_some ht).mpr hi
  simp only [history?, place]
  exact mapM_eq_some_iff.mpr (column_eq counts same hi)

theorem history?_of_not_mem (hA : A ∉ t.names) : t.history? A = some [] := by
  rw [history?, List.idxOf?_eq_none_iff.mpr hA]

theorem countAt_eq_zero (hA : A ∈ t.names) :
    t.countAt A = 0 ↔ ∃ m, t.matrix? A = some m ∧ m.isEmpty = true := by
  obtain ⟨m, hm⟩ := exists_matrix?.mp hA
  simp only [countAt, hm, Option.map_some, Option.getD_some, Option.some.injEq, exists_eq_left',
    BoolMatrix.isEmpty_iff, ← Finset.card_eq_zero, BoolMatrix.card_region]

end ReachTable

namespace Sweep

variable {t : ReachTable} {productions : List Production} {mid : List Sweep} {e : Sweep} {A : Name}
  {heads : Finset Name} {k : Nat}

/-- The tables that a run records: the one before the first pass, and the one after each pass. -/
def recorded (t : ReachTable) (mid : List Sweep) (e : Sweep) : List ReachTable :=
  (t.sweep :: (mid ++ [e])).map Sweep.table

theorem length_recorded : (recorded t mid e).length = mid.length + 2 := by
  simp [recorded]

theorem recorded_zero : (recorded t mid e)[0]? = some t.sweep.table :=
  rfl

theorem recorded_mid (hk : k < mid.length) : (recorded t mid e)[k + 1]? = some mid[k].table := by
  rw [recorded, List.map_cons, List.getElem?_cons_succ, List.getElem?_map,
    List.getElem?_append_left hk, List.getElem?_eq_getElem hk, Option.map_some]

theorem recorded_last : (recorded t mid e)[mid.length + 1]? = some e.table := by
  simp [recorded]

variable (ht : t.Uniform) (blank : t.log = (0, []))
  (run : Run (t.binaryRules productions) t.sweep mid e)

include run

theorem Run.exists_recorded (hk : k ≤ mid.length + 1) :
    ∃ s, advance? (t.binaryRules productions) k t.sweep = some s ∧
      (recorded t mid e)[k]? = some s.table := by
  have bound : k < (t.sweep :: (mid ++ [e])).length := by
    simp
    omega
  refine ⟨_, (run.advance?_eq hk).trans (List.getElem?_eq_getElem bound), ?_⟩
  rw [recorded, List.getElem?_map, List.getElem?_eq_getElem bound, Option.map_some]

include blank

theorem Run.passes_eq : e.table.passes = mid.length + 1 := by
  have passes := congrArg Prod.fst run.log
  have none : t.sweep.table.passes = 0 := congrArg Prod.fst blank
  rwa [none, Nat.zero_add] at passes

theorem Run.counts_eq : e.table.counts = (recorded t mid e).map ReachTable.row := by
  have counts : e.table.counts = _ := congrArg Prod.snd run.log
  have first : t.sweep.table.counts = [t.sweep.table.row] := by
    have none : t.counts = [] := congrArg Prod.snd blank
    rw [ReachTable.sweep, ReachTable.recordCounts, none, List.nil_append]
    rfl
  rw [counts, first, recorded, List.map_map]
  rfl

theorem Run.passes?_eq_ite (n : Nat) : passes? (t.binaryRules productions) n t.sweep =
    if e.table.passes ≤ n then some e else none := by
  rw [run.passes?_eq, run.passes_eq blank]
  rfl

theorem Run.length_counts : e.table.counts.length = e.table.passes + 1 := by
  rw [run.counts_eq blank, run.passes_eq blank, List.length_map, length_recorded]

theorem Run.exists_row (hk : k ≤ e.table.passes) :
    ∃ s, advance? (t.binaryRules productions) k t.sweep = some s ∧
      e.table.counts[k]? = some s.table.row := by
  rw [run.passes_eq blank] at hk
  obtain ⟨s, after, recorded⟩ := run.exists_recorded hk
  refine ⟨s, after, ?_⟩
  rw [run.counts_eq blank, List.getElem?_map, recorded, Option.map_some]

theorem Run.getLast?_counts : e.table.counts.getLast? = some e.table.row := by
  rw [run.counts_eq blank, List.getLast?_map, List.getLast?_eq_getElem?, length_recorded]
  exact congrArg _ recorded_last

omit blank

include ht

theorem Run.recorded_pairwise : (recorded t mid e).Pairwise ReachTable.Extends :=
  List.pairwise_map.mpr (run.pairwise (ReachTable.tracks_sweep ht) ReachTable.named_binaryRules)

theorem Run.wider : t.sweep.table.Extends e.table :=
  (run.saturates (ReachTable.tracks_sweep ht) ReachTable.named_binaryRules).wider

theorem Run.recorded_same :
    ∀ x ∈ recorded t mid e, x.Uniform ∧ x.names = e.table.names := by
  have wider := run.wider ht
  have later := (List.pairwise_cons.mp (run.recorded_pairwise ht)).1
  intro x hx
  rcases List.mem_cons.mp hx with rfl | hx
  · exact ⟨wider.uniform, wider.names_eq.symm⟩
  · have from_start : t.sweep.table.Extends x := later x hx
    exact ⟨from_start.uniform', from_start.names_eq.trans wider.names_eq.symm⟩

include blank

theorem Run.history?_eq (hA : A ∈ e.table.names) :
    e.table.history? A = some ((recorded t mid e).map (fun x => x.countAt A)) := by
  obtain ⟨i, hi⟩ := List.mem_iff_getElem?.mp hA
  exact ReachTable.history?_of_mem (run.wider ht).uniform'.nodup (run.counts_eq blank)
    (run.recorded_same ht) hi

theorem Run.exists_column (hA : A ∈ e.table.names) :
    ∃ (i : Nat) (h : List Nat), e.table.names[i]? = some A ∧ e.table.history? A = some h ∧
      e.table.counts.map (fun row => row[i]?) = h.map some ∧
      ∀ k ≤ e.table.passes, ∃ s m, advance? (t.binaryRules productions) k t.sweep = some s ∧
        s.table.matrix? A = some m ∧ h[k]? = some m.count := by
  obtain ⟨i, hi⟩ := List.mem_iff_getElem?.mp hA
  refine ⟨i, _, hi, run.history?_eq ht blank hA,
    ReachTable.column_eq (run.counts_eq blank) (run.recorded_same ht) hi, fun k hk => ?_⟩
  rw [run.passes_eq blank] at hk
  obtain ⟨s, after, recorded⟩ := run.exists_recorded hk
  obtain ⟨_, names⟩ := run.recorded_same ht s.table (List.mem_of_getElem? recorded)
  obtain ⟨m, hm⟩ := ReachTable.exists_matrix?.mp (names ▸ hA)
  refine ⟨s, m, after, hm, ?_⟩
  rw [List.getElem?_map, recorded, Option.map_some, ReachTable.countAt, hm, Option.map_some,
    Option.getD_some]

theorem Run.exists_history (A : Name) : ∃ h, e.table.history? A = some h ∧ h.Pairwise (· ≤ ·) ∧
    ((∀ rule ∈ t.binaryRules productions, rule.1 ≠ A) → ∀ c ∈ h, ∀ c' ∈ h, c = c') := by
  by_cases hA : A ∈ e.table.names
  · refine ⟨_, run.history?_eq ht blank hA, ?_, fun other => ?_⟩
    · rw [List.pairwise_map]
      exact (run.recorded_pairwise ht).imp (fun h => h.countAt_le A)
    · have quiet : ∀ x ∈ recorded t mid e, x.countAt A = t.sweep.table.countAt A := by
        have later := run.countAt_eq (ReachTable.tracks_sweep ht) ReachTable.named_binaryRules other
        rw [recorded, List.forall_mem_map, List.forall_mem_cons]
        exact ⟨rfl, later⟩
      intro c hc c' hc'
      obtain ⟨x, hx, rfl⟩ := List.mem_map.mp hc
      obtain ⟨x', hx', rfl⟩ := List.mem_map.mp hc'
      rw [quiet x hx, quiet x' hx']
  · exact ⟨[], ReachTable.history?_of_not_mem hA, .nil, by simp⟩

theorem Run.totalAfter_of_recorded {x : ReachTable} (hk : (recorded t mid e)[k]? = some x) :
    e.table.totalAfter k = x.total :=
  ReachTable.totalAfter_eq (run.counts_eq blank) hk
    (run.recorded_same ht x (List.mem_of_getElem? hk)).1

theorem Run.last_counts :
    e.table.counts[e.table.passes - 1]? = e.table.counts[e.table.passes]? := by
  have same := run.last_row (ReachTable.tracks_sweep ht) ReachTable.named_binaryRules
  have before : (recorded t mid e)[mid.length]? =
      some ((t.sweep :: mid).getLast (List.cons_ne_nil _ mid)).table := by
    rw [recorded, List.getElem?_map, ← List.cons_append,
      List.getElem?_append_left (Nat.lt_succ_self _), List.getLast_eq_getElem,
      List.getElem?_eq_getElem (Nat.lt_succ_self _)]
    rfl
  rw [run.passes_eq blank, Nat.add_sub_cancel, run.counts_eq blank, List.getElem?_map,
    List.getElem?_map, before, recorded_last, Option.map_some, Option.map_some, same]

theorem Run.totalAfter_lt (hk : 2 ≤ k) (hk' : k < e.table.passes) :
    e.table.totalAfter (k - 1) < e.table.totalAfter k := by
  obtain ⟨i, rfl⟩ := Nat.exists_eq_add_of_le' hk
  rw [run.passes_eq blank] at hk'
  have hi : i + 1 < mid.length := Nat.lt_of_succ_lt_succ hk'
  have grow := run.pairwise_total (ReachTable.tracks_sweep ht) ReachTable.named_binaryRules
  rw [run.totalAfter_of_recorded ht blank (recorded_mid hi),
    run.totalAfter_of_recorded ht blank (k := i + 2 - 1) (recorded_mid (Nat.lt_of_succ_lt hi))]
  exact List.pairwise_iff_getElem.mp grow i (i + 1) _ hi (Nat.lt_succ_self i)

theorem Run.totalAfter_zero : e.table.totalAfter 0 = t.sweep.table.total :=
  run.totalAfter_of_recorded ht blank recorded_zero

theorem Run.totalAfter_passes : e.table.totalAfter e.table.passes = e.table.total := by
  rw [run.passes_eq blank]
  exact run.totalAfter_of_recorded ht blank recorded_last

theorem Run.totalAfter_zero_le : e.table.totalAfter 0 ≤ e.table.totalAfter e.table.passes := by
  rw [run.totalAfter_zero ht blank, run.totalAfter_passes ht blank]
  exact (run.wider ht).total_le_total

theorem Run.passes_le :
    e.table.passes ≤ 2 + (e.table.totalAfter e.table.passes - e.table.totalAfter 0) := by
  have short := run.length_le (ReachTable.tracks_sweep ht) ReachTable.named_binaryRules
  rw [run.totalAfter_passes ht blank, run.totalAfter_zero ht blank, run.passes_eq blank]
  omega

theorem Run.gained_le (headed : ∀ rule ∈ t.binaryRules productions, rule.1 ∈ heads) :
    e.table.totalAfter e.table.passes - e.table.totalAfter 0 ≤
      heads.card * t.dimension * t.dimension := by
  have still : ∀ A ∉ heads, e.table.countAt A = t.sweep.table.countAt A := fun A hA =>
    run.countAt_eq (ReachTable.tracks_sweep ht) ReachTable.named_binaryRules
      (fun rule hrule => ne_of_mem_of_not_mem (headed rule hrule) hA) e
      (List.mem_append_right _ List.mem_cons_self)
  have gained := (run.wider ht).total_le_of_heads still
  have dimension : t.sweep.table.dimension = t.dimension := rfl
  rw [dimension, ← Nat.mul_assoc] at gained
  rw [run.totalAfter_passes ht blank, run.totalAfter_zero ht blank]
  omega

theorem Run.passes_eq_one_iff :
    e.table.passes = 1 ↔ ∀ rule ∈ t.binaryRules productions, e.table.countAt rule.1 = 0 := by
  rw [run.passes_eq blank, Nat.add_eq_right, List.length_eq_zero_iff]
  exact run.mid_eq_nil_iff (ReachTable.tracks_sweep ht) ReachTable.named_binaryRules rfl

end Sweep

namespace Query

open Sweep

variable {V : Type} {q : Query V}

theorem exists_recorded_seeds (hq : q.matrices.Uniform) :
    ∃ t, q.seeds? = some t ∧ t.Uniform ∧ t.log = (0, []) ∧ t.dimension = q.matrices.dimension ∧
      ∀ A, A ∈ t.names ↔ A ∈ q.form.variables := by
  obtain ⟨t, seeds, uniform, dimension_eq, names, _⟩ := exists_seeds hq
  refine ⟨t, seeds, uniform, ?_, dimension_eq, names⟩
  rw [foldlM_keeps ReachTable.log (fun _ _ _ => ReachTable.log_seedLetter) seeds,
    ReachTable.log_seedEpsilon]
  rfl

theorem map_head_binaryRules {f : WeakNormalForm} {t : ReachTable} (hf : f.Sorted)
    (names : ∀ A, A ∈ t.names ↔ A ∈ f.variables) :
    (t.binaryRules f.binary).map Prod.fst = f.binary.map Production.head := by
  have all := ReachTable.map_binaryRules hf.binary (fun p hp A hA => (names A).mpr
    (WeakNormalForm.mem_variables.mpr ⟨p, WeakNormalForm.mem_productions.mpr (.inr (.inr hp)), hA⟩))
  have heads := congrArg (List.map Production.head) all
  rwa [List.map_map] at heads

theorem passes_eq_one_iff_isEmpty {f : WeakNormalForm} {t : ReachTable} {mid : List Sweep}
    {e : Sweep} (hf : f.Sorted) (ht : t.Uniform) (names : ∀ A, A ∈ t.names ↔ A ∈ f.variables)
    (blank : t.log = (0, [])) (run : Run (t.binaryRules f.binary) t.sweep mid e) :
    e.table.passes = 1 ↔
      ∀ p ∈ f.binary, ∃ m, e.table.matrix? p.head = some m ∧ m.isEmpty = true := by
  have covered : ∀ p ∈ f.binary, p.head ∈ e.table.names := by
    intro p hp
    have place : p.head ∈ t.names := (names p.head).mpr (WeakNormalForm.mem_variables.mpr
      ⟨p, WeakNormalForm.mem_productions.mpr (.inr (.inr hp)), List.mem_cons_self⟩)
    rwa [(run.wider ht).names_eq]
  calc e.table.passes = 1
    _ ↔ ∀ rule ∈ t.binaryRules f.binary, e.table.countAt rule.1 = 0 :=
        run.passes_eq_one_iff ht blank
    _ ↔ ∀ A ∈ (t.binaryRules f.binary).map Prod.fst, e.table.countAt A = 0 := by
        rw [List.forall_mem_map]
    _ ↔ ∀ p ∈ f.binary, e.table.countAt p.head = 0 := by
        rw [map_head_binaryRules hf names, List.forall_mem_map]
    _ ↔ ∀ p ∈ f.binary, ∃ m, e.table.matrix? p.head = some m ∧ m.isEmpty = true :=
        forall₂_congr (fun p hp => ReachTable.countAt_eq_zero (covered p hp))

/-- The passes stop by themselves, within a bound, and their record is faithful: a row of counts for
the seeds and for each pass, in which no count goes down and only heads of productions gain. -/
theorem closure_record (g : Grammar) (f : WeakNormalForm) (hf : WeakNormalForm.ofGrammar g = .ok f)
    (n : Nat) (edits : List LabelMatrices.Edit) (vertices : List V) :
    let d := LabelMatrices.ofEdits n edits
    let heads := (f.binary.map Production.head).toFinset
    ∃ t₀ t e, (Query.mk f d vertices).seeds? = some t₀ ∧
      (Query.mk f d vertices).closure? = some t ∧
      (∀ m, Sweep.passes? (t₀.binaryRules f.binary) m t₀.sweep =
        if t.passes ≤ m then some e else none) ∧
      e.changed = false ∧ e.table = t ∧
      t.counts.length = t.passes + 1 ∧
      (∀ k ≤ t.passes, ∃ s, Sweep.advance? (t₀.binaryRules f.binary) k t₀.sweep = some s ∧
        t.counts[k]? = some (s.table.entries.map (fun e => e.2.count))) ∧
      t.counts.getLast? = some (t.entries.map (fun e => e.2.count)) ∧
      (∀ A ∈ f.variables, ∃ (i : Nat) (h : List Nat), t.names[i]? = some A ∧ t.history? A = some h ∧
        t.counts.map (fun row => row[i]?) = h.map some ∧
        ∀ k ≤ t.passes, ∃ s m, Sweep.advance? (t₀.binaryRules f.binary) k t₀.sweep = some s ∧
          s.table.matrix? A = some m ∧ h[k]? = some m.count) ∧
      (∀ A, A ∉ f.variables → t.history? A = some []) ∧
      (∀ A, ∃ h, t.history? A = some h ∧ h.Pairwise (· ≤ ·) ∧
        (A ∉ heads → ∀ c ∈ h, ∀ c' ∈ h, c = c')) ∧
      t.counts[t.passes - 1]? = t.counts[t.passes]? ∧
      (∀ k, 2 ≤ k → k < t.passes → t.totalAfter (k - 1) < t.totalAfter k) ∧
      t.totalAfter 0 ≤ t.totalAfter t.passes ∧
      t.passes ≤ 2 + (t.totalAfter t.passes - t.totalAfter 0) ∧
      t.totalAfter t.passes - t.totalAfter 0 ≤ heads.card * d.dimension * d.dimension ∧
      (t.passes = 1 ↔ ∀ p ∈ f.binary, ∃ m, t.matrix? p.head = some m ∧ m.isEmpty = true) := by
  intro d heads
  obtain ⟨f₀, hf₀, form⟩ := WeakNormalForm.exists_ofGrammar g
  obtain rfl := Except.ok.inj (hf₀.symm.trans hf)
  obtain ⟨t, seeds, ht, blank, dimension_eq, names⟩ := exists_recorded_seeds
    (q := ⟨f₀, d, vertices⟩) (LabelMatrices.uniform_ofEdits n edits)
  obtain ⟨mid, e, run⟩ := ReachTable.exists_run ht f₀.binary
  have covers : ∀ A, A ∈ e.table.names ↔ A ∈ f₀.variables :=
    fun A => (run.wider ht).names_eq ▸ names A
  have headed : ∀ rule ∈ t.binaryRules f₀.binary, rule.1 ∈ heads := by
    intro rule hrule
    rw [List.mem_toFinset, ← map_head_binaryRules form.sorted names]
    exact List.mem_map_of_mem hrule
  have entries := run.gained_le ht blank headed
  rw [dimension_eq] at entries
  refine ⟨t, e.table, e, seeds, closure?_of_seeds seeds (ReachTable.saturate?_eq ht run),
    run.passes?_eq_ite blank, run.idle, rfl, run.length_counts blank,
    fun k => run.exists_row blank, run.getLast?_counts blank,
    fun A hA => run.exists_column ht blank ((covers A).mpr hA),
    fun A hA => ReachTable.history?_of_not_mem (mt (covers A).mp hA), fun A => ?_,
    run.last_counts ht blank,
    fun k => run.totalAfter_lt ht blank, run.totalAfter_zero_le ht blank, run.passes_le ht blank,
    entries, passes_eq_one_iff_isEmpty form.sorted ht names blank run⟩
  obtain ⟨h, history, ascending, quiet⟩ := run.exists_history ht blank A
  exact ⟨h, history, ascending, fun hA =>
    quiet (fun rule hrule => ne_of_mem_of_not_mem (headed rule hrule) hA)⟩

theorem nested_closure_record :
    WeakNormalForm.ofGrammar nested = .ok nestedForm ∧
      let d := LabelMatrices.ofEdits 0
        [.addEdge 0 1 "a", .addEdge 1 2 "a", .addEdge 2 3 "b", .addEdge 3 4 "b"]
      ∃ t h, (Query.mk nestedForm d ["u", "v"]).closure? = some t ∧ t.passes = 3 ∧
        t.counts.length = 4 ∧ t.history? "S" = some h ∧ h.Pairwise (· ≤ ·) ∧
        t.counts[2]? = t.counts[3]? ∧ t.totalAfter 1 < t.totalAfter 2 := by
  have form : WeakNormalForm.ofGrammar nested = .ok nestedForm := by decide +kernel
  refine ⟨form, ?_⟩
  intro d
  have three : (Query.mk nestedForm d ["u", "v"]).closure?.map ReachTable.passes = some 3 := by
    decide +kernel
  obtain ⟨_, t, _, _, closure, _, _, _, rows, _, _, _, _, histories, idle, grows, _⟩ :=
    closure_record nested nestedForm form 0 _ ["u", "v"]
  have passes : t.passes = 3 := by
    rw [closure] at three
    exact Option.some.inj three
  rw [passes] at rows idle
  obtain ⟨h, history, ascending, _⟩ := histories "S"
  exact ⟨t, h, closure, passes, rows, history, ascending, idle, grows 2 (Nat.le_refl 2) (by omega)⟩

end Query

end ContextFreePaths
