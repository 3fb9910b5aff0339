import ContextFreePaths.Proofs.AllPairs

namespace ContextFreePaths

open WeakNormalForm

namespace ReachTable

variable {t t' : ReachTable} {d : LabelMatrices} {f : WeakNormalForm} {n : Nat}

structure Covers (t : ReachTable) (f : WeakNormalForm) (n : Nat) : Prop where
  uniform : t.Uniform
  dimension_eq : t.dimension = n
  names : ∀ A, A ∈ t.names ↔ A ∈ f.variables

structure Fits (t : ReachTable) (f : WeakNormalForm) (n : Nat) : Prop where
  square : ∀ e ∈ t.entries, e.2.size = (n, n)
  placed : ∀ p ∈ f.productions, ∀ A ∈ p.names, ∃! i : Nat, t.names[i]? = some A

theorem Covers.extend (h : t.Covers f n) (wider : t.Extends t') : t'.Covers f n where
  uniform := wider.uniform'
  dimension_eq := wider.dimension_eq.trans h.dimension_eq
  names A := by rw [wider.names_eq, h.names]

theorem Covers.mem_names (h : t.Covers f n) {p : Production} (hp : p ∈ f.productions) {A : Name}
    (hA : A ∈ p.names) : A ∈ t.names :=
  (h.names A).mpr (mem_variables.mpr ⟨p, hp, hA⟩)

theorem Covers.fits (h : t.Covers f n) : t.Fits f n where
  square e he := by
    have lookup := SortedList.lookup_of_mem h.uniform.nodup he
    rw [h.uniform.size_eq e.1 e.2 lookup, h.dimension_eq]
  placed p hp A hA := by
    obtain ⟨i, hi⟩ := List.mem_iff_getElem?.mp (h.mem_names hp hA)
    have place : ∀ j : Nat, t.names[j]? = some A → t.names.idxOf? A = some j :=
      fun _ hj => (FirstSeen.idxOf?_eq_some h.uniform.nodup).mpr hj
    exact ⟨i, hi, fun j hj => Option.some.inj ((place j hj).symm.trans (place i hi))⟩

theorem covers_ofNames (f : WeakNormalForm) (n : Nat) : (ofNames f.variables n).Covers f n where
  uniform := uniform_ofNames f.variables n
  dimension_eq := rfl
  names A := by rw [names_ofNames, FirstSeen.mem_ofList]

theorem Covers.seedEpsilon (h : t.Covers f n) (ps : List Production) :
    (t.seedEpsilon ps).Covers f n := by
  obtain ⟨uniform, names_eq, dimension_eq, _⟩ := seedEpsilon_spec h.uniform ps
  exact ⟨uniform, dimension_eq.trans h.dimension_eq, fun A => by rw [names_eq, h.names]⟩

theorem Covers.exists_seedLetters (h : t.Covers f d.dimension) (hd : d.Uniform)
    (ps : List Production) :
    ∃ t', ps.foldlM (seedLetter? d) t = some t' ∧ t'.Covers f d.dimension := by
  obtain ⟨t', run, wider, _⟩ :=
    ReachTable.exists_seedLetters h.uniform hd h.dimension_eq.symm ps
  exact ⟨t', run, h.extend wider⟩

theorem Covers.map_binaryRules (h : t.Covers f n) (hf : f.Sorted) :
    (t.binaryRules f.binary).map (fun r => ⟨r.1, .binary r.2.1 r.2.2⟩) = f.binary :=
  ReachTable.map_binaryRules hf.binary
    (fun _ hp _ => h.mem_names (mem_productions.mpr (.inr (.inr hp))))

theorem Covers.sweep (h : t.Covers f n) : t.sweep.table.Covers f n :=
  ⟨(tracks_sweep h.uniform).uniform, h.dimension_eq, h.names⟩

end ReachTable

namespace Sweep

variable {s : Sweep} {rules : List (Name × Name × Name)} {f : WeakNormalForm} {n : Nat}

theorem exists_steps_of_advance (hs : s.Tracks) (hr : Named rules s.table.names)
    (covers : s.table.Covers f n) (k : Nat) :
    ∃ s', advance? rules k s = some s' ∧ ∀ done, done <+: rules →
      ∃ s'', done.foldlM step? { s' with changed := false } = some s'' ∧ s''.table.Fits f n := by
  obtain ⟨s', run, tracks, wider⟩ := exists_advance hs hr k
  refine ⟨s', run, fun done hdone => ?_⟩
  have named : Named done s'.table.names := by
    intro head left right hrule
    rw [wider.names_eq]
    exact hr head left right (hdone.subset hrule)
  obtain ⟨s'', steps, p, _⟩ := exists_steps tracks.restart named (fun _ _ => True) trivial
    (fun _ _ _ _ _ _ _ _ _ => trivial)
  exact ⟨s'', steps, ((covers.extend wider).extend p.wider).fits⟩

end Sweep

namespace ReachTable

variable {t : ReachTable}

theorem exists_saturation (ht : t.Uniform) (productions : List Production) :
    ∃ t' k s, t.saturate? productions = some t' ∧
      Sweep.advance? (t.binaryRules productions) k t.sweep = some s ∧ s.table = t' ∧
      t.sweep.table.Extends t' := by
  obtain ⟨mid, e, run⟩ := exists_run ht productions
  refine ⟨e.table, mid.length + 1, e, saturate?_eq ht run, ?_, rfl,
    (run.saturates (tracks_sweep ht) named_binaryRules).wider⟩
  rw [run.advance?_eq (Nat.le_refl _)]
  simp

end ReachTable

namespace Query

variable {V : Type} {q : Query V} {t : ReachTable}

theorem size_of_mem_entries {d : LabelMatrices} (hd : d.Uniform) :
    ∀ e ∈ d.entries, e.2.size = (d.dimension, d.dimension) :=
  fun e he => hd.size_eq e.1 e.2 ((SortedList.mem_iff_lookup hd.ascending).mp he)

variable [DecidableEq V]

theorem exists_projection (closure : q.closure? = some t) :
    ∃ R, q.pairs? = some R ∧ R.Nodup ∧ (t.matrix? q.form.start = none → R = []) ∧
      ∀ u v, (u, v) ∈ R ↔ ∃ M i j, t.matrix? q.form.start = some M ∧ M.get i j = true ∧
        q.vertices[i]? = some u ∧ q.vertices[j]? = some v := by
  obtain ⟨R, pairs, nodup, mem⟩ := exists_pairs_of_closure closure
  have entries : ∀ u v, (u, v) ∈ R ↔ ∃ M i j, t.matrix? q.form.start = some M ∧
      M.get i j = true ∧ q.vertices[i]? = some u ∧ q.vertices[j]? = some v := by
    intro u v
    rw [mem]
    constructor
    · rintro ⟨i, j, hu, hv, M, hM, get⟩
      exact ⟨M, i, j, hM, get, hu, hv⟩
    · rintro ⟨M, i, j, hM, get, hu, hv⟩
      exact ⟨i, j, hu, hv, M, hM, get⟩
  refine ⟨R, pairs, nodup, fun none => ?_, entries⟩
  rw [List.eq_nil_iff_forall_not_mem]
  rintro ⟨u, v⟩ huv
  obtain ⟨M, _, _, hM, _⟩ := (entries u v).mp huv
  exact absurd (none.symm.trans hM) nofun

/-- Nothing fails on the way to the closure, after however many productions of however many passes,
and the pairs are the entries of the start symbol whose indices have vertices. -/
theorem closure_never_fails (g : Grammar) (f : WeakNormalForm)
    (hf : WeakNormalForm.ofGrammar g = .ok f) (m : Nat) (edits : List LabelMatrices.Edit)
    (vertices : List V) :
    let d := LabelMatrices.ofEdits m edits
    let n := d.dimension
    let blank := ReachTable.ofNames f.variables n
    (∀ e ∈ d.entries, e.2.size = (n, n)) ∧
    (∀ ps, ps <+: f.epsilon → (blank.seedEpsilon ps).Fits f n) ∧
    (∀ ps, ps <+: f.unary → ∃ t, ps.foldlM (ReachTable.seedLetter? d)
      (blank.seedEpsilon f.epsilon) = some t ∧ t.Fits f n) ∧
    ∃ t₀ t R, (Query.mk f d vertices).seeds? = some t₀ ∧
      (t₀.binaryRules f.binary).map (fun r => ⟨r.1, .binary r.2.1 r.2.2⟩) = f.binary ∧
      (∀ k, ∃ s, Sweep.advance? (t₀.binaryRules f.binary) k t₀.sweep = some s ∧
        ∀ rules, rules <+: t₀.binaryRules f.binary →
          ∃ s', rules.foldlM Sweep.step? { s with changed := false } = some s' ∧
            s'.table.Fits f n) ∧
      t₀.saturate? f.binary = some t ∧
      (∃ k s, Sweep.advance? (t₀.binaryRules f.binary) k t₀.sweep = some s ∧ s.table = t) ∧
      (Query.mk f d vertices).closure? = some t ∧ t.Fits f n ∧
      (Query.mk f d vertices).pairs? = some R ∧ R.Nodup ∧
      (t.matrix? f.start = none → R = []) ∧
      ∀ u v, (u, v) ∈ R ↔ ∃ M i j, t.matrix? f.start = some M ∧ M.get i j = true ∧
        vertices[i]? = some u ∧ vertices[j]? = some v := by
  intro d n blank
  obtain ⟨f₀, hf₀, form⟩ := exists_ofGrammar g
  obtain rfl := Except.ok.inj (hf₀.symm.trans hf)
  have uniform : d.Uniform := LabelMatrices.uniform_ofEdits m edits
  have seeded : ∀ ps, (blank.seedEpsilon ps).Covers f₀ n :=
    (ReachTable.covers_ofNames f₀ n).seedEpsilon
  obtain ⟨t₀, seeds, covers⟩ : ∃ t₀, (Query.mk f₀ d vertices).seeds? = some t₀ ∧ t₀.Covers f₀ n :=
    (seeded f₀.epsilon).exists_seedLetters uniform f₀.unary
  obtain ⟨t, k, s, saturate, last, table, wider⟩ :=
    ReachTable.exists_saturation covers.uniform f₀.binary
  have closure := closure?_of_seeds seeds saturate
  obtain ⟨R, pairs, nodup, empty, entries⟩ := exists_projection closure
  refine ⟨size_of_mem_entries uniform, fun ps _ => (seeded ps).fits, fun ps _ => ?_, t₀, t, R,
    seeds, covers.map_binaryRules form.sorted, fun k => ?_, saturate, ⟨k, s, last, table⟩, closure,
    (covers.sweep.extend wider).fits, pairs, nodup, empty, entries⟩
  · obtain ⟨t, run, covers⟩ := (seeded f₀.epsilon).exists_seedLetters uniform ps
    exact ⟨t, run, covers.fits⟩
  · exact Sweep.exists_steps_of_advance (ReachTable.tracks_sweep covers.uniform)
      ReachTable.named_binaryRules covers.sweep k

theorem nested_closure_never_fails :
    WeakNormalForm.ofGrammar nested = .ok nestedForm ∧
      let q : Query String := ⟨nestedForm, .ofEdits 0 [.grow 4, .addEdge 0 1 "a", .addEdge 1 2 "b"],
        ["u", "u", "x"]⟩
      ∃ t R, q.closure? = some t ∧ t.Fits nestedForm 4 ∧ q.pairs? = some R ∧ R.Nodup ∧
        ∀ u v, (u, v) ∈ R ↔ ∃ M i j, t.matrix? "S" = some M ∧ M.get i j = true ∧
          q.vertices[i]? = some u ∧ q.vertices[j]? = some v := by
  have form : WeakNormalForm.ofGrammar nested = .ok nestedForm := by decide +kernel
  obtain ⟨_, _, _, _, t, R, _, _, _, _, _, closure, fits, pairs, nodup, _, entries⟩ :=
    closure_never_fails nested nestedForm form 0
      [.grow 4, .addEdge 0 1 "a", .addEdge 1 2 "b"] ["u", "u", "x"]
  exact ⟨form, t, R, closure, fits, pairs, nodup, entries⟩

end Query

end ContextFreePaths
