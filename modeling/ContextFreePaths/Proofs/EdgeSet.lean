import Mathlib.Order.Nat
import ContextFreePaths.Proofs.LabelMatrices

namespace ContextFreePaths.LabelMatrices

variable {d d' : LabelMatrices} {e : Edit} {edits : List Edit} {n k i j u v : Nat} {a label : Label}

def Edit.bounds : Edit → List Nat
  | grow n => [n]
  | addEdge u v _ => [u + 1, v + 1]

def Edit.growth? : Edit → Option Nat
  | grow n => some n
  | addEdge _ _ _ => none

def growth (edits : List Edit) : Nat :=
  (edits.filterMap Edit.growth?).max?.getD 0

theorem mem_filterMap_growth : k ∈ edits.filterMap Edit.growth? ↔ .grow k ∈ edits := by
  rw [List.mem_filterMap]
  constructor
  · rintro ⟨e, he, hk⟩
    cases e with
    | grow n =>
      obtain rfl := Option.some.inj hk
      exact he
    | addEdge u v a => cases hk
  · intro h
    exact ⟨_, h, rfl⟩

theorem growth_le : growth edits ≤ k ↔ ∀ n, .grow n ∈ edits → n ≤ k := by
  simp only [← mem_filterMap_growth, growth]
  cases h : (edits.filterMap Edit.growth?).max? with
  | none =>
    rw [List.max?_eq_none_iff] at h
    simp [h]
  | some m => exact List.max?_le_iff h

theorem mem_labels : a ∈ d.labels ↔ ∃ m, d.matrix? a = some m := by
  rw [← Option.isSome_iff_exists, Option.isSome_iff_ne_none, matrix?, ne_eq,
    List.lookup_eq_none_iff]
  simp only [labels, List.mem_map, bne_iff_ne, not_forall, not_not, exists_prop]
  exact exists_congr (fun p => and_congr_right (fun _ => eq_comm))

theorem mem_labels_addEdge : a ∈ (d.addEdge u v label).labels ↔ a = label ∨ a ∈ d.labels := by
  have keys : (d.addEdge u v label).labels =
      SortedList.insert label (d.grow (max u v + 1)).labels := SortedList.keys_alter
  rw [keys, SortedList.mem_insert, labels_grow]

@[simp] theorem apply_grow : d.apply (.grow n) = d.grow n :=
  rfl

@[simp] theorem apply_addEdge : d.apply (.addEdge u v label) = d.addEdge u v label :=
  rfl

theorem dimension_apply : (d.apply e).dimension = e.bounds.foldl max d.dimension := by
  cases e with
  | grow n => rw [apply_grow, dimension_grow, Edit.bounds, List.foldl_cons, List.foldl_nil]
  | addEdge u v label =>
    rw [apply_addEdge, dimension_addEdge, Edit.bounds, List.foldl_cons, List.foldl_cons,
      List.foldl_nil]
    omega

theorem mem_labels_apply :
    a ∈ (d.apply e).labels ↔ a ∈ d.labels ∨ ∃ u v, e = .addEdge u v a := by
  cases e with
  | grow n => simp [labels_grow]
  | addEdge u v label => simp [mem_labels_addEdge, or_comm, eq_comm]

theorem hasEdge_apply (hd : d.Uniform) :
    (d.apply e).HasEdge i a j ↔ d.HasEdge i a j ∨ e = .addEdge i j a := by
  cases e with
  | grow n => simp [hasEdge_grow hd]
  | addEdge u v label =>
    simp only [apply_addEdge, hasEdge_addEdge hd, Edit.addEdge.injEq]
    grind

theorem apply_keeps (hd : d.Uniform) (e : Edit) : d.dimension ≤ (d.apply e).dimension ∧
    ∀ i a j, d.HasEdge i a j → (d.apply e).HasEdge i a j := by
  refine ⟨?_, fun i a j h => (hasEdge_apply hd).mpr (.inl h)⟩
  cases e with
  | grow n =>
    rw [apply_grow, dimension_grow]
    exact Nat.le_max_left _ _
  | addEdge u v a =>
    rw [apply_addEdge, dimension_addEdge]
    exact Nat.le_max_left _ _

theorem dimension_foldl_apply (edits : List Edit) (d : LabelMatrices) :
    (edits.foldl apply d).dimension = (edits.flatMap Edit.bounds).foldl max d.dimension := by
  induction edits generalizing d with
  | nil => rfl
  | cons e edits ih =>
    rw [List.foldl_cons, ih, dimension_apply, List.flatMap_cons, List.foldl_append]

theorem mem_labels_foldl_apply (edits : List Edit) (d : LabelMatrices) :
    a ∈ (edits.foldl apply d).labels ↔ a ∈ d.labels ∨ ∃ u v, .addEdge u v a ∈ edits := by
  induction edits generalizing d with
  | nil => simp
  | cons e edits ih =>
    rw [List.foldl_cons, ih, mem_labels_apply, or_assoc]
    simp only [List.mem_cons, eq_comm (b := e), exists_or]

theorem hasEdge_foldl_apply (hd : d.Uniform) :
    (edits.foldl apply d).HasEdge i a j ↔ d.HasEdge i a j ∨ .addEdge i j a ∈ edits := by
  induction edits generalizing d with
  | nil => simp
  | cons e edits ih =>
    rw [List.foldl_cons, ih (uniform_apply hd e), hasEdge_apply hd, or_assoc, List.mem_cons,
      eq_comm (b := e)]

theorem dimension_ofEdits (n : Nat) (edits : List Edit) :
    (n :: edits.flatMap Edit.bounds).max? = some (ofEdits n edits).dimension := by
  rw [List.max?_cons', ofEdits, dimension_foldl_apply]
  rfl

theorem mem_labels_ofEdits : a ∈ (ofEdits n edits).labels ↔ ∃ u v, .addEdge u v a ∈ edits := by
  rw [ofEdits, mem_labels_foldl_apply]
  exact or_iff_right (List.not_mem_nil)

theorem hasEdge_ofEdits : (ofEdits n edits).HasEdge i a j ↔ .addEdge i j a ∈ edits := by
  rw [ofEdits, hasEdge_foldl_apply (uniform_ofDimension n)]
  exact or_iff_right not_hasEdge_ofDimension

theorem dimension_ofEdits_le : (ofEdits n edits).dimension ≤ k ↔
    n ≤ k ∧ growth edits ≤ k ∧ ∀ u v a, .addEdge u v a ∈ edits → u < k ∧ v < k := by
  rw [List.max?_le_iff (dimension_ofEdits n edits), List.forall_mem_cons, growth_le]
  refine and_congr_right (fun _ => ?_)
  simp only [List.mem_flatMap]
  constructor
  · intro h
    refine ⟨fun m hm => h m ⟨_, hm, List.mem_singleton.mpr rfl⟩, fun u v a he => ?_⟩
    exact ⟨h (u + 1) ⟨_, he, by simp [Edit.bounds]⟩, h (v + 1) ⟨_, he, by simp [Edit.bounds]⟩⟩
  · rintro ⟨grows, edges⟩ b ⟨e, he, hb⟩
    cases e with
    | grow m =>
      obtain rfl := List.mem_singleton.mp hb
      exact grows b he
    | addEdge u v a =>
      obtain ⟨hu, hv⟩ := edges u v a he
      simp only [Edit.bounds, List.mem_cons, List.not_mem_nil, or_false] at hb
      omega

theorem Uniform.matrix?_eq (hd : d.Uniform) (hd' : d'.Uniform) (dim : d.dimension = d'.dimension)
    (labels : a ∈ d.labels ↔ a ∈ d'.labels)
    (edges : ∀ i j, d.HasEdge i a j ↔ d'.HasEdge i a j) : d.matrix? a = d'.matrix? a := by
  cases h : d.matrix? a with
  | none =>
    cases h' : d'.matrix? a with
    | none => rfl
    | some m' =>
      have old : a ∈ d.labels := labels.mpr (mem_labels.mpr ⟨m', h'⟩)
      simp [mem_labels, h] at old
  | some m =>
    obtain ⟨m', h'⟩ := mem_labels.mp (labels.mp (mem_labels.mpr ⟨m, h⟩))
    have size : m.size = m'.size := by rw [hd.size_eq a m h, hd'.size_eq a m' h', dim]
    have get : ∀ i j, m.get i j = m'.get i j := by
      intro i j
      simpa [HasEdge, h, h', ← Bool.eq_iff_iff] using edges i j
    rw [h', BoolMatrix.ext_get size get]

theorem Uniform.ext (hd : d.Uniform) (hd' : d'.Uniform) (dim : d.dimension = d'.dimension)
    (labels : ∀ a, a ∈ d.labels ↔ a ∈ d'.labels)
    (edges : ∀ i a j, d.HasEdge i a j ↔ d'.HasEdge i a j) : d = d' := by
  have entries : d.entries = d'.entries :=
    SortedList.eq_of_lookup hd.ascending hd'.ascending
      (fun a => hd.matrix?_eq hd' dim (labels a) (fun i j => edges i a j))
  cases d
  cases d'
  simp_all

/-- What a sequence of edits ends in is determined by the set of its edges and by the largest
dimension that it asks for. -/
theorem ofEdits_determined (n : Nat) (edits : List Edit) :
    let d := ofEdits n edits
    (n :: edits.flatMap Edit.bounds).max? = some d.dimension ∧
      (∀ a, a ∈ d.labels ↔ ∃ u v, .addEdge u v a ∈ edits) ∧
      (∀ a ∈ d.labels, ∃ m, d.matrix? a = some m ∧ m.size = (d.dimension, d.dimension) ∧
        ∀ i j, m.get i j = true ↔ .addEdge i j a ∈ edits) ∧
      (∀ e, d.dimension ≤ (d.apply e).dimension ∧
        ∀ i a j, d.HasEdge i a j → (d.apply e).HasEdge i a j) ∧
      ∀ edits', (∀ u v a, .addEdge u v a ∈ edits ↔ .addEdge u v a ∈ edits') →
        growth edits = growth edits' → ofEdits n edits' = d := by
  intro d
  have uniform : ∀ edits, (ofEdits n edits).Uniform := uniform_ofEdits n
  refine ⟨dimension_ofEdits n edits, fun a => mem_labels_ofEdits, fun a ha => ?_,
    apply_keeps (uniform edits), fun edits' same grown => ?_⟩
  · obtain ⟨m, hm⟩ := mem_labels.mp ha
    refine ⟨m, hm, (uniform edits).size_eq a m hm, fun i j => ?_⟩
    rw [← hasEdge_ofEdits (n := n)]
    simp [HasEdge, d, hm]
  · apply (uniform edits').ext (uniform edits)
    · apply eq_of_forall_ge_iff
      intro k
      simp only [dimension_ofEdits_le, grown, same]
    · simp only [mem_labels_ofEdits, same, implies_true]
    · simp only [hasEdge_ofEdits, same, implies_true]

def gradual : List Edit :=
  [.grow 2, .addEdge 1 0 "a", .addEdge 1 0 "a", .addEdge 0 3 "b", .grow 5, .addEdge 2 2 "a"]

def sudden : List Edit :=
  [.addEdge 2 2 "a", .grow 5, .addEdge 0 3 "b", .addEdge 1 0 "a"]

theorem gradual_eq_sudden :
    (∀ u v a, .addEdge u v a ∈ gradual ↔ .addEdge u v a ∈ sudden) ∧
      growth gradual = growth sudden ∧ ofEdits 1 sudden = ofEdits 1 gradual ∧
      "a" ∈ (ofEdits 1 gradual).labels ∧
      ∃ m, (ofEdits 1 gradual).matrix? "a" = some m ∧ m.get 1 0 = true ∧ m.get 0 3 = false := by
  obtain ⟨_, labels, entries, _, determined⟩ := ofEdits_determined 1 gradual
  have same : ∀ u v a, .addEdge u v a ∈ gradual ↔ .addEdge u v a ∈ sudden := by
    intro u v a
    simp only [gradual, sudden, List.mem_cons, Edit.addEdge.injEq, reduceCtorEq, List.not_mem_nil]
    grind
  have grown : growth gradual = growth sudden := by decide
  have mem : "a" ∈ (ofEdits 1 gradual).labels := (labels "a").mpr ⟨1, 0, by decide⟩
  obtain ⟨m, hm, _, get⟩ := entries "a" mem
  refine ⟨same, grown, determined sudden same grown, mem, m, hm, (get 1 0).mpr (by decide), ?_⟩
  rw [← Bool.not_eq_true, get]
  decide

end ContextFreePaths.LabelMatrices
