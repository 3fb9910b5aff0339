import Mathlib.Tactic.Common
import ContextFreePaths.Runs
import ContextFreePaths.Reachability
import ContextFreePaths.SortedList

namespace ContextFreePaths

namespace BoolMatrix

variable {m other : BoolMatrix} {i j r c : Nat}

def positions (r c : Nat) : List (Nat × Nat) :=
  (List.range r).flatMap (fun i => (List.range c).map (fun j => (i, j)))

theorem mem_positions : (i, j) ∈ positions r c ↔ i < r ∧ j < c := by
  simp only [positions, List.mem_flatMap, List.mem_range, List.mem_map, Prod.mk.injEq]
  constructor
  · rintro ⟨i, hi, j, hj, rfl, rfl⟩
    exact ⟨hi, hj⟩
  · rintro ⟨hi, hj⟩
    exact ⟨i, hi, j, hj, rfl, rfl⟩

theorem length_positions : (positions r c).length = r * c := by
  simp [positions, List.length_flatMap, List.map_const']

theorem count_eq_countP :
    m.count = (positions m.numRows m.numCols).countP (fun p => m.get p.1 p.2) := by
  have rows : m.rows.map rowCount = (List.range m.numRows).map
      (fun i => (List.range m.numCols).countP (fun j => m.get i j)) := by
    apply List.ext_getElem
    · simp [numRows]
    · intro i hi _
      simp only [List.length_map] at hi
      simp [get, rowCount, hi]
  have sum : m.count = (m.rows.map rowCount).sum := by
    rw [List.sum_eq_foldr, List.foldr_map]
    rfl
  rw [sum, rows, positions, List.countP_flatMap]
  simp only [Function.comp_def, List.countP_map]

theorem count_lt_count (hs : m.size = other.size)
    (h : ∀ i j, m.get i j = true → other.get i j = true) (hm : m.get i j = false)
    (ho : other.get i j = true) : m.count < other.count := by
  simp only [size, Prod.mk.injEq] at hs
  rw [count_eq_countP, count_eq_countP, hs.1, hs.2]
  have mem : (i, j) ∈ positions other.numRows other.numCols := mem_positions.mpr (bounds_of_get ho)
  exact countP_lt_countP mem hm ho (fun p _ => h p.1 p.2)

end BoolMatrix

namespace ReachTable

variable {t t' t'' : ReachTable} {names : List Name} {A B : Name} {m : BoolMatrix} {n i j : Nat}

def Reaches (t : ReachTable) (A : Name) (i j : Nat) : Prop :=
  ∃ m, t.matrix? A = some m ∧ m.get i j = true

structure Uniform (t : ReachTable) : Prop where
  nodup : t.names.Nodup
  size_eq : ∀ A m, t.matrix? A = some m → m.size = (t.dimension, t.dimension)

theorem matrix?_eq_none : t.matrix? A = none ↔ A ∉ t.names := by
  simp only [matrix?, names, List.lookup_eq_none_iff, List.mem_map, bne_iff_ne, not_exists, not_and]
  exact ⟨fun h p hp e => h p hp e.symm, fun h p hp e => h p hp e.symm⟩

theorem exists_matrix? : A ∈ t.names ↔ ∃ m, t.matrix? A = some m := by
  rw [← Option.isSome_iff_exists, Option.isSome_iff_ne_none, ne_eq, matrix?_eq_none, not_not]

theorem Reaches.mem_names (h : t.Reaches A i j) : A ∈ t.names := by
  obtain ⟨m, hm, _⟩ := h
  exact exists_matrix?.mpr ⟨m, hm⟩

theorem reaches_iff (hm : t.matrix? A = some m) : t.Reaches A i j ↔ m.get i j = true := by
  simp [Reaches, hm]

theorem Uniform.matrix?_eq (ht : t.Uniform) (ht' : t'.Uniform) (hd : t'.dimension = t.dimension)
    (hn : ∀ A, A ∈ t.names ↔ A ∈ t'.names)
    (h : ∀ i j, t.Reaches A i j ↔ t'.Reaches A i j) : t.matrix? A = t'.matrix? A := by
  by_cases hA : A ∈ t.names
  · obtain ⟨m, hm⟩ := exists_matrix?.mp hA
    obtain ⟨m', hm'⟩ := exists_matrix?.mp ((hn A).mp hA)
    simp only [reaches_iff hm, reaches_iff hm'] at h
    rw [hm, hm', BoolMatrix.ext_get ?_ (fun i j => Bool.eq_iff_iff.mpr (h i j))]
    rw [ht.size_eq A m hm, ht'.size_eq A m' hm', hd]
  · have hA' : A ∉ t'.names := fun mem => hA ((hn A).mpr mem)
    rw [matrix?_eq_none.mpr hA, matrix?_eq_none.mpr hA']

def countAt (t : ReachTable) (A : Name) : Nat :=
  ((t.matrix? A).map BoolMatrix.count).getD 0

theorem length_names : t.names.length = t.size :=
  List.length_map _

instance : Decidable (t.Reaches A i j) :=
  decidable_of_iff ((t.matrix? A).any (fun m => m.get i j) = true) (by
    unfold Reaches
    cases t.matrix? A <;> simp)

def places (t : ReachTable) : List (Name × Nat × Nat) :=
  t.names.flatMap (fun A => (BoolMatrix.positions t.dimension t.dimension).map (fun p => (A, p)))

theorem length_places : t.places.length = t.size * t.dimension * t.dimension := by
  simp [places, List.length_flatMap, List.map_const', BoolMatrix.length_positions, length_names,
    Nat.mul_assoc]

theorem Reaches.mem_places (ht : t.Uniform) (h : t.Reaches A i j) : (A, i, j) ∈ t.places := by
  have hA := h.mem_names
  obtain ⟨m, hm, get⟩ := h
  have bounds := BoolMatrix.bounds_of_size (ht.size_eq A m hm) get
  exact List.mem_flatMap.mpr
    ⟨A, hA, List.mem_map.mpr ⟨(i, j), BoolMatrix.mem_positions.mpr bounds, rfl⟩⟩

def total (t : ReachTable) : Nat :=
  t.places.countP (fun p => decide (t.Reaches p.1 p.2.1 p.2.2))

theorem total_le (t : ReachTable) : t.total ≤ t.size * t.dimension * t.dimension := by
  rw [← length_places]
  exact List.countP_le_length

structure Extends (t t' : ReachTable) : Prop where
  uniform : t.Uniform
  uniform' : t'.Uniform
  names_eq : t'.names = t.names
  dimension_eq : t'.dimension = t.dimension
  reaches : ∀ A i j, t.Reaches A i j → t'.Reaches A i j

theorem Extends.refl (ht : t.Uniform) : t.Extends t :=
  ⟨ht, ht, rfl, rfl, fun _ _ _ => id⟩

theorem Extends.trans (h : t.Extends t') (h' : t'.Extends t'') : t.Extends t'' where
  uniform := h.uniform
  uniform' := h'.uniform'
  names_eq := h'.names_eq.trans h.names_eq
  dimension_eq := h'.dimension_eq.trans h.dimension_eq
  reaches A i j hr := h'.reaches A i j (h.reaches A i j hr)

theorem Extends.size_eq (h : t.Extends t') : t'.size = t.size := by
  rw [← length_names, ← length_names, h.names_eq]

theorem Extends.exists_matrices (h : t.Extends t') (hA : A ∈ t.names) :
    ∃ m m', t.matrix? A = some m ∧ t'.matrix? A = some m' ∧ m.size = m'.size ∧
      ∀ i j, m.get i j = true → m'.get i j = true := by
  obtain ⟨m, hm⟩ := exists_matrix?.mp hA
  rw [← h.names_eq] at hA
  obtain ⟨m', hm'⟩ := exists_matrix?.mp hA
  refine ⟨m, m', hm, hm', ?_, fun i j => ?_⟩
  · rw [h.uniform.size_eq A m hm, h.uniform'.size_eq A m' hm', h.dimension_eq]
  · rw [← reaches_iff hm, ← reaches_iff hm']
    exact h.reaches A i j

theorem Extends.countAt_lt (h : t.Extends t') (old : ¬t.Reaches A i j) (new : t'.Reaches A i j) :
    t.countAt A < t'.countAt A := by
  have hA : A ∈ t.names := h.names_eq ▸ new.mem_names
  obtain ⟨m, m', hm, hm', size, get⟩ := h.exists_matrices hA
  rw [reaches_iff hm, Bool.not_eq_true] at old
  rw [reaches_iff hm'] at new
  simpa [countAt, hm, hm'] using BoolMatrix.count_lt_count size get old new

theorem Extends.reaches_of_countAt_le (h : t.Extends t') (hc : t'.countAt A ≤ t.countAt A)
    (new : t'.Reaches A i j) : t.Reaches A i j := by
  by_contra old
  have := h.countAt_lt old new
  omega

theorem Extends.countAt_eq (h : t.Extends t') (hA : ∀ i j, t'.Reaches A i j → t.Reaches A i j) :
    t'.countAt A = t.countAt A := by
  have same : t.matrix? A = t'.matrix? A :=
    h.uniform.matrix?_eq h.uniform' h.dimension_eq (fun B => by rw [h.names_eq])
      (fun i j => ⟨h.reaches A i j, hA i j⟩)
  rw [countAt, countAt, same]

theorem Extends.exists_new (h : t.Extends t') (hc : t.countAt A ≠ t'.countAt A) :
    ∃ i j, ¬t.Reaches A i j ∧ t'.Reaches A i j := by
  by_contra none
  refine hc (h.countAt_eq (fun i j new => ?_)).symm
  by_contra old
  exact none ⟨i, j, old, new⟩

theorem Extends.total_lt (h : t.Extends t') (old : ¬t.Reaches A i j) (new : t'.Reaches A i j) :
    t.total < t'.total := by
  have same : t.places = t'.places := by rw [places, places, h.names_eq, h.dimension_eq]
  rw [total, total, same]
  refine countP_lt_countP (new.mem_places h.uniform') (decide_eq_false old) (decide_eq_true new) ?_
  intro p _ hp
  exact decide_eq_true (h.reaches p.1 p.2.1 p.2.2 (of_decide_eq_true hp))

theorem Extends.total_le_total (h : t.Extends t') : t.total ≤ t'.total := by
  rw [total, total, places, places, h.names_eq, h.dimension_eq]
  exact List.countP_mono_left (fun p _ hp =>
    decide_eq_true (h.reaches p.1 p.2.1 p.2.2 (of_decide_eq_true hp)))

theorem names_ofNames : (ofNames names n).names = FirstSeen.ofList names := by
  simp [ofNames, ReachTable.names, Function.comp_def]

theorem matrix?_ofNames (h : (ofNames names n).matrix? A = some m) : m = .square n := by
  obtain ⟨_, _, hp⟩ := List.mem_map.mp (SortedList.mem_of_lookup h)
  exact (congrArg Prod.snd hp).symm

theorem uniform_ofNames (names : List Name) (n : Nat) : (ofNames names n).Uniform := by
  refine ⟨?_, fun A m h => ?_⟩
  · rw [names_ofNames]
    exact FirstSeen.nodup_ofList
  · rw [matrix?_ofNames h]
    exact BoolMatrix.size_zero

theorem not_reaches_ofNames : ¬(ofNames names n).Reaches A i j := by
  rintro ⟨m, hm, hget⟩
  rw [matrix?_ofNames hm, BoolMatrix.square, BoolMatrix.get_zero] at hget
  cases hget

theorem setMatrix_eq : t.setMatrix A m =
    { t with entries := t.entries.map (fun p => (p.1, if p.1 = A then m else p.2)) } := by
  have entry : (fun p : Name × BoolMatrix => if p.1 = A then (p.1, m) else p) =
      fun p => (p.1, if p.1 = A then m else p.2) := by
    funext p
    split <;> rfl
  rw [setMatrix, entry]

theorem names_setMatrix : (t.setMatrix A m).names = t.names := by
  simp [setMatrix_eq, names, Function.comp_def]

theorem matrix?_setMatrix :
    (t.setMatrix A m).matrix? B = (t.matrix? B).map (fun old => if B = A then m else old) := by
  rw [setMatrix_eq]
  exact SortedList.lookup_map (f := fun B old => if B = A then m else old)

theorem uniform_setMatrix (ht : t.Uniform) (hm : m.size = (t.dimension, t.dimension)) :
    (t.setMatrix A m).Uniform := by
  refine ⟨by rw [names_setMatrix]; exact ht.nodup, fun B m' h => ?_⟩
  rw [matrix?_setMatrix, Option.map_eq_some_iff] at h
  obtain ⟨old, hold, rfl⟩ := h
  split
  · exact hm
  · exact ht.size_eq B old hold

theorem reaches_setMatrix : (t.setMatrix A m).Reaches B i j ↔
    if B = A then A ∈ t.names ∧ m.get i j = true else t.Reaches B i j := by
  unfold Reaches
  rw [matrix?_setMatrix]
  split
  · next h =>
    subst h
    rw [exists_matrix?]
    cases t.matrix? B <;> simp
  · simp

theorem exists_unionAt (ht : t.Uniform) (hA : A ∈ t.names)
    (hm : m.size = (t.dimension, t.dimension)) :
    ∃ t', t.unionAt? A m = some t' ∧ t.Extends t' ∧
      ∀ B i j, t'.Reaches B i j ↔ t.Reaches B i j ∨ B = A ∧ m.get i j = true := by
  obtain ⟨old, hold⟩ := exists_matrix?.mp hA
  have size : old.size = m.size := by rw [ht.size_eq A old hold, hm]
  have reaches : ∀ B i j, (t.setMatrix A (old.union m)).Reaches B i j ↔
      t.Reaches B i j ∨ B = A ∧ m.get i j = true := by
    intro B i j
    rw [reaches_setMatrix, BoolMatrix.get_union size, Bool.or_eq_true]
    split
    · next h =>
      subst h
      simp [reaches_iff hold, hA]
    · next h => simp [h]
  refine ⟨t.setMatrix A (old.union m), ?_, ?_, reaches⟩
  · simp [unionAt?, hold, BoolMatrix.union?, size]
  · refine ⟨ht, uniform_setMatrix ht ?_, names_setMatrix, rfl, fun B i j h => ?_⟩
    · rw [BoolMatrix.size_union size, ht.size_eq A old hold]
    · exact (reaches B i j).mpr (.inl h)

theorem exists_accumulate (ht : t.Uniform) {head left right : Name} (hh : head ∈ t.names)
    (hl : left ∈ t.names) (hr : right ∈ t.names) :
    ∃ t', t.accumulate? head left right = some t' ∧ t.Extends t' ∧
      ∀ B i j, t'.Reaches B i j ↔
        t.Reaches B i j ∨ B = head ∧ ∃ k, t.Reaches left i k ∧ t.Reaches right k j := by
  obtain ⟨a, ha⟩ := exists_matrix?.mp hl
  obtain ⟨b, hb⟩ := exists_matrix?.mp hr
  have size := ht.size_eq left a ha
  have size' := ht.size_eq right b hb
  simp only [BoolMatrix.size, Prod.mk.injEq] at size size'
  have product : (a.product b).size = (t.dimension, t.dimension) := by
    rw [BoolMatrix.size_product, size.1, size'.2]
  obtain ⟨t', ht', extends', reaches⟩ := exists_unionAt ht hh product
  refine ⟨t', ?_, extends', fun B i j => ?_⟩
  · simp [accumulate?, ha, hb, BoolMatrix.product?, size.2, size'.1, ht']
  · simp only [reaches, BoolMatrix.get_product, reaches_iff ha, reaches_iff hb]

end ReachTable

end ContextFreePaths
