import Mathlib.Data.Finset.Prod
import Mathlib.Data.Finset.Card
import Mathlib.Data.Prod.Lex
import ContextFreePaths.BoolMatrix.Composition

/-!
A Boolean matrix denotes a region, a finite set of positions within bounds. Each operation on
matrices is matched by one on regions, so that a run of commands over any number of matrices ends
in matrices that denote what the same run over regions ends in, with the same outcomes.
-/

namespace ContextFreePaths

@[ext] structure Region where
  numRows : Nat
  numCols : Nat
  positions : Finset (Nat × Nat)
  within : ∀ p ∈ positions, p.1 < numRows ∧ p.2 < numCols
  deriving DecidableEq

namespace Region

variable {x y : Region} {i j k n r c : Nat} {b : Bool}

def size (x : Region) : Nat × Nat :=
  (x.numRows, x.numCols)

theorem eq_of_size (hs : x.size = y.size) (h : ∀ i j, (i, j) ∈ x.positions ↔ (i, j) ∈ y.positions) :
    x = y := by
  simp only [size, Prod.mk.injEq] at hs
  exact Region.ext hs.1 hs.2 (Finset.ext (fun p => h p.1 p.2))

def zero (r c : Nat) : Region where
  numRows := r
  numCols := c
  positions := ∅
  within _ hp := absurd hp (Finset.notMem_empty _)

def identity (n : Nat) : Region where
  numRows := n
  numCols := n
  positions := (Finset.range n).diag
  within p hp := by
    rw [Finset.mem_diag, Finset.mem_range] at hp
    exact ⟨hp.1, hp.2 ▸ hp.1⟩

def resize (x : Region) (r c : Nat) : Region where
  numRows := r
  numCols := c
  positions := x.positions.filter (fun p => p.1 < r ∧ p.2 < c)
  within _ hp := (Finset.mem_filter.mp hp).2

def set? (x : Region) (i j : Nat) (b : Bool) : Option Region :=
  if h : i < x.numRows ∧ j < x.numCols then
    some {
      x with
      positions := if b then insert (i, j) x.positions else x.positions.erase (i, j)
      within := by
        intro p hp
        split at hp
        · obtain rfl | hp := Finset.mem_insert.mp hp
          · exact h
          · exact x.within p hp
        · exact x.within p (Finset.mem_of_mem_erase hp) }
  else none

def union? (x y : Region) : Option (Region × Bool) :=
  if h : x.size = y.size then
    some (
      { x with
        positions := x.positions ∪ y.positions
        within := by
          intro p hp
          obtain hp | hp := Finset.mem_union.mp hp
          · exact x.within p hp
          · simp only [size, Prod.mk.injEq] at h
            rw [h.1, h.2]
            exact y.within p hp },
      decide (x.positions ∪ y.positions ≠ x.positions))
  else none

def product (x y : Region) : Region where
  numRows := x.numRows
  numCols := y.numCols
  positions := ((x.positions ×ˢ y.positions).filter (fun p => p.1.2 = p.2.1)).image
    (fun p => (p.1.1, p.2.2))
  within := by
    intro p hp
    obtain ⟨q, hq, rfl⟩ := Finset.mem_image.mp hp
    obtain ⟨hx, hy⟩ := Finset.mem_product.mp (Finset.mem_filter.mp hq).1
    exact ⟨(x.within _ hx).1, (y.within _ hy).2⟩

theorem mem_product :
    (i, k) ∈ (x.product y).positions ↔ ∃ j, (i, j) ∈ x.positions ∧ (j, k) ∈ y.positions := by
  simp only [product, Finset.mem_image, Finset.mem_filter, Finset.mem_product, Prod.mk.injEq]
  constructor
  · rintro ⟨⟨⟨i, j⟩, j', k⟩, ⟨⟨hx, hy⟩, middle⟩, rfl, rfl⟩
    obtain rfl : j = j' := middle
    exact ⟨j, hx, hy⟩
  · rintro ⟨j, hx, hy⟩
    exact ⟨((i, j), (j, k)), ⟨⟨hx, hy⟩, rfl⟩, rfl, rfl⟩

def product? (x y : Region) : Option Region :=
  if x.numCols = y.numRows then some (x.product y) else none

def accumulate? (x a b : Region) : Option (Region × Bool) :=
  (a.product? b).bind x.union?

end Region

namespace BoolMatrix

variable {m other a b : BoolMatrix} {i j k n r c : Nat}

def region (m : BoolMatrix) : Region where
  numRows := m.numRows
  numCols := m.numCols
  positions := (Finset.range m.numRows ×ˢ Finset.range m.numCols).filter
    (fun p => m.get p.1 p.2 = true)
  within _ hp := bounds_of_get (Finset.mem_filter.mp hp).2

theorem mem_region : (i, j) ∈ m.region.positions ↔ m.get i j = true := by
  simp only [region, Finset.mem_filter, Finset.mem_product, Finset.mem_range,
    and_iff_right_iff_imp]
  exact bounds_of_get

theorem region_eq {x : Region} (hs : m.size = x.size)
    (h : ∀ i j, m.get i j = true ↔ (i, j) ∈ x.positions) : m.region = x :=
  Region.eq_of_size hs (fun i j => mem_region.trans (h i j))

theorem region_inj : m.region = other.region ↔ m = other := by
  constructor
  · intro h
    refine ext_get (congrArg Region.size h) (fun i j => Bool.eq_iff_iff.mpr ?_)
    rw [← mem_region, ← mem_region, h]
  · exact congrArg region

theorem region_zero : (zero r c).region = Region.zero r c :=
  region_eq size_zero (fun i j => by simp [Region.zero])

theorem region_identity : (identity n).region = Region.identity n :=
  region_eq size_identity (fun i j => by simp [get_identity, Region.identity])

theorem region_resize : (m.resize r c).region = m.region.resize r c :=
  region_eq size_resize (fun i j => by
    simp [get_resize, Region.resize, mem_region, and_comm])

theorem region_set? {b : Bool} : (m.set? i j b).map region = m.region.set? i j b := by
  by_cases h : i < m.numRows ∧ j < m.numCols
  · have h' : i < m.region.numRows ∧ j < m.region.numCols := h
    rw [set?, if_pos h, Region.set?, dif_pos h', Option.map_some]
    refine congrArg some (region_eq size_set (fun k l => ?_))
    by_cases position : i = k ∧ j = l
    · obtain ⟨rfl, rfl⟩ := position
      rw [get_set, if_pos ⟨rfl, rfl, h⟩]
      cases b <;> simp
    · have other : (k, l) ≠ (i, j) := fun e => position (Prod.mk.inj e.symm)
      rw [get_set, if_neg (fun all => position ⟨all.1, all.2.1⟩), ← mem_region]
      cases b <;> simp [Finset.mem_insert, Finset.mem_erase, other]
  · have h' : ¬(i < m.region.numRows ∧ j < m.region.numCols) := h
    rw [set?, if_neg h, Region.set?, dif_neg h', Option.map_none]

theorem any_zipWith_bne {α β : Type} [DecidableEq α] {f : α → β → α} {xs : List α} {ys : List β}
    (h : xs.length = ys.length) :
    (List.zipWith (fun x y => f x y != x) xs ys).any id = true ↔ List.zipWith f xs ys ≠ xs := by
  induction xs generalizing ys with
  | nil => simp
  | cons x xs ih =>
    cases ys with
    | nil => simp at h
    | cons y ys =>
      have tails := ih (Nat.succ.inj h)
      simp only [List.zipWith_cons_cons, List.any_cons, id_eq, Bool.or_eq_true, tails, bne_iff_ne,
        ne_eq, List.cons.injEq, not_and_or]

theorem positions_union (h : m.size = other.size) :
    (m.union other).region.positions = m.region.positions ∪ other.region.positions := by
  ext p
  rw [Finset.mem_union, mem_region, mem_region, mem_region, get_union h, Bool.or_eq_true]

theorem grows_iff (h : m.size = other.size) :
    m.grows other = true ↔ (m.union other).region.positions ≠ m.region.positions := by
  have rows : m.rows.length = other.rows.length := congrArg Prod.fst h
  have changes : m.grows other = true ↔ m.union other ≠ m := by
    rw [grows, any_zipWith_bne rows]
    obtain ⟨c, rows⟩ := m
    simp [union]
  have same : m.union other = m ↔ (m.union other).region.positions = m.region.positions := by
    rw [← region_inj]
    refine ⟨congrArg Region.positions, fun e => ?_⟩
    exact Region.eq_of_size (size_union h) (fun i j => by rw [e])
  rw [changes, ne_eq, same]

theorem region_union? :
    (m.union? other).map (Prod.map region id) = m.region.union? other.region := by
  by_cases h : m.size = other.size
  · have h' : m.region.size = other.region.size := h
    have flag : m.grows other =
        decide (m.region.positions ∪ other.region.positions ≠ m.region.positions) := by
      rw [Bool.eq_iff_iff, decide_eq_true_iff, grows_iff h, positions_union h]
    rw [union?, if_pos h, Region.union?, dif_pos h', Option.map_some, Prod.map, flag]
    refine congrArg some (Prod.ext ?_ rfl)
    exact Region.eq_of_size (size_union h) (fun i j => by rw [positions_union h])
  · have h' : ¬m.region.size = other.region.size := h
    rw [union?, if_neg h, Region.union?, dif_neg h', Option.map_none]

theorem region_product : (a.product b).region = a.region.product b.region :=
  region_eq size_product (fun i k => by
    rw [get_product, Region.mem_product]
    simp only [mem_region])

theorem region_product? : (a.product? b).map region = a.region.product? b.region := by
  unfold product? Region.product?
  rw [apply_ite (Option.map region), Option.map_some, Option.map_none, region_product]
  rfl

theorem region_accumulate? :
    (m.accumulate? a b).map (Prod.map region id) = m.region.accumulate? a.region b.region := by
  rw [accumulate?, Region.accumulate?, ← region_product?]
  cases a.product? b with
  | none => rfl
  | some p => exact region_union?

theorem length_ones : m.ones.length = m.count := by
  have rows : m.rows.zipIdx.map (fun r => ((columns r.1).map (fun j => (r.2, j))).length) =
      m.rows.map rowCount := by
    have count : ∀ r : BitVec m.numCols × Nat,
        ((columns r.1).map (fun j => (r.2, j))).length = rowCount r.1 := by
      intro r
      rw [List.length_map, columns, rowCount, List.countP_eq_length_filter]
    rw [List.map_congr_left (fun r _ => count r)]
    exact (List.map_map (f := Prod.fst) (g := rowCount)).symm.trans (by rw [List.zipIdx_map_fst])
  rw [ones, List.length_flatMap, rows, List.sum_eq_foldr, List.foldr_map]
  rfl

theorem pairwise_ones : m.ones.Pairwise (Prod.Lex (· < ·) (· < ·)) := by
  rw [ones, List.pairwise_flatMap]
  constructor
  · rintro ⟨row, i⟩ _
    rw [List.pairwise_map]
    have ascending : (columns row).Pairwise (· < ·) := List.pairwise_lt_range.filter _
    exact ascending.imp (Prod.Lex.right i)
  · have ascending : (m.rows.zipIdx.map Prod.snd).Pairwise (· < ·) := by
      rw [List.zipIdx_map_snd]
      exact List.pairwise_lt_range'
    rw [List.pairwise_map] at ascending
    refine ascending.imp (fun {r s} h p hp q hq => ?_)
    obtain ⟨j, _, rfl⟩ := List.mem_map.mp hp
    obtain ⟨l, _, rfl⟩ := List.mem_map.mp hq
    exact Prod.Lex.left j l h

theorem toFinset_ones : m.ones.toFinset = m.region.positions := by
  ext p
  rw [List.mem_toFinset, mem_ones, mem_region]

theorem card_region : m.region.positions.card = m.count := by
  have nodup : m.ones.Nodup := by
    refine pairwise_ones.imp (fun {p q} h e => ?_)
    subst e
    exact irrefl_of (Prod.Lex (· < ·) (· < ·)) p h
  rw [← toFinset_ones, List.toFinset_card_of_nodup nodup, length_ones]

theorem changed_iff {result : BoolMatrix} {changed : Bool}
    (h : m.union? other = some (result, changed)) :
    (changed = true ↔ result.region.positions ≠ m.region.positions) ∧
      (changed = true ↔ m.count < result.count) := by
  obtain ⟨size, pair⟩ := Option.ite_none_right_eq_some.mp h
  obtain ⟨rfl, rfl⟩ := Prod.mk.inj (Option.some.inj pair)
  refine ⟨grows_iff size, ?_⟩
  have larger : m.region.positions ⊆ (m.union other).region.positions := by
    rw [positions_union size]
    exact Finset.subset_union_left
  rw [grows_iff size, ← card_region, ← card_region]
  constructor
  · intro new
    exact Finset.card_lt_card (larger.ssubset_of_ne new.symm)
  · intro less same
    rw [same] at less
    exact Nat.lt_irrefl _ less

theorem isEmpty_iff : m.isEmpty = true ↔ m.region.positions = ∅ := by
  rw [Finset.eq_empty_iff_forall_notMem, isEmpty, List.all_eq_true]
  constructor
  · rintro rows ⟨i, j⟩ h
    rw [mem_region, get] at h
    cases hr : m.rows[i]? with
    | none => simp [hr] at h
    | some row =>
      have zero : row = 0#m.numCols := eq_of_beq (rows row (List.mem_of_getElem? hr))
      simp [hr, zero] at h
  · intro none row mem
    obtain ⟨i, hr⟩ := List.mem_iff_getElem?.mp mem
    rw [beq_iff_eq]
    apply BitVec.eq_of_getLsbD_eq
    intro j _
    have := none (i, j)
    rw [mem_region, get, hr] at this
    simpa using this

end BoolMatrix

end ContextFreePaths
