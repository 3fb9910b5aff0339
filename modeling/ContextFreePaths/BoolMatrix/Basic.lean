/-!
Boolean matrices, one bit vector per row. A matrix is seen through `size` and `get`, which is false
outside of the bounds; `ext_get` says that these two determine it. Operations that make sense only
within the bounds, or only on matrices of fitting sizes, end in `?` and give nothing otherwise.
-/

namespace ContextFreePaths

structure BoolMatrix where
  numCols : Nat
  rows : List (BitVec numCols)
  deriving DecidableEq

namespace BoolMatrix

variable {m other : BoolMatrix} {i j k l n r c : Nat}

def numRows (m : BoolMatrix) : Nat :=
  m.rows.length

def size (m : BoolMatrix) : Nat × Nat :=
  (m.numRows, m.numCols)

def get (m : BoolMatrix) (i j : Nat) : Bool :=
  (m.rows[i]?.getD 0#m.numCols).getLsbD j

theorem get_mk {rows : List (BitVec c)} :
    (BoolMatrix.mk c rows).get i j = (rows[i]?.getD 0#c).getLsbD j :=
  rfl

theorem get_of_numRows_le (h : m.numRows ≤ i) : m.get i j = false := by
  rw [numRows] at h
  simp [get, List.getElem?_eq_none h]

theorem get_of_numCols_le (h : m.numCols ≤ j) : m.get i j = false :=
  BitVec.getLsbD_of_ge _ _ h

theorem bounds_of_get (h : m.get i j = true) : i < m.numRows ∧ j < m.numCols := by
  constructor
  · apply Nat.lt_of_not_le
    intro hi
    simp [get_of_numRows_le hi] at h
  · apply Nat.lt_of_not_le
    intro hj
    simp [get_of_numCols_le hj] at h

theorem bounds_of_size (hs : m.size = (r, c)) (h : m.get i j = true) : i < r ∧ j < c := by
  simp only [size, Prod.mk.injEq] at hs
  rw [← hs.1, ← hs.2]
  exact bounds_of_get h

theorem ext_get (hs : m.size = other.size) (h : ∀ i j, m.get i j = other.get i j) :
    m = other := by
  obtain ⟨c, rows⟩ := m
  obtain ⟨d, rows'⟩ := other
  simp only [size, numRows, Prod.mk.injEq] at hs
  obtain ⟨hr, rfl⟩ := hs
  congr 1
  apply List.ext_getElem hr
  intro i hi hi'
  apply BitVec.eq_of_getLsbD_eq
  intro j _
  simpa [get, hi, hi'] using h i j

def zero (r c : Nat) : BoolMatrix :=
  ⟨c, List.replicate r (BitVec.zero c)⟩

@[simp] theorem size_zero : (zero r c).size = (r, c) := by
  simp [size, numRows, zero]

@[simp] theorem get_zero : (zero r c).get i j = false := by
  by_cases h : i < r <;> simp [get_mk, zero, h]

def square (n : Nat) : BoolMatrix :=
  zero n n

def identity (n : Nat) : BoolMatrix :=
  ⟨n, (List.range n).map (BitVec.twoPow n)⟩

@[simp] theorem size_identity : (identity n).size = (n, n) := by
  simp [size, numRows, identity]

theorem get_identity : (identity n).get i j = decide (i < n ∧ i = j) := by
  by_cases h : i < n
  · simp [get_mk, identity, h, BitVec.getLsbD_twoPow]
  · simp [get_mk, identity, h]

def resize (m : BoolMatrix) (r c : Nat) : BoolMatrix :=
  ⟨c, (m.rows.take r).map (BitVec.setWidth c) ++ List.replicate (r - m.numRows) (BitVec.zero c)⟩

@[simp] theorem size_resize : (m.resize r c).size = (r, c) := by
  simp only [size, numRows, resize, List.length_append, List.length_map, List.length_take,
    List.length_replicate, Prod.mk.injEq, and_true]
  omega

theorem get_resize : (m.resize r c).get i j = (decide (i < r ∧ j < c) && m.get i j) := by
  obtain ⟨_, rows⟩ := m
  simp only [resize, numRows, get_mk, List.getElem?_append, List.getElem?_take,
    List.getElem?_map, List.getElem?_replicate, List.length_take, List.length_map]
  by_cases hr : i < r
  · by_cases hi : i < rows.length
    · have inside : i < min r rows.length := by omega
      simp [hr, hi, inside]
    · have below : ¬i < min r rows.length := by omega
      have new : i - min r rows.length < r - rows.length := by omega
      simp [hi, below, new]
  · have below : ¬i < min r rows.length := by omega
    have out : ¬i - min r rows.length < r - rows.length := by omega
    simp [hr, below, out]

def setBit (row : BitVec c) (j : Nat) (b : Bool) : BitVec c :=
  if b then row ||| BitVec.twoPow c j else row &&& ~~~BitVec.twoPow c j

theorem getLsbD_setBit {row : BitVec c} {b : Bool} :
    (setBit row j b).getLsbD k = if j = k ∧ j < c then b else row.getLsbD k := by
  have bound := @BitVec.lt_of_getLsbD c row k
  have bit : (BitVec.twoPow c j).getLsbD k = decide (j = k ∧ j < c) := by
    rw [BitVec.getLsbD_twoPow, Bool.decide_and, Bool.and_comm]
  unfold setBit
  cases b with
  | true =>
    rw [if_pos rfl, BitVec.getLsbD_or, bit]
    split
    · next h => rw [decide_eq_true h, Bool.or_true]
    · next h => simp [h]
  | false =>
    rw [if_neg Bool.false_ne_true, BitVec.getLsbD_and, BitVec.getLsbD_not, bit]
    split
    · next h => simp [h]
    · next h => simpa [h] using bound

def set (m : BoolMatrix) (i j : Nat) (b : Bool) : BoolMatrix :=
  ⟨m.numCols, m.rows.modify i (fun row => setBit row j b)⟩

@[simp] theorem size_set {b : Bool} : (m.set i j b).size = m.size := by
  simp [size, numRows, set]

theorem get_set {b : Bool} : (m.set i j b).get k l =
    if i = k ∧ j = l ∧ i < m.numRows ∧ j < m.numCols then b else m.get k l := by
  obtain ⟨c, rows⟩ := m
  simp only [set, get_mk, List.getElem?_modify, numRows]
  by_cases hk : k < rows.length
  · by_cases hi : i = k <;> simp [hk, hi, getLsbD_setBit]
  · have out : ¬(i = k ∧ j = l ∧ i < rows.length ∧ j < c) := by omega
    have none : rows[k]? = none := List.getElem?_eq_none (Nat.le_of_not_lt hk)
    simp only [out, none, if_false]
    rfl

def set? (m : BoolMatrix) (i j : Nat) (b : Bool) : Option BoolMatrix :=
  if i < m.numRows ∧ j < m.numCols then some (m.set i j b) else none

def union (m n : BoolMatrix) : BoolMatrix :=
  ⟨m.numCols, List.zipWith (fun r s => r ||| s.setWidth m.numCols) m.rows n.rows⟩

theorem size_union (h : m.size = other.size) : (m.union other).size = m.size := by
  simp only [size, numRows, Prod.mk.injEq] at h
  simp [size, numRows, union, h.1]

theorem get_union (h : m.size = other.size) :
    (m.union other).get i j = (m.get i j || other.get i j) := by
  obtain ⟨c, rows⟩ := m
  obtain ⟨d, others⟩ := other
  obtain ⟨hr, rfl⟩ : rows.length = others.length ∧ c = d := by simpa [size, numRows] using h
  simp only [union, get_mk, List.getElem?_zipWith]
  by_cases hi : i < rows.length
  · have ho : i < others.length := hr ▸ hi
    simp [hi, ho]
  · have ho : ¬i < others.length := hr ▸ hi
    simp [hi, ho]

def grows (m n : BoolMatrix) : Bool :=
  (List.zipWith (fun r s => r ||| s.setWidth m.numCols != r) m.rows n.rows).any id

def union? (m n : BoolMatrix) : Option (BoolMatrix × Bool) :=
  if m.size = n.size then some (m.union n, m.grows n) else none

def columns (row : BitVec c) : List Nat :=
  (List.range c).filter (fun j => row.getLsbD j)

theorem mem_columns {row : BitVec c} : j ∈ columns row ↔ row.getLsbD j = true := by
  simp only [columns, List.mem_filter, List.mem_range, and_iff_right_iff_imp]
  exact BitVec.lt_of_getLsbD

def row (m : BoolMatrix) (i : Fin m.numRows) : List Nat :=
  columns (m.rows.get i)

theorem mem_row {i : Fin m.numRows} : j ∈ m.row i ↔ m.get i j = true := by
  have hi : m.rows[i.val]? = some (m.rows.get i) := List.getElem?_eq_getElem i.isLt
  rw [row, mem_columns, get, hi, Option.getD_some]

def row? (m : BoolMatrix) (i : Nat) : Option (List Nat) :=
  m.rows[i]?.map columns

theorem row?_eq_some (hi : i < m.numRows) : m.row? i = some (m.row ⟨i, hi⟩) := by
  rw [row?, List.getElem?_eq_getElem hi]
  rfl

def ones (m : BoolMatrix) : List (Nat × Nat) :=
  m.rows.zipIdx.flatMap (fun r => (columns r.1).map (fun j => (r.2, j)))

theorem mem_ones : (i, j) ∈ m.ones ↔ m.get i j = true := by
  simp only [ones, List.mem_flatMap, List.mem_map, Prod.mk.injEq, Prod.exists,
    List.mk_mem_zipIdx_iff_getElem?, mem_columns, get]
  constructor
  · rintro ⟨row, i', hr, j', hj, rfl, rfl⟩
    simpa [hr] using hj
  · intro h
    cases hr : m.rows[i]? with
    | none => simp [hr] at h
    | some row => exact ⟨row, i, hr, j, by simpa [hr] using h, rfl, rfl⟩

def rowCount (row : BitVec c) : Nat :=
  (List.range c).countP (fun j => row.getLsbD j)

def count (m : BoolMatrix) : Nat :=
  m.rows.foldr (fun row n => rowCount row + n) 0

def isEmpty (m : BoolMatrix) : Bool :=
  m.rows.all (fun row => row == 0#_)

def text (m : BoolMatrix) : String :=
  let line (row : BitVec m.numCols) : String :=
    "  " ++ String.ofList ((List.range m.numCols).map (fun j => if row.getLsbD j then '1' else '.'))
      ++ "\n"
  "BoolMatrix " ++ toString m.numRows ++ "x" ++ toString m.numCols ++ " [\n" ++
    String.join (m.rows.map line) ++ "]"

end BoolMatrix

end ContextFreePaths
