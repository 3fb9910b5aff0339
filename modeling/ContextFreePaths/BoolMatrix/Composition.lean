import ContextFreePaths.BoolMatrix.Basic

namespace ContextFreePaths.BoolMatrix

def select {d c : Nat} (r : BitVec d) : Nat → List (BitVec c) → BitVec c
  | _, [] => 0#c
  | j, s :: rows => if r.getLsbD j then s ||| select r (j + 1) rows else select r (j + 1) rows

def product (a b : BoolMatrix) : BoolMatrix :=
  ⟨b.numCols, a.rows.map (fun r => select r 0 b.rows)⟩

def product? (a b : BoolMatrix) : Option BoolMatrix :=
  if a.numCols = b.numRows then some (product a b) else none

def accumulate? (m a b : BoolMatrix) : Option (BoolMatrix × Bool) :=
  (a.product? b).bind m.union?

theorem getLsbD_select {d c : Nat} {r : BitVec d} {rows : List (BitVec c)} {j k : Nat} :
    (select r j rows).getLsbD k = true ↔
      ∃ i, r.getLsbD (j + i) = true ∧ (rows[i]?.getD 0#c).getLsbD k = true := by
  induction rows generalizing j with
  | nil => simp [select]
  | cons s rows ih =>
    have hs : (select r j (s :: rows)).getLsbD k = true ↔
        (r.getLsbD j = true ∧ s.getLsbD k = true) ∨ (select r (j + 1) rows).getLsbD k = true := by
      rw [select]
      split <;> simp [*]
    rw [hs, ih]
    constructor
    · rintro (h | ⟨i, hr, hk⟩)
      · exact ⟨0, by simpa using h⟩
      · exact ⟨i + 1, by rwa [Nat.add_right_comm] at hr, by simpa using hk⟩
    · rintro ⟨i, hr, hk⟩
      cases i with
      | zero => exact .inl ⟨hr, by simpa using hk⟩
      | succ i => exact .inr ⟨i, by rwa [Nat.add_right_comm], by simpa using hk⟩

@[simp] theorem size_product {a b : BoolMatrix} : (a.product b).size = (a.numRows, b.numCols) := by
  simp [size, numRows, product]

theorem get_product {a b : BoolMatrix} {i k : Nat} :
    (a.product b).get i k = true ↔ ∃ j, a.get i j = true ∧ b.get j k = true := by
  obtain ⟨_, rows⟩ := a
  simp only [product, get_mk, List.getElem?_map]
  cases h : rows[i]? with
  | none => simp
  | some r => simpa [get] using getLsbD_select (j := 0) (r := r)

variable {m : BoolMatrix} {k n r c : Nat} {positions : List (Nat × Nat)}

def ofPositions (r c : Nat) (positions : List (Nat × Nat)) : BoolMatrix :=
  positions.foldl (fun m p => m.set p.1 p.2 true) (zero r c)

theorem size_foldl_set :
    (positions.foldl (fun m p => m.set p.1 p.2 true) m).size = m.size := by
  induction positions generalizing m with
  | nil => rfl
  | cons p positions ih => rw [List.foldl_cons, ih, size_set]

@[simp] theorem size_ofPositions : (ofPositions r c positions).size = (r, c) := by
  rw [ofPositions, size_foldl_set, size_zero]

def passThrough (m : BoolMatrix) (k : Nat) : BoolMatrix :=
  match m.rows[k]? with
  | none => m
  | some s => ⟨m.numCols, m.rows.map (fun r => if r.getLsbD k then r ||| s else r)⟩

theorem size_passThrough : (m.passThrough k).size = m.size := by
  unfold passThrough
  split
  · rfl
  · simp [size, numRows]

/-- Once the first `k` indices were passed through, the matrix holds all ways of which the inner
indices are below `k`. -/
def transitiveClosure (m : BoolMatrix) : BoolMatrix :=
  (List.range m.numRows).foldl passThrough m

theorem size_foldl_passThrough (m : BoolMatrix) (n : Nat) :
    ((List.range n).foldl passThrough m).size = m.size := by
  induction n with
  | zero => rfl
  | succ n ih =>
    rw [List.range_succ, List.foldl_append, List.foldl_cons, List.foldl_nil, size_passThrough, ih]

theorem size_transitiveClosure : m.transitiveClosure.size = m.size :=
  size_foldl_passThrough m m.numRows

def reflexiveTransitiveClosure (m : BoolMatrix) : BoolMatrix :=
  m.transitiveClosure.union (identity m.numRows)

theorem size_transitiveClosure_eq (hm : m.size = (n, n)) :
    m.transitiveClosure.size = (identity m.numRows).size := by
  have hn : m.numRows = n := congrArg Prod.fst hm
  rw [size_transitiveClosure, size_identity, hm, hn]

theorem size_reflexiveTransitiveClosure (hm : m.size = (n, n)) :
    m.reflexiveTransitiveClosure.size = (n, n) := by
  rw [reflexiveTransitiveClosure, size_union (size_transitiveClosure_eq hm),
    size_transitiveClosure, hm]

end ContextFreePaths.BoolMatrix
