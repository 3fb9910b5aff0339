import Mathlib.Logic.Relation
import Mathlib.Tactic.Common
import ContextFreePaths.BoolMatrix.Composition

namespace ContextFreePaths.BoolMatrix

open Relation

variable {m : BoolMatrix} {i j k n r c : Nat} {positions : List (Nat × Nat)}

theorem get_passThrough :
    (m.passThrough k).get i j = (m.get i j || (m.get i k && m.get k j)) := by
  obtain ⟨c, rows⟩ := m
  unfold passThrough
  split
  · next hk => simp [get_mk, hk]
  · next s hk =>
    simp only at hk
    simp only [get_mk, List.getElem?_map, hk, Option.getD_some]
    cases hi : rows[i]? with
    | none => simp
    | some r => by_cases hr : r.getLsbD k <;> simp [hr]

theorem foldl_passThrough_spec (m : BoolMatrix) (n : Nat) :
    let t := (List.range n).foldl passThrough m
    (∀ i j, m.get i j = true → t.get i j = true) ∧
      (∀ i j, t.get i j = true → TransGen (fun i j => m.get i j = true) i j) ∧
      ∀ p < n, ∀ i j, t.get i p = true → t.get p j = true → t.get i j = true := by
  induction n with
  | zero => exact ⟨fun _ _ h => h, fun _ _ h => .single h, by omega⟩
  | succ n ih =>
    obtain ⟨keeps, sound, closed⟩ := ih
    rw [List.range_succ, List.foldl_append, List.foldl_cons, List.foldl_nil]
    generalize (List.range n).foldl passThrough m = t at keeps sound closed
    simp only [get_passThrough, Bool.or_eq_true, Bool.and_eq_true]
    refine ⟨fun i j h => .inl (keeps i j h), ?_, ?_⟩
    · rintro i j (h | ⟨hi, hj⟩)
      · exact sound i j h
      · exact (sound i n hi).trans (sound n j hj)
    · intro p hp i j hi hj
      -- An earlier pivot `p` may be joined to `i` and to `j` by ways that lead through `n` only now.
      rcases Nat.lt_succ_iff_lt_or_eq.mp hp with hp | rfl
      · rcases hi with hi | ⟨hin, hnp⟩ <;> rcases hj with hj | ⟨hpn, hnj⟩
        · exact .inl (closed p hp i j hi hj)
        · exact .inr ⟨closed p hp i n hi hpn, hnj⟩
        · exact .inr ⟨hin, closed p hp n j hnp hj⟩
        · exact .inr ⟨hin, hnj⟩
      · exact .inr ⟨hi.elim id And.left, hj.elim id And.right⟩

theorem get_transitiveClosure :
    m.transitiveClosure.get i j = true ↔ TransGen (fun i j => m.get i j = true) i j := by
  obtain ⟨keeps, sound, closed⟩ := foldl_passThrough_spec m m.numRows
  have hsize := size_foldl_passThrough m m.numRows
  unfold transitiveClosure
  generalize (List.range m.numRows).foldl passThrough m = t at *
  constructor
  · exact sound i j
  · intro h
    induction h with
    | single h => exact keeps _ _ h
    | @tail k j _ h ih =>
      have hk : k < m.numRows := (bounds_of_get h).1
      exact closed k hk i j ih (keeps k j h)

theorem get_reflexiveTransitiveClosure (hm : m.size = (n, n)) :
    m.reflexiveTransitiveClosure.get i j = true ↔
      i < n ∧ ReflTransGen (fun i j => m.get i j = true) i j := by
  have hn : m.numRows = n := congrArg Prod.fst hm
  rw [reflexiveTransitiveClosure, get_union (size_transitiveClosure_eq hm), Bool.or_eq_true,
    get_transitiveClosure, get_identity, hn, decide_eq_true_eq]
  constructor
  · rintro (h | ⟨hi, rfl⟩)
    · obtain ⟨k, hk, _⟩ := TransGen.head'_iff.mp h
      exact ⟨hn ▸ (bounds_of_get hk).1, h.to_reflTransGen⟩
    · exact ⟨hi, .refl⟩
  · rintro ⟨hi, h⟩
    rcases reflTransGen_iff_eq_or_transGen.mp h with rfl | h
    · exact .inr ⟨hi, rfl⟩
    · exact .inl h

theorem get_foldl_set :
    (positions.foldl (fun m p => m.set p.1 p.2 true) m).get i j = true ↔
      m.get i j = true ∨ (i, j) ∈ positions ∧ i < m.numRows ∧ j < m.numCols := by
  induction positions generalizing m with
  | nil => simp
  | cons p positions ih =>
    have hs : (m.set p.1 p.2 true).size = m.size := size_set
    simp only [size, Prod.mk.injEq] at hs
    rw [List.foldl_cons, ih, get_set, hs.1, hs.2, List.mem_cons]
    grind

theorem get_ofPositions :
    (ofPositions r c positions).get i j = true ↔ (i, j) ∈ positions ∧ i < r ∧ j < c := by
  have hs : (zero r c).size = (r, c) := size_zero
  simp only [size, Prod.mk.injEq] at hs
  rw [ofPositions, get_foldl_set, hs.1, hs.2]
  simp

end ContextFreePaths.BoolMatrix
