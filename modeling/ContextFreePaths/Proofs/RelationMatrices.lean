import ContextFreePaths.Proofs.NormalForm.UnitFree

namespace ContextFreePaths

open Relation

namespace BoolMatrix

variable {m : BoolMatrix} {n i j : Nat} {R : Nat → Nat → Prop}

structure Represents (m : BoolMatrix) (n : Nat) (R : Nat → Nat → Prop) : Prop where
  size : m.size = (n, n)
  get : ∀ i j, m.get i j = true ↔ i < n ∧ j < n ∧ R i j
  row : ∀ i < n, ∃ l, m.row? i = some l ∧ l.Pairwise (· < ·) ∧ ∀ j, j ∈ l ↔ j < n ∧ R i j

theorem exists_row (hi : i < m.numRows) :
    ∃ l, m.row? i = some l ∧ l.Pairwise (· < ·) ∧ ∀ j, j ∈ l ↔ m.get i j = true :=
  ⟨m.row ⟨i, hi⟩, row?_eq_some hi, List.pairwise_lt_range.filter _, fun _ => mem_row⟩

theorem represents_of_get (hm : m.size = (n, n))
    (get : ∀ i j, m.get i j = true ↔ i < n ∧ j < n ∧ R i j) : m.Represents n R := by
  refine ⟨hm, get, fun i hi => ?_⟩
  have rows : m.numRows = n := congrArg Prod.fst hm
  obtain ⟨l, row, ascending, mem⟩ := exists_row (rows ▸ hi : i < m.numRows)
  refine ⟨l, row, ascending, fun j => ?_⟩
  rw [mem, get]
  exact and_iff_right hi

theorem Represents.reflexiveTransitiveClosure (hm : m.Represents n R)
    (bounds : ∀ i j, R i j → i < n ∧ j < n) :
    m.reflexiveTransitiveClosure.Represents n (ReflTransGen R) := by
  have same : (fun i j => m.get i j = true) = R := by
    funext i j
    rw [hm.get, ← and_assoc]
    exact propext (and_iff_right_of_imp (bounds i j))
  have hs := size_reflexiveTransitiveClosure hm.size
  refine represents_of_get hs (fun i j => ?_)
  constructor
  · intro h
    have chain := (get_reflexiveTransitiveClosure hm.size).mp h
    rw [same] at chain
    exact ⟨chain.1, (bounds_of_size hs h).2, chain.2⟩
  · rintro ⟨hi, _, chain⟩
    rw [get_reflexiveTransitiveClosure hm.size, same]
    exact ⟨hi, chain⟩

end BoolMatrix

namespace NameIndex

variable {x : NameIndex} {pairs : List (Name × Name)} {i j : Nat} {S : Name → Name → Prop}

def Numbered (x : NameIndex) (S : Name → Name → Prop) (i j : Nat) : Prop :=
  ∃ A B, x.name? i = some A ∧ x.name? j = some B ∧ S A B

theorem Numbered.bounds (h : x.Numbered S i j) : i < x.size ∧ j < x.size := by
  obtain ⟨A, B, hA, hB, _⟩ := h
  exact ⟨lt_size_of_name? hA, lt_size_of_name? hB⟩

theorem represents_matrix (hx : x.names.Nodup) (hS : ∀ A B, (A, B) ∈ pairs ↔ S A B) :
    (x.matrix pairs).Represents x.size (x.Numbered S) := by
  refine BoolMatrix.represents_of_get size_matrix (fun i j => ?_)
  rw [get_matrix hx]
  constructor
  · rintro ⟨A, B, mem, hA, hB⟩
    exact ⟨lt_size_of_name? hA, lt_size_of_name? hB, A, B, hA, hB, (hS A B).mp mem⟩
  · rintro ⟨_, _, A, B, hA, hB, related⟩
    exact ⟨A, B, (hS A B).mpr related, hA, hB⟩

theorem represents_closure (hx : x.names.Nodup) (hS : ∀ A B, (A, B) ∈ pairs ↔ S A B) :
    (x.matrix pairs).reflexiveTransitiveClosure.Represents x.size (ReflTransGen (x.Numbered S)) :=
  (represents_matrix hx hS).reflexiveTransitiveClosure (fun _ _ => Numbered.bounds)

theorem exists_name?_iff : (∃ A, x.name? i = some A) ↔ i < x.size := by
  rw [name?, size, ← Option.isSome_iff_exists, isSome_getElem?]

theorem exists_index?_iff {A : Name} (hx : x.names.Nodup) :
    (∃ i, x.index? A = some i) ↔ A ∈ x.names := by
  simp only [index?_eq_some hx]
  constructor
  · rintro ⟨i, hi⟩
    exact mem_names_of_name? hi
  · exact exists_name?

end NameIndex

namespace Grammar

/-- Over an index of any grammar the names and the numbers below the size lead to each other. The
matrices hold the steps from number to number and the chains of such steps, so a chain is cut at
each name without a number. -/
theorem relation_matrices_exact (g h : Grammar) :
    let x := NameIndex.ofGrammar h
    (∀ A i, x.index? A = some i ↔ x.name? i = some A) ∧
      (∀ i, (∃ A, x.name? i = some A) ↔ i < x.size) ∧
      (∀ A, (∃ i, x.index? A = some i) ↔ A ∈ h.nonterminals) ∧
      x.name? 0 = some h.start ∧
      (g.derivationMatrix x).Represents x.size (x.Numbered g.LeadsTo) ∧
      (g.reachabilityMatrix x).Represents x.size (ReflTransGen (x.Numbered g.LeadsTo)) ∧
      (g.unitMatrix x).Represents x.size (ReflTransGen (x.Numbered g.UnitStep)) := by
  intro x
  have hx : x.names.Nodup := nodup_names_ofGrammar
  refine ⟨fun A i => NameIndex.index?_eq_some hx, fun i => NameIndex.exists_name?_iff,
    fun A => ?_, FirstSeen.head_ofList, ?_, ?_, ?_⟩
  · rw [NameIndex.exists_index?_iff hx, mem_names_ofGrammar]
  · exact NameIndex.represents_matrix hx (fun A B => mem_derivationPairs)
  · exact NameIndex.represents_closure hx (fun A B => mem_derivationPairs)
  · exact NameIndex.represents_closure hx (fun A B => mem_unitPairs)

-- Here `E` is reached from `S`, but only through `M`, which has no number.
example :
    let g : Grammar := ⟨"S", [⟨"S", [.nonterminal "M"]⟩, ⟨"M", [.nonterminal "E"]⟩]⟩
    let x := NameIndex.ofGrammar ⟨"S", [⟨"E", []⟩]⟩
    "E" ∈ g.reachable ∧ x.index? "E" = some 1 ∧ (g.reachabilityMatrix x).get 0 1 = false := by
  decide +kernel

end Grammar

end ContextFreePaths
