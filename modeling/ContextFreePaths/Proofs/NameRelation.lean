import ContextFreePaths.Grammar.Relation
import ContextFreePaths.Proofs.Interpretation
import ContextFreePaths.Proofs.TransitiveClosure

namespace ContextFreePaths

open Relation

namespace NameIndex

variable {x : NameIndex} {pairs : List (Name × Name)} {A B : Name} {i j : Nat}

theorem index?_eq_some (hx : x.names.Nodup) : x.index? A = some i ↔ x.name? i = some A :=
  FirstSeen.idxOf?_eq_some hx

theorem name?_inj (hx : x.names.Nodup) (hi : x.name? i = some A) (hj : x.name? j = some A) :
    i = j :=
  Option.some.inj (((index?_eq_some hx).mpr hi).symm.trans ((index?_eq_some hx).mpr hj))

theorem mem_positions (hx : x.names.Nodup) : (i, j) ∈ x.positions pairs ↔
    ∃ A B, (A, B) ∈ pairs ∧ x.name? i = some A ∧ x.name? j = some B := by
  simp only [positions, List.mem_filterMap, Prod.exists, ← index?_eq_some hx]
  constructor
  · rintro ⟨A, B, mem, h⟩
    refine ⟨A, B, mem, ?_⟩
    cases hA : x.index? A <;> cases hB : x.index? B <;> simp_all
  · rintro ⟨A, B, mem, hA, hB⟩
    exact ⟨A, B, mem, by simp [hA, hB]⟩

theorem lt_size_of_name? (h : x.name? i = some A) : i < x.size :=
  (List.getElem?_eq_some_iff.mp h).1

theorem mem_names_of_name? (h : x.name? i = some A) : A ∈ x.names :=
  List.mem_of_getElem? h

theorem exists_name? (h : A ∈ x.names) : ∃ i, x.name? i = some A :=
  List.mem_iff_getElem?.mp h

theorem get_matrix (hx : x.names.Nodup) : (x.matrix pairs).get i j = true ↔
    ∃ A B, (A, B) ∈ pairs ∧ x.name? i = some A ∧ x.name? j = some B := by
  rw [matrix, BoolMatrix.get_ofPositions, mem_positions hx]
  constructor
  · exact And.left
  · rintro ⟨A, B, mem, hA, hB⟩
    exact ⟨⟨A, B, mem, hA, hB⟩, lt_size_of_name? hA, lt_size_of_name? hB⟩

def Joins (x : NameIndex) (pairs : List (Name × Name)) (A B : Name) : Prop :=
  A ∈ x.names ∧ B ∈ x.names ∧ (A, B) ∈ pairs

theorem get_closure (hx : x.names.Nodup) :
    (x.matrix pairs).reflexiveTransitiveClosure.get i j = true ↔
      ∃ A B, x.name? i = some A ∧ x.name? j = some B ∧ ReflTransGen (x.Joins pairs) A B := by
  rw [BoolMatrix.get_reflexiveTransitiveClosure size_matrix]
  constructor
  · rintro ⟨hi, h⟩
    have hA : x.name? i = some x.names[i] := List.getElem?_eq_getElem hi
    refine ⟨x.names[i], ?_⟩
    induction h with
    | refl => exact ⟨_, hA, hA, .refl⟩
    | @tail j k _ hjk ih =>
      obtain ⟨B, _, hB, chain⟩ := ih
      obtain ⟨B', C, mem, hB', hC⟩ := (get_matrix hx).mp hjk
      obtain rfl : B = B' := Option.some.inj (hB.symm.trans hB')
      exact ⟨C, hA, hC, chain.tail ⟨mem_names_of_name? hB, mem_names_of_name? hC, mem⟩⟩
  · rintro ⟨A, B, hA, hB, chain⟩
    refine ⟨lt_size_of_name? hA, ?_⟩
    induction chain generalizing j with
    | refl =>
      obtain rfl := name?_inj hx hA hB
      exact .refl
    | @tail C B _ hCB ih =>
      obtain ⟨k, hk⟩ := exists_name? hCB.1
      exact (ih hk).tail ((get_matrix hx).mpr ⟨C, B, hCB.2.2, hk, hB⟩)

theorem exists_name (h : A ∈ x.names) : ∃ i, x.name i = A :=
  List.get_of_mem h

theorem name?_name {i : Fin x.size} : x.name? i = some (x.name i) :=
  List.getElem?_eq_getElem i.isLt

theorem name_inj (hx : x.names.Nodup) {i j : Fin x.size} : x.name i = x.name j ↔ i = j :=
  ⟨fun h => Fin.ext (name?_inj hx name?_name (h ▸ name?_name)), congrArg x.name⟩

theorem exists_position (h : A ∈ x.names) : ∃ i, x.position? A = some i ∧ x.name i = A := by
  cases hi : x.position? A with
  | none => exact absurd h (List.finIdxOf?_eq_none_iff.mp hi)
  | some i => exact ⟨i, rfl, (List.finIdxOf?_eq_some_iff.mp hi).1⟩

theorem mem_targets (hx : x.names.Nodup)
    (hm : (x.matrix pairs).reflexiveTransitiveClosure.size = (x.size, x.size)) {i : Fin x.size} :
    B ∈ x.targets (x.matrix pairs).reflexiveTransitiveClosure hm i ↔
      B ∈ x.names ∧ ReflTransGen (x.Joins pairs) (x.name i) B := by
  simp only [targets, List.mem_filterMap, BoolMatrix.mem_row, get_closure hx]
  constructor
  · rintro ⟨j, ⟨A, B', hA, hB', chain⟩, hB⟩
    obtain rfl : x.name i = A := Option.some.inj (name?_name.symm.trans hA)
    obtain rfl : B = B' := Option.some.inj (hB.symm.trans hB')
    exact ⟨mem_names_of_name? hB, chain⟩
  · rintro ⟨hB, chain⟩
    obtain ⟨j, hj⟩ := exists_name? hB
    exact ⟨j, ⟨x.name i, B, name?_name, hj, chain⟩, hj⟩

end NameIndex

namespace Grammar

variable {g : Grammar} {A B : Name}

theorem mem_mentions : A ∈ g.mentions ↔ A = g.start ∨ ∃ r ∈ g.rules, A ∈ r.names := by
  simp [mentions, Rule.names]

theorem mem_nonterminals : A ∈ g.nonterminals ↔ A = g.start ∨ ∃ r ∈ g.rules, A ∈ r.names := by
  rw [nonterminals, SortedList.mem_ofList, mem_mentions]

theorem names_subset_nonterminals {r : Rule} (hr : r ∈ g.rules) : r.names ⊆ g.nonterminals :=
  fun _ hA => mem_nonterminals.mpr (.inr ⟨r, hr, hA⟩)

theorem rules_names_subset {s : NameSupply} (hs : g.nonterminals ⊆ s.taken) :
    ∀ r ∈ g.rules, r.names ⊆ s.taken :=
  fun _ hr => List.Subset.trans (names_subset_nonterminals hr) hs

theorem nonterminals_subset {h : Grammar} (hs : g.start = h.start) (hr : g.rules ⊆ h.rules) :
    g.nonterminals ⊆ h.nonterminals := by
  intro A hA
  rw [mem_nonterminals] at hA ⊢
  rcases hA with rfl | ⟨r, mem, hA⟩
  · exact .inl hs
  · exact .inr ⟨r, hr mem, hA⟩

theorem mem_names_ofGrammar : A ∈ (NameIndex.ofGrammar g).names ↔ A ∈ g.nonterminals := by
  rw [NameIndex.ofGrammar, FirstSeen.mem_ofList, nonterminals, SortedList.mem_ofList]

theorem nodup_names_ofGrammar : (NameIndex.ofGrammar g).names.Nodup :=
  FirstSeen.nodup_ofList

def LeadsTo (g : Grammar) (A B : Name) : Prop :=
  ∃ r ∈ g.rules, r.lhs = A ∧ .nonterminal B ∈ r.rhs

theorem mem_derivationPairs : (A, B) ∈ g.derivationPairs ↔ g.LeadsTo A B := by
  simp only [derivationPairs, List.mem_flatMap, List.mem_map, Prod.mk.injEq, LeadsTo,
    Rule.mem_rhsNames]
  constructor
  · rintro ⟨r, hr, C, hC, rfl, rfl⟩
    exact ⟨r, hr, rfl, hC⟩
  · rintro ⟨r, hr, rfl, hB⟩
    exact ⟨r, hr, B, hB, rfl, rfl⟩

theorem joins_ofGrammar {pairs : List (Name × Name)} (hp : pairs ⊆ g.derivationPairs) :
    (NameIndex.ofGrammar g).Joins pairs A B ↔ (A, B) ∈ pairs := by
  simp only [NameIndex.Joins, mem_names_ofGrammar]
  constructor
  · exact fun h => h.2.2
  · intro h
    obtain ⟨r, hr, rfl, hB⟩ := mem_derivationPairs.mp (hp h)
    exact ⟨names_subset_nonterminals hr (Rule.mem_names.mpr (.inl rfl)),
      names_subset_nonterminals hr (Rule.mem_names.mpr (.inr hB)), h⟩

theorem mem_reachable : A ∈ g.reachable ↔ ReflTransGen g.LeadsTo g.start A := by
  have hx := nodup_names_ofGrammar (g := g)
  have h0 : (NameIndex.ofGrammar g).name ⟨0, NameIndex.size_ofGrammar_pos⟩ = g.start :=
    Option.some.inj (NameIndex.name?_name.symm.trans FirstSeen.head_ofList)
  have hj : (NameIndex.ofGrammar g).Joins g.derivationPairs = g.LeadsTo := by
    funext A B
    rw [joins_ofGrammar (List.Subset.refl _), mem_derivationPairs]
  simp only [reachable, SortedList.mem_ofList, reachabilityMatrix, derivationMatrix]
  rw [NameIndex.mem_targets hx, h0, hj, mem_names_ofGrammar, and_iff_right_iff_imp]
  intro h
  rcases h.cases_tail with rfl | ⟨B, _, r, hr, _, hA⟩
  · exact mem_nonterminals.mpr (.inl rfl)
  · exact names_subset_nonterminals hr (Rule.mem_names.mpr (.inr hA))

end Grammar

end ContextFreePaths
