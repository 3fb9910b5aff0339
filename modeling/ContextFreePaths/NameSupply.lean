import Std.Data.String.ToNat

namespace ContextFreePaths

structure NameSupply where
  taken : List String := []
  counter : Nat := 0

namespace NameSupply

def isTaken (s : NameSupply) (name : String) : Bool :=
  decide (name ∈ s.taken)

def numTaken (s : NameSupply) : Nat :=
  s.taken.length

def take (s : NameSupply) (name : String) : NameSupply :=
  if name ∈ s.taken then s else { s with taken := name :: s.taken }

def ofTaken (names : List String) : NameSupply :=
  names.foldl take {}

/-- The number of the first candidate that is free. Candidates that differ from each other cannot
all be taken, so one of the first `numTaken + 1` is free. -/
def firstFree (s : NameSupply) (candidate : Nat → String) : Nat :=
  ((List.range (s.numTaken + 1)).find? (fun i => candidate i ∉ s.taken)).getD 0

theorem firstFree_spec {s : NameSupply} {candidate : Nat → String}
    (h : ∀ i j, candidate i = candidate j → i = j) :
    candidate (s.firstFree candidate) ∉ s.taken ∧ s.firstFree candidate ≤ s.numTaken ∧
      ∀ j < s.firstFree candidate, candidate j ∈ s.taken := by
  unfold firstFree
  cases hf : (List.range (s.numTaken + 1)).find? (fun i => candidate i ∉ s.taken) with
  | some i =>
    obtain ⟨free, range, before⟩ := List.find?_range_eq_some.mp hf
    refine ⟨by simpa using free, Nat.le_of_lt_succ (List.mem_range.mp range), ?_⟩
    intro j hj
    simpa using before j hj
  | none =>
    exfalso
    have hs : (List.range (s.numTaken + 1)).map candidate ⊆ s.taken := by
      intro name hn
      obtain ⟨i, hi, rfl⟩ := List.mem_map.mp hn
      simpa using List.find?_eq_none.mp hf i hi
    have hd : ((List.range (s.numTaken + 1)).map candidate).Nodup :=
      List.pairwise_map.mpr (List.nodup_range.imp (fun hne he => hne (h _ _ he)))
    have := hd.length_le_of_subset hs
    rw [List.length_map, List.length_range, numTaken] at this
    omega

def hinted (s : NameSupply) (hint : String) : Nat → String
  | 0 => hint
  | i + 1 => hint ++ "#" ++ toString (s.counter + i)

theorem hinted_injective {s : NameSupply} {hint : String} {i j : Nat}
    (h : s.hinted hint i = s.hinted hint j) : i = j := by
  have hlt : ∀ t : String, hint ≠ hint ++ "#" ++ t := by
    intro t ht
    have := congrArg String.length ht
    have mark : "#".length = 1 := rfl
    simp only [String.length_append, mark] at this
    omega
  cases i <;> cases j
  · rfl
  · exact absurd h (hlt _)
  · exact absurd h.symm (hlt _)
  · simp only [hinted, String.append_right_inj, ToString.toString, Nat.repr_inj] at h
    omega

def fresh (s : NameSupply) (hint : String) : String × NameSupply :=
  let i := s.firstFree (s.hinted hint)
  let name := s.hinted hint i
  (name, { taken := name :: s.taken, counter := s.counter + i })

def numbered (s : NameSupply) (i : Nat) : String :=
  "g" ++ toString (s.counter + i)

theorem numbered_injective {s : NameSupply} {i j : Nat} (h : s.numbered i = s.numbered j) :
    i = j := by
  simp only [numbered, String.append_right_inj, ToString.toString, Nat.repr_inj] at h
  omega

def next (s : NameSupply) : String × NameSupply :=
  let i := s.firstFree s.numbered
  let name := s.numbered i
  (name, { taken := name :: s.taken, counter := s.counter + i + 1 })

theorem fresh_not_mem {s : NameSupply} {hint : String} : (s.fresh hint).1 ∉ s.taken :=
  (firstFree_spec (fun _ _ => hinted_injective)).1

theorem next_not_mem {s : NameSupply} : s.next.1 ∉ s.taken :=
  (firstFree_spec (fun _ _ => numbered_injective)).1

theorem next_mem_taken {s : NameSupply} : s.next.1 ∈ s.next.2.taken :=
  List.mem_cons_self

theorem fresh_mem_taken {s : NameSupply} {hint : String} :
    (s.fresh hint).1 ∈ (s.fresh hint).2.taken :=
  List.mem_cons_self

theorem taken_subset_next {s : NameSupply} : s.taken ⊆ s.next.2.taken :=
  List.subset_cons_self _ _

theorem taken_subset_fresh {s : NameSupply} {hint : String} :
    s.taken ⊆ (s.fresh hint).2.taken :=
  List.subset_cons_self _ _

/-- The second supply was made from the first by making these names up, in this order. -/
structure Adds (s t : NameSupply) (names : List String) : Prop where
  taken : t.taken = names.reverse ++ s.taken
  nodup : names.Nodup
  fresh : ∀ name ∈ names, name ∉ s.taken

theorem Adds.refl (s : NameSupply) : s.Adds s [] where
  taken := rfl
  nodup := .nil
  fresh := fun _ h => absurd h List.not_mem_nil

theorem adds_next {s : NameSupply} : s.Adds s.next.2 [s.next.1] where
  taken := rfl
  nodup := List.pairwise_singleton _ _
  fresh := fun _ h => List.mem_singleton.mp h ▸ next_not_mem

theorem adds_fresh {s : NameSupply} {hint : String} :
    s.Adds (s.fresh hint).2 [(s.fresh hint).1] where
  taken := rfl
  nodup := List.pairwise_singleton _ _
  fresh := fun _ h => List.mem_singleton.mp h ▸ fresh_not_mem

theorem Adds.trans {s t u : NameSupply} {names more : List String} (h : s.Adds t names)
    (h' : t.Adds u more) : s.Adds u (names ++ more) := by
  have later : ∀ name ∈ more, name ∉ names ∧ name ∉ s.taken := by
    intro name hm
    have := h'.fresh name hm
    rw [h.taken, List.mem_append, List.mem_reverse, not_or] at this
    exact this
  constructor
  · rw [h'.taken, h.taken, List.reverse_append, List.append_assoc]
  · refine List.nodup_append.mpr ⟨h.nodup, h'.nodup, ?_⟩
    rintro name hn _ hm rfl
    exact (later name hm).1 hn
  · intro name hn
    rcases List.mem_append.mp hn with hn | hn
    · exact h.fresh name hn
    · exact (later name hn).2

theorem Adds.taken_subset {s t : NameSupply} {names : List String} (h : s.Adds t names) :
    s.taken ⊆ t.taken := by
  rw [h.taken]
  exact List.subset_append_right _ _

theorem Adds.mem_iff {s t : NameSupply} {names : List String} {name : String}
    (h : s.Adds t names) : name ∈ t.taken ∧ name ∉ s.taken ↔ name ∈ names := by
  rw [h.taken, List.mem_append, List.mem_reverse]
  constructor
  · rintro ⟨new | old, hs⟩
    · exact new
    · exact absurd old hs
  · exact fun new => ⟨.inl new, h.fresh name new⟩

theorem mem_taken_take {s : NameSupply} {name other : String} :
    other ∈ (s.take name).taken ↔ other = name ∨ other ∈ s.taken := by
  unfold take
  split <;> simp_all

theorem mem_taken_ofTaken {names : List String} {name : String} :
    name ∈ (ofTaken names).taken ↔ name ∈ names := by
  have fold : ∀ s : NameSupply,
      name ∈ (names.foldl take s).taken ↔ name ∈ s.taken ∨ name ∈ names := by
    induction names with
    | nil => simp
    | cons other names ih =>
      intro s
      rw [List.foldl_cons, ih, mem_taken_take, List.mem_cons, or_comm (a := name = other), or_assoc]
  rw [ofTaken, fold]
  simp

end NameSupply

end ContextFreePaths
