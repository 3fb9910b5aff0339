import ContextFreePaths.Proofs.Region

namespace ContextFreePaths

structure MatrixOperations (M : Type) where
  zero : Nat → Nat → M
  square : Nat → M
  identity : Nat → M
  resize : M → Nat → Nat → M
  set? : M → Nat → Nat → Bool → Option M
  union? : M → M → Option (M × Bool)
  product? : M → M → Option M
  accumulate? : M → M → M → Option (M × Bool)

def BoolMatrix.operations : MatrixOperations BoolMatrix :=
  ⟨zero, square, identity, resize, set?, union?, product?, accumulate?⟩

def Region.operations : MatrixOperations Region :=
  ⟨zero, fun n => zero n n, identity, resize, set?, union?, product?, accumulate?⟩

/-- The matrices of a command are given by their positions in the store. What is new goes to its
end. -/
inductive MatrixCommand
  | zero (r c : Nat)
  | square (n : Nat)
  | identity (n : Nat)
  | clone (k : Nat)
  | resize (k r c : Nat)
  | set (k i j : Nat) (b : Bool)
  | union (k l : Nat)
  | product (k l : Nat)
  | accumulate (k l l' : Nat)

inductive MatrixOutcome
  | absent
  | failed
  | done
  | changed (b : Bool)
  deriving DecidableEq

namespace MatrixOperations

variable {M N : Type} {ops : MatrixOperations M} {ops' : MatrixOperations N} {f : M → N}

def append (store : List M) : Option M → List M × MatrixOutcome
  | none => (store, .failed)
  | some m => (store ++ [m], .done)

def replace (store : List M) (k : Nat) : Option M → List M × MatrixOutcome
  | none => (store, .failed)
  | some m => (store.set k m, .done)

def enlarge (store : List M) (k : Nat) : Option (M × Bool) → List M × MatrixOutcome
  | none => (store, .failed)
  | some (m, b) => (store.set k m, .changed b)

def withMatrix (store : List M) (k : Nat) (act : M → List M × MatrixOutcome) :
    List M × MatrixOutcome :=
  match store[k]? with
  | none => (store, .absent)
  | some m => act m

def step (ops : MatrixOperations M) (store : List M) : MatrixCommand → List M × MatrixOutcome
  | .zero r c => append store (some (ops.zero r c))
  | .square n => append store (some (ops.square n))
  | .identity n => append store (some (ops.identity n))
  | .clone k => withMatrix store k (fun m => append store (some m))
  | .resize k r c => withMatrix store k (fun m => replace store k (some (ops.resize m r c)))
  | .set k i j b => withMatrix store k (fun m => replace store k (ops.set? m i j b))
  | .union k l =>
    withMatrix store k (fun m => withMatrix store l (fun n => enlarge store k (ops.union? m n)))
  | .product k l =>
    withMatrix store k (fun a => withMatrix store l (fun b => append store (ops.product? a b)))
  | .accumulate k l l' =>
    withMatrix store k (fun m => withMatrix store l (fun a => withMatrix store l' (fun b =>
      enlarge store k (ops.accumulate? m a b))))

def run (ops : MatrixOperations M) (store : List M) :
    List MatrixCommand → List M × List MatrixOutcome
  | [] => (store, [])
  | c :: commands =>
    let (store', outcome) := ops.step store c
    let (final, outcomes) := ops.run store' commands
    (final, outcome :: outcomes)

structure Homomorphism (f : M → N) (ops : MatrixOperations M) (ops' : MatrixOperations N) :
    Prop where
  zero : ∀ r c, f (ops.zero r c) = ops'.zero r c
  square : ∀ n, f (ops.square n) = ops'.square n
  identity : ∀ n, f (ops.identity n) = ops'.identity n
  resize : ∀ m r c, f (ops.resize m r c) = ops'.resize (f m) r c
  set? : ∀ m i j b, (ops.set? m i j b).map f = ops'.set? (f m) i j b
  union? : ∀ m n, (ops.union? m n).map (Prod.map f id) = ops'.union? (f m) (f n)
  product? : ∀ a b, (ops.product? a b).map f = ops'.product? (f a) (f b)
  accumulate? : ∀ m a b, (ops.accumulate? m a b).map (Prod.map f id) =
    ops'.accumulate? (f m) (f a) (f b)

theorem append_map (store : List M) (m : Option M) :
    append (store.map f) (m.map f) = Prod.map (List.map f) id (append store m) := by
  cases m <;> simp [append]

theorem replace_map (store : List M) (k : Nat) (m : Option M) :
    replace (store.map f) k (m.map f) = Prod.map (List.map f) id (replace store k m) := by
  cases m <;> simp [replace, List.map_set]

theorem enlarge_map (store : List M) (k : Nat) (m : Option (M × Bool)) :
    enlarge (store.map f) k (m.map (Prod.map f id)) =
      Prod.map (List.map f) id (enlarge store k m) := by
  cases m <;> simp [enlarge, List.map_set]

theorem withMatrix_map {store : List M} {k : Nat} {act : M → List M × MatrixOutcome}
    {act' : N → List N × MatrixOutcome} (h : ∀ m, act' (f m) = Prod.map (List.map f) id (act m)) :
    withMatrix (store.map f) k act' = Prod.map (List.map f) id (withMatrix store k act) := by
  unfold withMatrix
  rw [List.getElem?_map]
  cases store[k]? with
  | none => rfl
  | some m => exact h m

theorem Homomorphism.step_map (h : Homomorphism f ops ops') (store : List M)
    (command : MatrixCommand) :
    ops'.step (store.map f) command = Prod.map (List.map f) id (ops.step store command) := by
  cases command with
  | zero r c =>
    rw [step, step, ← append_map, Option.map_some, h.zero]
  | square n =>
    rw [step, step, ← append_map, Option.map_some, h.square]
  | identity n =>
    rw [step, step, ← append_map, Option.map_some, h.identity]
  | clone k =>
    exact withMatrix_map (fun m => append_map store (some m))
  | resize k r c =>
    refine withMatrix_map (fun m => ?_)
    rw [← replace_map, Option.map_some, h.resize]
  | set k i j b =>
    refine withMatrix_map (fun m => ?_)
    rw [← replace_map, h.set?]
  | union k l =>
    refine withMatrix_map (fun m => withMatrix_map (fun n => ?_))
    rw [← enlarge_map, h.union?]
  | product k l =>
    refine withMatrix_map (fun a => withMatrix_map (fun b => ?_))
    rw [← append_map, h.product?]
  | accumulate k l l' =>
    refine withMatrix_map (fun m => withMatrix_map (fun a => withMatrix_map (fun b => ?_)))
    rw [← enlarge_map, h.accumulate?]

theorem Homomorphism.run_map (h : Homomorphism f ops ops') (store : List M)
    (commands : List MatrixCommand) :
    ops'.run (store.map f) commands = Prod.map (List.map f) id (ops.run store commands) := by
  induction commands generalizing store with
  | nil => rfl
  | cons c commands ih =>
    rw [run, run, h.step_map store c]
    simp only [Prod.map_fst, Prod.map_snd, ih, id_eq]
    rfl

end MatrixOperations

namespace BoolMatrix

theorem region_homomorphism :
    MatrixOperations.Homomorphism region operations Region.operations where
  zero _ _ := region_zero
  square _ := region_zero
  identity _ := region_identity
  resize _ _ _ := region_resize
  set? _ _ _ _ := region_set?
  union? _ _ := region_union?
  product? _ _ := region_product?
  accumulate? _ _ _ := region_accumulate?

/-- Matrices refine regions. A run over matrices, started with none, has the outcomes of the run
over regions and ends in matrices that denote its regions, and what is read off a matrix is what
its region says. Rows are as long as there are columns by the type of `rows`. -/
theorem run_refines_regions (commands : List MatrixCommand) :
    let final := operations.run [] commands
    Region.operations.run [] commands = (final.1.map region, final.2) ∧
      ∀ m ∈ final.1,
        m.size = m.region.size ∧
        (∀ i j, (i, j) ∈ m.region.positions ↔ m.get i j = true) ∧
        (∀ i j, m.get i j = true → i < m.numRows ∧ j < m.numCols) ∧
        m.count = m.region.positions.card ∧
        (m.isEmpty = true ↔ m.region.positions = ∅) ∧
        (∀ p, p ∈ m.ones ↔ p ∈ m.region.positions) ∧
        m.ones.Pairwise (Prod.Lex (· < ·) (· < ·)) ∧
        ∀ other ∈ final.1,
          (m = other ↔ m.size = other.size ∧ m.region.positions = other.region.positions) ∧
          ∀ result changed, m.union? other = some (result, changed) →
            (changed = true ↔ result.region.positions ≠ m.region.positions) ∧
            (changed = true ↔ m.count < result.count) := by
  refine ⟨region_homomorphism.run_map [] commands, fun m _ => ?_⟩
  refine ⟨rfl, fun _ _ => mem_region, fun _ _ => bounds_of_get, card_region.symm, isEmpty_iff,
    fun p => by rw [← toFinset_ones, List.mem_toFinset], pairwise_ones, fun other _ => ?_⟩
  refine ⟨?_, fun _ _ => changed_iff⟩
  rw [← region_inj, Region.ext_iff, size, size, Prod.mk.injEq, and_assoc]
  rfl

def regrowth : List MatrixCommand :=
  [.zero 2 3, .set 0 1 2 true, .set 0 0 1 true, .resize 0 1 2, .resize 0 2 3, .set 0 0 3 true,
    .clone 0, .set 1 1 0 true, .zero 3 0, .product 0 2, .union 0 3, .accumulate 3 0 2, .clone 4]

theorem regrowth_refines_regions :
    (operations.run [] regrowth).2 = [.done, .done, .done, .done, .done, .failed, .done, .done,
      .done, .done, .failed, .changed false, .absent] ∧
    ∃ m ∈ (operations.run [] regrowth).1, ∃ other ∈ (operations.run [] regrowth).1,
      m.get 0 1 = true ∧ m.get 1 2 = false ∧ m.region.positions.card = 1 ∧ m ≠ other ∧
      ∃ result, m.union? other = some (result, true) ∧ m.count < result.count := by
  obtain ⟨_, reads⟩ := run_refines_regions regrowth
  let m : BoolMatrix := ⟨3, [2#3, 0#3]⟩
  let other : BoolMatrix := ⟨3, [2#3, 1#3]⟩
  have hm : m ∈ (operations.run [] regrowth).1 := by decide
  have hother : other ∈ (operations.run [] regrowth).1 := by decide
  have union : m.union? other = some (other, true) := by decide
  obtain ⟨_, entry, _, count, _, _, _, pairs⟩ := reads m hm
  obtain ⟨same, flag⟩ := pairs other hother
  refine ⟨by decide, m, hm, other, hother, by decide, by decide, ?_, ?_, other, union, ?_⟩
  · rw [← count]
    decide
  · rw [ne_eq, same]
    intro h
    have : (1, 0) ∈ m.region.positions := h.2 ▸ mem_region.mpr (by decide)
    exact absurd ((entry 1 0).mp this) (by decide)
  · exact (flag other true union).2.mp rfl

end BoolMatrix

end ContextFreePaths
