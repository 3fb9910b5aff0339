import Mathlib.Tactic.Tauto
import ContextFreePaths.NameSupply

namespace ContextFreePaths.NameSupply

inductive Scheme
  | hinted (hint : String)
  | numbered

structure Trial where
  name : String
  counter : Nat
  deriving DecidableEq

namespace Scheme

def label : Scheme → Nat → String
  | hinted hint, k => hint ++ "#" ++ toString k
  | numbered, k => "g" ++ toString k

def first (s : NameSupply) : Scheme → Trial
  | hinted hint => ⟨hint, s.counter⟩
  | numbered => ⟨"g" ++ toString s.counter, s.counter + 1⟩

def candidate (s : NameSupply) : Scheme → Nat → String
  | hinted hint => s.hinted hint
  | numbered => s.numbered

variable {s : NameSupply} {scheme : Scheme} {i j : Nat}

theorem candidate_zero : scheme.candidate s 0 = (scheme.first s).name := by
  cases scheme <;> rfl

theorem candidate_succ :
    scheme.candidate s (i + 1) = scheme.label ((scheme.first s).counter + i) := by
  cases scheme with
  | hinted hint => rfl
  | numbered =>
    simp only [candidate, NameSupply.numbered, label, first]
    rw [Nat.add_right_comm, Nat.add_assoc]

theorem candidate_injective (h : scheme.candidate s i = scheme.candidate s j) : i = j := by
  cases scheme with
  | hinted hint => exact hinted_injective h
  | numbered => exact numbered_injective h

end Scheme

/-- Each taken name gives way to the one with the next number. The count is that of the names
tested. -/
inductive Search (taken : List String) (label : Nat → String) : Trial → Nat → Trial → Prop
  | free {t : Trial} (h : t.name ∉ taken) : Search taken label t 1 t
  | taken {t u : Trial} {n : Nat} (h : t.name ∈ taken)
      (rest : Search taken label ⟨label t.counter, t.counter + 1⟩ n u) :
      Search taken label t (n + 1) u

section Search

variable {taken : List String} {label candidate : Nat → String} {t u v : Trial} {n m k i : Nat}

theorem Search.unique (h : Search taken label t n u) (h' : Search taken label t m v) :
    m = n ∧ v = u := by
  induction h generalizing m with
  | free free =>
    cases h' with
    | free => exact ⟨rfl, rfl⟩
    | taken found => exact absurd found free
  | taken found _ ih =>
    cases h' with
    | free free => exact absurd found free
    | taken _ rest =>
      obtain ⟨rfl, rfl⟩ := ih rest
      exact ⟨rfl, rfl⟩

theorem Search.counter_eq (h : Search taken label t n u) : u.counter + 1 = t.counter + n := by
  induction h with
  | free => rfl
  | taken _ _ ih =>
    simp only at ih
    omega

theorem search_of_first (next : ∀ j, candidate (j + 1) = label (k + j))
    (before : ∀ j < i, candidate j ∈ taken) (free : candidate i ∉ taken) :
    Search taken label ⟨candidate 0, k⟩ (i + 1) ⟨candidate i, k + i⟩ := by
  induction i generalizing candidate k with
  | zero => exact .free free
  | succ i ih =>
    have shifted : ∀ j, candidate (j + 1 + 1) = label (k + 1 + j) := by
      intro j
      rw [next, Nat.add_right_comm, Nat.add_assoc]
    have rest := @ih (fun j => candidate (j + 1)) (k + 1) shifted
      (fun j hj => before (j + 1) (Nat.succ_lt_succ hj)) free
    have start : candidate 1 = label k := next 0
    have finish : k + 1 + i = k + (i + 1) := by omega
    simp only [Nat.zero_add, start, finish] at rest
    exact .taken (before 0 (Nat.zero_lt_succ i)) rest

end Search

def generate (s : NameSupply) : Scheme → String × NameSupply
  | .hinted hint => s.fresh hint
  | .numbered => s.next

variable {s : NameSupply} {scheme : Scheme} {name : String} {names : List String}

theorem generate_eq : s.generate scheme =
    (scheme.candidate s (s.firstFree (scheme.candidate s)),
      { taken := scheme.candidate s (s.firstFree (scheme.candidate s)) :: s.taken,
        counter := (scheme.first s).counter + s.firstFree (scheme.candidate s) }) := by
  cases scheme with
  | hinted hint => rfl
  | numbered =>
    simp only [generate, next, Scheme.candidate, Scheme.first]
    rw [Nat.add_right_comm]

theorem adds_generate : s.Adds (s.generate scheme).2 [(s.generate scheme).1] := by
  cases scheme with
  | hinted hint => exact adds_fresh
  | numbered => exact adds_next

theorem exists_search (s : NameSupply) (scheme : Scheme) :
    ∃ n ≤ s.numTaken + 1, Search s.taken scheme.label (scheme.first s) n
      ⟨(s.generate scheme).1, (s.generate scheme).2.counter⟩ := by
  have distinct : ∀ i j, scheme.candidate s i = scheme.candidate s j → i = j :=
    fun _ _ => Scheme.candidate_injective
  obtain ⟨free, bound, before⟩ := firstFree_spec distinct
  refine ⟨_, Nat.succ_le_succ bound, ?_⟩
  rw [generate_eq]
  have search := search_of_first (fun _ => Scheme.candidate_succ) before free
  rwa [Scheme.candidate_zero] at search

inductive Request
  | generate (scheme : Scheme)
  | take (name : String)

def step (s : NameSupply) : Request → NameSupply
  | .generate scheme => (s.generate scheme).2
  | .take name => s.take name

def after (s : NameSupply) (requests : List Request) : NameSupply :=
  requests.foldl step s

def generated (s : NameSupply) : List Request → List String
  | [] => []
  | .generate scheme :: requests =>
    (s.generate scheme).1 :: (s.generate scheme).2.generated requests
  | .take name :: requests => (s.take name).generated requests

variable {request : Request} {requests : List Request}

theorem taken_generate : (s.generate scheme).2.taken = (s.generate scheme).1 :: s.taken :=
  adds_generate.taken

theorem generate_not_mem : (s.generate scheme).1 ∉ s.taken :=
  adds_generate.fresh _ (List.mem_singleton.mpr rfl)

theorem taken_subset_step : s.taken ⊆ (s.step request).taken := by
  cases request with
  | generate scheme => exact adds_generate.taken_subset
  | take name => exact fun other mem => mem_taken_take.mpr (.inr mem)

theorem nodup_step (hs : s.taken.Nodup) : (s.step request).taken.Nodup := by
  cases request with
  | generate scheme =>
    rw [step, taken_generate]
    exact List.nodup_cons.mpr ⟨generate_not_mem, hs⟩
  | take name =>
    rw [step, take]
    split
    · exact hs
    · next new => exact List.nodup_cons.mpr ⟨new, hs⟩

theorem nodup_after (hs : s.taken.Nodup) : (s.after requests).taken.Nodup := by
  induction requests generalizing s with
  | nil => exact hs
  | cons request requests ih => exact ih (nodup_step hs)

theorem mem_taken_after : name ∈ (s.after requests).taken ↔
    name ∈ s.taken ∨ .take name ∈ requests ∨ name ∈ s.generated requests := by
  induction requests generalizing s with
  | nil => simp [after, generated]
  | cons request requests ih =>
    rw [after, List.foldl_cons, ← after, ih]
    cases request with
    | generate scheme =>
      simp only [step, taken_generate, generated, List.mem_cons, reduceCtorEq, false_or]
      tauto
    | take other =>
      simp only [step, mem_taken_take, generated, List.mem_cons, Request.take.injEq]
      tauto

theorem generated_new : (s.generated requests).Nodup ∧
    ∀ name ∈ s.generated requests, name ∉ s.taken := by
  induction requests generalizing s with
  | nil => exact ⟨.nil, fun name mem => absurd mem List.not_mem_nil⟩
  | cons request requests ih =>
    cases request with
    | generate scheme =>
      obtain ⟨distinct, new⟩ := @ih (s.generate scheme).2
      simp only [taken_generate, List.mem_cons, not_or] at new
      constructor
      · exact List.nodup_cons.mpr ⟨fun again => (new _ again).1 rfl, distinct⟩
      · rintro name (_ | ⟨_, mem⟩)
        · exact generate_not_mem
        · exact (new name mem).2
    | take other =>
      obtain ⟨distinct, new⟩ := @ih (s.take other)
      exact ⟨distinct, fun name mem old => new name mem (mem_taken_take.mpr (.inr old))⟩

theorem ofTaken_eq_after : ofTaken names = after {} (names.map .take) := by
  rw [after, List.foldl_map]
  rfl

theorem nodup_ofTaken : (ofTaken names).taken.Nodup := by
  rw [ofTaken_eq_after]
  exact nodup_after .nil

/-- Along a run from any names, a request for a new name is answered by a search that tests at
most one name more than there are taken, and its answer is added to the names taken, among which
it was not. The counter goes up by the numbers that the search uses. Taken are the names at the
start, those marked and those made up, and they stay so. -/
theorem generated_names_new (names : List String) (requests : List Request) :
    let s := (ofTaken names).after requests
    (∀ scheme, ∃ n ≤ s.numTaken + 1,
      (∀ m found, Search s.taken scheme.label (scheme.first s) m found ↔
        m = n ∧ found = ⟨(s.generate scheme).1, (s.generate scheme).2.counter⟩) ∧
      (s.generate scheme).2.counter + 1 = (scheme.first s).counter + n ∧
      (s.generate scheme).1 ∉ s.taken ∧
      (s.generate scheme).2.taken = (s.generate scheme).1 :: s.taken ∧
      (s.generate scheme).2.numTaken = s.numTaken + 1) ∧
    (∀ request, s.taken ⊆ (s.step request).taken) ∧
    s.taken.Nodup ∧
    (∀ name, name ∈ s.taken ↔ name ∈ names ∨ .take name ∈ requests ∨
      name ∈ (ofTaken names).generated requests) ∧
    ((ofTaken names).generated requests).Nodup ∧
    ∀ name ∈ (ofTaken names).generated requests, name ∉ names := by
  intro s
  refine ⟨fun scheme => ?_, fun _ => taken_subset_step, nodup_after nodup_ofTaken,
    fun name => ?_, generated_new.1, fun name mem old => ?_⟩
  · obtain ⟨n, bound, search⟩ := exists_search s scheme
    refine ⟨n, bound, fun m found => ⟨search.unique, ?_⟩, search.counter_eq, generate_not_mem,
      taken_generate, ?_⟩
    · rintro ⟨rfl, rfl⟩
      exact search
    · rw [numTaken, taken_generate, List.length_cons, numTaken]
  · rw [mem_taken_after, mem_taken_ofTaken]
  · exact generated_new.2 name mem (mem_taken_ofTaken.mpr old)

def imitations : List Request :=
  [.generate (.hinted "T_a"), .generate (.hinted "g1"), .take "g2"]

theorem imitated_generated_names_new :
    let s := (ofTaken ["T_a", "g0"]).after imitations
    Search s.taken (Scheme.label .numbered) ⟨"g1", 2⟩ 3 ⟨"g3", 4⟩ ∧ 3 ≤ s.numTaken + 1 ∧
      "g3" ∉ s.taken ∧
      (ofTaken ["T_a", "g0"]).generated imitations = ["T_a#0", "g1"] ∧
      "T_a#0" ∉ ["T_a", "g0"] := by
  intro s
  obtain ⟨searches, _, _, _, _, new⟩ := generated_names_new ["T_a", "g0"] imitations
  obtain ⟨n, bound, only, counter, free, _⟩ := searches .numbered
  have made : (ofTaken ["T_a", "g0"]).generated imitations = ["T_a#0", "g1"] := by decide +kernel
  have start : Scheme.first s .numbered = ⟨"g1", 2⟩ := by
    have one : s.counter = 1 := by decide +kernel
    rw [Scheme.first, one]
    decide +kernel
  have name : (s.generate .numbered).1 = "g3" := by decide +kernel
  have number : (s.generate .numbered).2.counter = 4 := by decide +kernel
  rw [number, start] at counter
  obtain rfl : n = 3 := by
    simp only at counter
    omega
  rw [name] at free
  refine ⟨?_, bound, free, made, new "T_a#0" (made ▸ List.mem_cons_self)⟩
  rw [← start, only, name, number]
  exact ⟨rfl, rfl⟩

end ContextFreePaths.NameSupply
