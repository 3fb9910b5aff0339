import ContextFreePaths.BoolMatrix.Composition
import ContextFreePaths.Graph.LabelMatrices
import ContextFreePaths.WeakNormalForm

/-!
Tables of one square matrix for each nonterminal. They are filled by seeds for the productions `A
-> ε` and `A -> a`, and by passes over the productions `A -> B C` until a pass changes no number
of set entries.
-/

namespace ContextFreePaths

structure ReachTable where
  dimension : Nat
  entries : List (Name × BoolMatrix)
  passes : Nat := 0
  /-- The numbers of set entries in the order of the table, before the first pass and after each. -/
  counts : List (List Nat) := []
  deriving DecidableEq

namespace ReachTable

def ofNames (names : List Name) (n : Nat) : ReachTable where
  dimension := n
  entries := (FirstSeen.ofList names).map (fun name => (name, .square n))

def names (t : ReachTable) : List Name :=
  t.entries.map Prod.fst

def size (t : ReachTable) : Nat :=
  t.entries.length

def matrix? (t : ReachTable) (name : Name) : Option BoolMatrix :=
  t.entries.lookup name

def setMatrix (t : ReachTable) (name : Name) (m : BoolMatrix) : ReachTable :=
  { t with entries := t.entries.map (fun p => if p.1 = name then (p.1, m) else p) }

def unionAt? (t : ReachTable) (name : Name) (m : BoolMatrix) : Option ReachTable := do
  let (u, _) ← (← t.matrix? name).union? m
  return t.setMatrix name u

def accumulate? (t : ReachTable) (head left right : Name) : Option ReachTable := do
  t.unionAt? head (← (← t.matrix? left).product? (← t.matrix? right))

def recordCounts (t : ReachTable) : ReachTable :=
  { t with counts := t.counts ++ [t.entries.map (fun p => p.2.count)] }

def history? (t : ReachTable) (name : Name) : Option (List Nat) :=
  match t.names.idxOf? name with
  | none => some []
  | some i => t.counts.mapM (fun row => row[i]?)

def seedEpsilon (t : ReachTable) (productions : List Production) : ReachTable :=
  productions.foldl (fun t p => t.setMatrix p.head (.identity t.dimension)) t

def seedLetter? (d : LabelMatrices) (t : ReachTable) (p : Production) : Option ReachTable :=
  match p.body with
  | .terminal a =>
    match t.matrix? p.head, d.matrix? a with
    | some _, some m => t.unionAt? p.head m
    | _, _ => some t
  | _ => some t

end ReachTable

structure Sweep where
  table : ReachTable
  seen : List (Name × Nat) := []
  changed : Bool := false
  deriving DecidableEq

namespace Sweep

def step? (s : Sweep) (rule : Name × Name × Name) : Option Sweep := do
  let (head, left, right) := rule
  let table ← s.table.accumulate? head left right
  let count := (← table.matrix? head).count
  return {
    table
    seen := SortedList.alter head (fun _ => count) s.seen
    changed := s.changed || (s.seen.lookup head).getD 0 != count }

def pass? (rules : List (Name × Name × Name)) (s : Sweep) : Option Sweep := do
  let s ← rules.foldlM step? { s with changed := false }
  return { s with table := { s.table.recordCounts with passes := s.table.passes + 1 } }

/-- Passes up to the first one that changes nothing, and nothing if so many do not get there. -/
def passes? (rules : List (Name × Name × Name)) : Nat → Sweep → Option Sweep
  | 0, _ => none
  | n + 1, s => do
    let s ← pass? rules s
    if s.changed then passes? rules n s else return s

end Sweep

namespace ReachTable

def binaryRules (t : ReachTable) (productions : List Production) : List (Name × Name × Name) :=
  productions.filterMap (fun p =>
    match p.body with
    | .binary left right =>
      if p.head ∈ t.names ∧ left ∈ t.names ∧ right ∈ t.names then some (p.head, left, right)
      else none
    | _ => none)

def saturate? (t : ReachTable) (productions : List Production) : Option ReachTable := do
  -- From the second pass on a change sets an entry.
  let bound := t.size * t.dimension * t.dimension + 2
  return (← Sweep.passes? (t.binaryRules productions) bound { table := t.recordCounts }).table

end ReachTable

structure Query (V : Type) where
  form : WeakNormalForm
  matrices : LabelMatrices
  vertices : List V

namespace Query

variable {V : Type}

def ofGraph [DecidableEq V] (g : Grammar) (graph : LabelledGraph V) :
    Except ShapeError (Query V) := do
  let form ← WeakNormalForm.ofGrammar g
  let (matrices, vertices) := LabelMatrices.decompose graph
  return { form, matrices, vertices }

def seeds? (q : Query V) : Option ReachTable :=
  q.form.unary.foldlM (ReachTable.seedLetter? q.matrices)
    ((ReachTable.ofNames q.form.variables q.matrices.dimension).seedEpsilon q.form.epsilon)

def closure? (q : Query V) : Option ReachTable := do
  (← q.seeds?).saturate? q.form.binary

def vertexPair? (q : Query V) (p : Nat × Nat) : Option (V × V) := do
  return (← q.vertices[p.1]?, ← q.vertices[p.2]?)

def pairs? [DecidableEq V] (q : Query V) : Option (List (V × V)) := do
  match (← q.closure?).matrix? q.form.start with
  | none => return []
  | some m => return (m.ones.filterMap q.vertexPair?).eraseDups

end Query

end ContextFreePaths
