import ContextFreePaths.Grammar.NormalForm

namespace ContextFreePaths

structure Recognizer (size : Nat) where
  start : Fin size
  unary : List (Fin size × Label) := []
  binary : List (Fin size × Fin size × Fin size) := []

namespace Recognizer

variable {size : Nat}

def addRule? (x : NameIndex) (r : Recognizer x.size) (rule : Rule) :
    Option (Recognizer x.size) := do
  let head ← x.position? rule.lhs
  match rule.rhs with
  | [.terminal a] => some { r with unary := r.unary ++ [(head, a)] }
  | [.nonterminal left, .nonterminal right] =>
    some { r with binary := r.binary ++ [(head, ← x.position? left, ← x.position? right)] }
  | _ => none

def ofGrammar? (g : Grammar) : Option (Recognizer (NameIndex.ofGrammar g).size) := do
  let x := NameIndex.ofGrammar g
  g.rules.foldlM (addRule? x) { start := ← x.position? g.start }

def collect (heads : List (Fin size)) : BitVec size :=
  heads.foldl (fun cell (head : Fin size) => cell ||| BitVec.twoPow size head) 0#_

def letter (r : Recognizer size) (a : Label) : BitVec size :=
  collect ((r.unary.filter (fun p => p.2 == a)).map Prod.fst)

def join (r : Recognizer size) (left right : BitVec size) : BitVec size :=
  collect ((r.binary.filter (fun p => left[p.2.1] && right[p.2.2])).map Prod.fst)

/-- The cell for the factor of length `l + 1` that starts at `i`. -/
def cell? (rows : List (List (BitVec size))) (l i : Nat) : Option (BitVec size) :=
  rows[l]?.bind (fun row => row[i]?)

def joinCuts? (r : Recognizer size) (rows : List (List (BitVec size))) (l i : Nat) :
    Option (BitVec size) :=
  (List.range l).foldlM (fun acc k => do
    return acc ||| r.join (← cell? rows k i) (← cell? rows (l - 1 - k) (i + k + 1))) 0#_

def rows? (r : Recognizer size) (w : Word) : Nat → Option (List (List (BitVec size)))
  | 0 => some []
  | 1 => some [w.map r.letter]
  | l + 2 => do
    let shorter ← r.rows? w (l + 1)
    let row ← (List.range (w.length - (l + 1))).mapM (r.joinCuts? shorter (l + 1))
    return shorter ++ [row]

def recognizes? (r : Recognizer size) (w : Word) : Option Bool := do
  let cell ← cell? (← r.rows? w w.length) (w.length - 1) 0
  return cell[r.start]

end Recognizer

def Grammar.contains? (g : Grammar) (w : Word) : Option Bool :=
  if w.isEmpty then some (decide (g.start ∈ g.nullable))
  else do (← Recognizer.ofGrammar? g.normalForm).recognizes? w

end ContextFreePaths
