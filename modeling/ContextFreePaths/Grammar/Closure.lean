import ContextFreePaths.Grammar.Occurrences

namespace ContextFreePaths

/-- How many symbols of a right side must have a property for the left side to have it too. -/
inductive Demand where
  | all
  | any
  deriving DecidableEq

def Demand.met (d : Demand) (known : List Symbol) (rhs : List Symbol) : Bool :=
  match d with
  | all => rhs.all (fun s => decide (s ∈ known))
  | any => rhs.any (fun s => decide (s ∈ known))

/-- The symbols known to have a property, and those of them that are still to be taken up, the next
one first. -/
structure Spread where
  known : List Symbol
  pending : List Symbol

namespace Spread

def visit (d : Demand) (t : Spread) (r : Rule) : Spread :=
  if .nonterminal r.lhs ∈ t.known then t
  else if d.met t.known r.rhs then
    { known := SortedList.insert (.nonterminal r.lhs) t.known
      pending := .nonterminal r.lhs :: t.pending }
  else t

variable {rules : List Rule}

def step (o : OccurrenceIndex rules) (d : Demand) (t : Spread) : Spread :=
  match t.pending with
  | [] => t
  | s :: rest => (o.holding s).foldl (visit d) { t with pending := rest }

def run (o : OccurrenceIndex rules) (d : Demand) : Nat → Spread → Spread
  | 0, t => t
  | n + 1, t => run o d n (step o d t)

end Spread

namespace Grammar

def closure (g : Grammar) (d : Demand) (seed : List Symbol) : List Symbol :=
  let known := SortedList.ofList seed
  -- Each symbol of the seed and each left side of a rule is taken up at most once.
  (Spread.run (OccurrenceIndex.ofRules g.rules) d (known.length + g.rules.length)
    { known, pending := known.reverse }).known

def emptyHeads (g : Grammar) : List Symbol :=
  (g.rules.filter (fun r => r.rhs.isEmpty)).map (fun r => .nonterminal r.lhs)

def nullable (g : Grammar) : List Name :=
  (g.closure .all g.emptyHeads).filterMap Symbol.name?

def productive (g : Grammar) : List Name :=
  (g.closure .all (g.terminals.map Symbol.terminal ++ g.emptyHeads)).filterMap Symbol.name?

end Grammar

end ContextFreePaths
