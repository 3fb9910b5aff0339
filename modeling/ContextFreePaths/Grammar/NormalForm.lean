import ContextFreePaths.Grammar.Closure
import ContextFreePaths.Grammar.Relation

namespace ContextFreePaths.Grammar

def within (g : Grammar) (names : List Name) : Grammar :=
  g.filterRules (fun r => (r.lhs :: r.rhsNames).all (fun name => decide (name ∈ names)))

def headedBy (g : Grammar) (names : List Name) : Grammar :=
  g.filterRules (fun r => decide (r.lhs ∈ names))

def reachableOnly (g : Grammar) : Grammar :=
  g.headedBy g.reachable

def useful (g : Grammar) : Grammar :=
  -- What is reachable is asked only after the unproductive rules are gone, for they may lead to
  -- rules that no derivation of a word can use.
  if g.start ∈ g.productive then (g.within g.productive).reachableOnly else { g with rules := [] }

/-- The chain for a rule of which the right side is given from its end. Each link leaves all but the
last symbol to a new nonterminal. -/
def chain (lhs : Name) : List Symbol → NameSupply → List Rule × NameSupply
  | z :: y :: x :: rest, s =>
    let (link, s) := s.next
    let (rules, s) := chain link (y :: x :: rest) s
    (⟨lhs, [.nonterminal link, z]⟩ :: rules, s)
  | rhs, s => ([⟨lhs, rhs.reverse⟩], s)

def chains : List Rule → NameSupply → List Rule × NameSupply
  | [], s => ([], s)
  | r :: rest, s =>
    let (front, s) := chain r.lhs r.rhs.reverse s
    let (rules, s) := chains rest s
    (front ++ rules, s)

def binary (g : Grammar) (s : NameSupply) : Grammar × NameSupply :=
  let (rules, s) := chains g.rules s
  ({ g with rules }, s)

def omissions (omissible : Symbol → Bool) : List Symbol → List (List Symbol)
  | [] => [[]]
  | s :: rhs =>
    let rest := omissions omissible rhs
    rest.map (s :: ·) ++ if omissible s then rest else []

/-- The rules for a rule whose symbols in `names` may be left out, but not all symbols at once. -/
def withOmissions (names : List Name) (r : Rule) : List Rule :=
  let omissible (s : Symbol) : Bool := s.name?.any (fun name => decide (name ∈ names))
  ((SortedList.ofList (omissions omissible r.rhs)).filter (fun rhs => !rhs.isEmpty)).map
    (fun rhs => { r with rhs })

def epsilonFree (g : Grammar) : Grammar :=
  if g.nullable.isEmpty then g else { g with rules := g.rules.flatMap (withOmissions g.nullable) }

def takenOver {rules : List Rule} (o : OccurrenceIndex rules) (name : Name)
    (targets : List Name) : List Rule :=
  ((targets.flatMap o.headed).filter (fun r => !r.isUnit)).map (fun r => { r with lhs := name })

def unitFree (g : Grammar) : Grammar :=
  if g.rules.any Rule.isUnit then
    let x := NameIndex.ofGrammar g
    let leads := g.unitMatrix x
    let o := OccurrenceIndex.ofRules g.rules
    { g with rules := SortedList.ofList ((List.finRange x.size).flatMap (fun i =>
        takenOver o (x.name i) (x.targets leads size_unitMatrix i))) }
  else g

def sharedLabels (g : Grammar) : List Label :=
  FirstSeen.ofList ((g.rules.filter (fun r => decide (2 ≤ r.rhs.length))).flatMap Rule.rhsLabels)

def standIns : List Label → NameSupply → List (Label × Name) × NameSupply
  | [], s => ([], s)
  | a :: rest, s =>
    let (name, s) := s.fresh ("T_" ++ a)
    let (pairs, s) := standIns rest s
    ((a, name) :: pairs, s)

def standIn (pairs : List (Label × Name)) : Symbol → Symbol
  | .terminal a =>
    match pairs.lookup a with
    | some name => .nonterminal name
    | none => .terminal a
  | .nonterminal name => .nonterminal name

def separateRule (pairs : List (Label × Name)) (r : Rule) : Rule :=
  if 2 ≤ r.rhs.length then { r with rhs := r.rhs.map (standIn pairs) } else r

def separated (g : Grammar) (s : NameSupply) : Grammar × NameSupply :=
  let (pairs, s) := standIns g.sharedLabels s
  -- The rules of the new names come last, in the order of the terminals.
  let byLabel := SortedList.sortBy (fun p q => (compare p.1 q.1).isLE) pairs
  let added := byLabel.map (fun p => ⟨p.2, [.terminal p.1]⟩)
  ({ g with rules := g.rules.map (separateRule pairs) ++ added }, s)

def normalForm (g : Grammar) : Grammar :=
  -- Right sides are short before symbols are left out of them, since a right side has as many
  -- variants as there are ways to leave symbols out.
  let (short, s) := g.useful.binary g.nameSupply
  (short.epsilonFree.unitFree.useful.separated s).1.sortRules.dedupRules

end ContextFreePaths.Grammar
