import ContextFreePaths.SortedList
import ContextFreePaths.NameSupply
import ContextFreePaths.Symbol

namespace ContextFreePaths

structure Rule where
  lhs : Name
  rhs : List Symbol
  deriving DecidableEq

namespace Rule

instance : Ord Rule where
  compare := compareLex (compareOn lhs) (compareOn rhs)

instance : Std.TransOrd Rule :=
  inferInstanceAs (Std.TransCmp (compareLex (compareOn lhs) (compareOn rhs)))

instance : Std.LawfulEqOrd Rule where
  compare_self {r} := by
    change compareLex (compareOn lhs) (compareOn rhs) r r = .eq
    simp [compareLex, compareOn]
  eq_of_compare {r s} h := by
    change compareLex (compareOn lhs) (compareOn rhs) r s = .eq at h
    simp only [compareLex, compareOn, Ordering.then_eq_eq, Std.compare_eq_iff_eq] at h
    cases r
    cases s
    simp_all

def rhsNames (r : Rule) : List Name :=
  r.rhs.filterMap Symbol.name?

def rhsLabels (r : Rule) : List Label :=
  r.rhs.filterMap Symbol.label?

def isWeakNormal (r : Rule) : Bool :=
  match r.rhs with
  | [] => true
  | [s] => s.isTerminal
  | [s, t] => s.isNonterminal && t.isNonterminal
  | _ => false

def isUnit (r : Rule) : Bool :=
  match r.rhs with
  | [s] => s.isNonterminal
  | _ => false

end Rule

structure Grammar where
  start : Name
  rules : List Rule := []
  deriving DecidableEq

namespace Grammar

def addRules (g : Grammar) (rules : List Rule) : Grammar :=
  { g with rules := g.rules ++ rules }

def addRule (g : Grammar) (r : Rule) : Grammar :=
  g.addRules [r]

def filterRules (g : Grammar) (p : Rule → Bool) : Grammar :=
  { g with rules := g.rules.filter p }

def sortRules (g : Grammar) : Grammar :=
  { g with rules := SortedList.sort g.rules }

def dedupRules (g : Grammar) : Grammar :=
  { g with rules := g.rules.eraseReps }

def mentions (g : Grammar) : List Name :=
  g.start :: g.rules.flatMap (fun r => r.lhs :: r.rhsNames)

def nonterminals (g : Grammar) : List Name :=
  SortedList.ofList g.mentions

def terminals (g : Grammar) : List Label :=
  SortedList.ofList (g.rules.flatMap Rule.rhsLabels)

def nameSupply (g : Grammar) : NameSupply :=
  NameSupply.ofTaken g.nonterminals

def isWeakNormal (g : Grammar) : Bool :=
  g.rules.all Rule.isWeakNormal

end Grammar

/-- A grammar that is written rule by rule: bodies are added under the head named last. -/
structure Grammar.Draft where
  grammar : Grammar
  head? : Option Name := none

namespace Grammar.Draft

def head (d : Draft) (name : Name) : Draft :=
  { d with head? := some name }

def body? (d : Draft) (rhs : List Symbol) : Option Draft :=
  d.head?.map (fun name => { d with grammar := d.grammar.addRule ⟨name, rhs⟩ })

end Grammar.Draft

end ContextFreePaths
