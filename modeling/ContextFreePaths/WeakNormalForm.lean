import ContextFreePaths.Grammar.Membership
import ContextFreePaths.Grammar.Text

namespace ContextFreePaths

inductive Body where
  | epsilon
  | terminal (label : Label)
  | binary (left right : Name)
  deriving DecidableEq

structure Production where
  head : Name
  body : Body
  deriving DecidableEq

def Body.symbols : Body → List Symbol
  | epsilon => []
  | terminal a => [.terminal a]
  | binary left right => [.nonterminal left, .nonterminal right]

def Body.isTerminal : Body → Bool
  | terminal _ => true
  | _ => false

structure ShapeError where
  rule : Rule
  deriving DecidableEq

def ShapeError.message (e : ShapeError) : String :=
  "rule `" ++ e.rule.text ++ "` is not of the form `A -> ε`, `A -> a` or `A -> B C`"

namespace Production

def ofRule (r : Rule) : Except ShapeError Production :=
  match r.rhs with
  | [] => .ok ⟨r.lhs, .epsilon⟩
  | [.terminal a] => .ok ⟨r.lhs, .terminal a⟩
  | [.nonterminal left, .nonterminal right] => .ok ⟨r.lhs, .binary left right⟩
  | _ => .error ⟨r⟩

def toRule (p : Production) : Rule :=
  ⟨p.head, p.body.symbols⟩

def text (p : Production) : String :=
  p.toRule.text

def names (p : Production) : List Name :=
  p.head :: p.body.symbols.filterMap Symbol.name?

def labels (p : Production) : List Label :=
  p.body.symbols.filterMap Symbol.label?

end Production

/-- A grammar with the productions of its weak normal form. Productions `A -> ε` are the rules of
the grammar as it was written; the others are those of its normal form, unless the grammar is of
the weak form already. -/
structure WeakNormalForm where
  grammar : Grammar
  epsilon : List Production
  unary : List Production
  binary : List Production
  deriving DecidableEq

namespace WeakNormalForm

def arrange (productions : List Production) : List Production :=
  let keyed := productions.map (fun p => (p.text, p))
  ((SortedList.sortBy (fun p q => (compare p.1 q.1).isLE) keyed).map Prod.snd).eraseReps

def basis (g : Grammar) : Grammar :=
  if g.isWeakNormal then g else g.normalForm

def ofGrammar (g : Grammar) : Except ShapeError WeakNormalForm := do
  let epsilon ← (g.rules.filter (fun r => r.rhs.isEmpty)).mapM Production.ofRule
  let others ← ((basis g).rules.filter (fun r => !r.rhs.isEmpty)).mapM Production.ofRule
  return {
    grammar := g
    epsilon := arrange epsilon
    unary := arrange (others.filter (fun p => p.body.isTerminal))
    binary := arrange (others.filter (fun p => !p.body.isTerminal)) }

def start (w : WeakNormalForm) : Name :=
  w.grammar.start

def productions (w : WeakNormalForm) : List Production :=
  w.epsilon ++ w.unary ++ w.binary

def «variables» (w : WeakNormalForm) : List Name :=
  SortedList.ofList (w.productions.flatMap Production.names)

def terminals (w : WeakNormalForm) : List Label :=
  SortedList.ofList (w.productions.flatMap Production.labels)

def text (w : WeakNormalForm) : String :=
  String.join (w.productions.map (fun p => p.text ++ "\n"))

def contains? (w : WeakNormalForm) (word : Word) : Option Bool :=
  w.grammar.contains? word

end WeakNormalForm

end ContextFreePaths
