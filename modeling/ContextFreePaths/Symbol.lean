namespace ContextFreePaths

abbrev Label := String

abbrev Name := String

abbrev Word := List Label

inductive Symbol where
  | terminal (label : Label)
  | nonterminal (name : Name)
  deriving DecidableEq

namespace Symbol

def text : Symbol → String
  | terminal a => a
  | nonterminal A => A

def isNonterminal : Symbol → Bool
  | terminal _ => false
  | nonterminal _ => true

def isTerminal : Symbol → Bool
  | terminal _ => true
  | nonterminal _ => false

def label? : Symbol → Option Label
  | terminal a => some a
  | nonterminal _ => none

def name? : Symbol → Option Name
  | terminal _ => none
  | nonterminal A => some A

instance : Ord Symbol where
  compare := compareLex (compareOn text) (compareOn isNonterminal)

instance : Std.TransOrd Symbol :=
  inferInstanceAs (Std.TransCmp (compareLex (compareOn text) (compareOn isNonterminal)))

instance : Std.LawfulEqOrd Symbol where
  compare_self {s} := by
    change compareLex (compareOn text) (compareOn isNonterminal) s s = .eq
    simp [compareLex, compareOn]
  eq_of_compare {s t} h := by
    change compareLex (compareOn text) (compareOn isNonterminal) s t = .eq at h
    simp only [compareLex, compareOn, Ordering.then_eq_eq, Std.compare_eq_iff_eq] at h
    cases s <;> cases t <;> simp_all [text, isNonterminal]

end Symbol

end ContextFreePaths
