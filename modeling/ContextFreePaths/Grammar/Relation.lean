import ContextFreePaths.BoolMatrix.Composition
import ContextFreePaths.FirstSeen
import ContextFreePaths.Grammar.Basic

namespace ContextFreePaths

structure NameIndex where
  names : List Name

namespace NameIndex

variable {x : NameIndex} {pairs : List (Name × Name)}

def ofGrammar (g : Grammar) : NameIndex :=
  ⟨FirstSeen.ofList g.mentions⟩

def size (x : NameIndex) : Nat :=
  x.names.length

theorem size_ofGrammar_pos {g : Grammar} : 0 < (ofGrammar g).size :=
  (List.getElem?_eq_some_iff.mp FirstSeen.head_ofList).1

def index? (x : NameIndex) (name : Name) : Option Nat :=
  x.names.idxOf? name

def name? (x : NameIndex) (i : Nat) : Option Name :=
  x.names[i]?

def position? (x : NameIndex) (name : Name) : Option (Fin x.size) :=
  x.names.finIdxOf? name

def name (x : NameIndex) (i : Fin x.size) : Name :=
  x.names.get i

def positions (x : NameIndex) (pairs : List (Name × Name)) : List (Nat × Nat) :=
  pairs.filterMap (fun p => do return (← x.index? p.1, ← x.index? p.2))

def matrix (x : NameIndex) (pairs : List (Name × Name)) : BoolMatrix :=
  BoolMatrix.ofPositions x.size x.size (x.positions pairs)

@[simp] theorem size_matrix : (x.matrix pairs).size = (x.size, x.size) :=
  BoolMatrix.size_ofPositions

def targets (x : NameIndex) (m : BoolMatrix) (hm : m.size = (x.size, x.size)) (i : Fin x.size) :
    List Name :=
  (m.row (i.cast (congrArg Prod.fst hm).symm)).filterMap x.name?

end NameIndex

namespace Grammar

variable {g : Grammar} {x : NameIndex}

def derivationPairs (g : Grammar) : List (Name × Name) :=
  g.rules.flatMap (fun r => r.rhsNames.map (fun name => (r.lhs, name)))

def unitPairs (g : Grammar) : List (Name × Name) :=
  (g.filterRules Rule.isUnit).derivationPairs

def derivationMatrix (g : Grammar) (x : NameIndex) : BoolMatrix :=
  x.matrix g.derivationPairs

def reachabilityMatrix (g : Grammar) (x : NameIndex) : BoolMatrix :=
  (g.derivationMatrix x).reflexiveTransitiveClosure

theorem size_reachabilityMatrix : (g.reachabilityMatrix x).size = (x.size, x.size) :=
  BoolMatrix.size_reflexiveTransitiveClosure NameIndex.size_matrix

def unitMatrix (g : Grammar) (x : NameIndex) : BoolMatrix :=
  (x.matrix g.unitPairs).reflexiveTransitiveClosure

theorem size_unitMatrix : (g.unitMatrix x).size = (x.size, x.size) :=
  BoolMatrix.size_reflexiveTransitiveClosure NameIndex.size_matrix

def reachable (g : Grammar) : List Name :=
  let x := NameIndex.ofGrammar g
  SortedList.ofList (x.targets (g.reachabilityMatrix x) size_reachabilityMatrix
    ⟨0, NameIndex.size_ofGrammar_pos⟩)

end Grammar

end ContextFreePaths
