import ContextFreePaths.Grammar.Basic
import ContextFreePaths.Text

/-!
Grammars as text, one rule to a line. A token that starts with an uppercase character is a
nonterminal and any other a terminal; a mark in front forces either kind.
-/

namespace ContextFreePaths.Token

open Text

def nonterminalMark : List Char :=
  ['V', 'A', 'R', ':']

def terminalMark : List Char :=
  ['T', 'E', 'R', ':']

def emptyTokens : List (List Char) :=
  [['$'], ['ε'], ['e', 'p', 's', 'i', 'l', 'o', 'n']]

def hasArrow : List Char → Bool
  | [] => false
  | '-' :: '>' :: _ => true
  | _ :: s => hasArrow s

def isPlain (s : List Char) : Bool :=
  !nonterminalMark.isPrefixOf s && !terminalMark.isPrefixOf s &&
    !s.any (fun c => isBlank c || c == '|') && !hasArrow s

def startsUppercase : List Char → Bool
  | [] => false
  | c :: _ => isUppercase c

def readsAsNonterminal (s : List Char) : Bool :=
  startsUppercase s && isPlain s

def readsAsTerminal (s : List Char) : Bool :=
  !s.isEmpty && !startsUppercase s && !emptyTokens.contains s && isPlain s

def read (s : List Char) : Symbol :=
  match nonterminalMark.isPrefixOf? s, terminalMark.isPrefixOf? s with
  | some name, _ => .nonterminal (String.ofList name)
  | none, some label => .terminal (String.ofList label)
  | none, none =>
    if readsAsNonterminal s then .nonterminal (String.ofList s) else .terminal (String.ofList s)

def writeName (name : Name) : List Char :=
  if readsAsNonterminal name.toList then name.toList else nonterminalMark ++ name.toList

def writeLabel (label : Label) : List Char :=
  if readsAsTerminal label.toList then label.toList else terminalMark ++ label.toList

def write : Symbol → List Char
  | .terminal label => writeLabel label
  | .nonterminal name => writeName name

end ContextFreePaths.Token

namespace ContextFreePaths

def Rule.writeBody : List Symbol → List Char
  | [] => [' ', '$']
  | rhs => rhs.flatMap (fun s => ' ' :: Token.write s)

def Rule.write (r : Rule) : List Char :=
  Token.writeName r.lhs ++ [' ', '-', '>'] ++ writeBody r.rhs

def Rule.text (r : Rule) : String :=
  String.ofList r.write

def Grammar.write (g : Grammar) : List Char :=
  g.rules.flatMap (fun r => r.write ++ ['\n'])

def Grammar.text (g : Grammar) : String :=
  String.ofList g.write

inductive LineFault where
  | noArrow (line : String)
  | badHead (head : String)
  deriving DecidableEq

def LineFault.reason : LineFault → String
  | noArrow line => "expected `->` in `" ++ line ++ "`"
  | badHead head => "expected a single nonterminal before `->`, found `" ++ head ++ "`"

structure LoadError where
  line : Nat
  fault : LineFault
  deriving DecidableEq

def LoadError.message (e : LoadError) : String :=
  "parse error at line " ++ toString e.line ++ ": " ++ e.fault.reason

namespace Grammar

open Text

def readHead (head : List Char) : Name :=
  String.ofList ((Token.nonterminalMark.isPrefixOf? head).getD head)

def readBody (body : List Char) : List Symbol :=
  ((words body).filter (fun token => !Token.emptyTokens.contains token)).map Token.read

def readLine (line : List Char) : Except LineFault (List Rule) :=
  if (trim line).isEmpty then .ok []
  else
    match splitArrow? line with
    | none => .error (.noArrow (String.ofList (trim line)))
    | some (before, bodies) =>
      let head := trim before
      if head.isEmpty || head.any isBlank then .error (.badHead (String.ofList head))
      else .ok ((pieces (· == '|') bodies).map (fun body => ⟨readHead head, readBody body⟩))

def readLines : Nat → List (List Char) → Except LoadError (List Rule)
  | _, [] => .ok []
  | n, line :: rest =>
    match readLine line with
    | .error fault => .error ⟨n, fault⟩
    | .ok rules => (readLines (n + 1) rest).map (rules ++ ·)

def ofText (start : Name) (text : String) : Except LoadError Grammar :=
  (readLines 1 (lines text.toList)).map (fun rules => { start, rules })

end Grammar

end ContextFreePaths
