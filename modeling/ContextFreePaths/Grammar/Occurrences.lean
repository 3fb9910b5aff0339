import ContextFreePaths.Grammar.Basic

namespace ContextFreePaths

structure Occurrences (rules : List Rule) where
  lhs : List (Fin rules.length) := []
  rhs : List (Fin rules.length) := []

structure OccurrenceIndex (rules : List Rule) where
  entries : List (Symbol × Occurrences rules) := []
  ascending : SortedList.Ascending (entries.map Prod.fst) := by exact List.Pairwise.nil

namespace OccurrenceIndex

variable {rules : List Rule} {x : OccurrenceIndex rules} {s t : Symbol} {i : Fin rules.length}

def get (x : OccurrenceIndex rules) (s : Symbol) : Occurrences rules :=
  (x.entries.lookup s).getD {}

def update (x : OccurrenceIndex rules) (s : Symbol)
    (f : Occurrences rules → Occurrences rules) : OccurrenceIndex rules where
  entries := SortedList.alter s (fun o => f (o.getD {})) x.entries
  ascending := by
    rw [SortedList.keys_alter]
    exact SortedList.ascending_insert x.ascending

theorem get_update {f : Occurrences rules → Occurrences rules} :
    (x.update s f).get t = if t = s then f (x.get s) else x.get t := by
  simp only [get, update, SortedList.lookup_alter x.ascending, beq_iff_eq]
  split <;> rfl

def noteLhs (x : OccurrenceIndex rules) (i : Fin rules.length) (s : Symbol) :
    OccurrenceIndex rules :=
  x.update s (fun o => { o with lhs := o.lhs ++ [i] })

def noteRhs (x : OccurrenceIndex rules) (i : Fin rules.length) (s : Symbol) :
    OccurrenceIndex rules :=
  x.update s (fun o => { o with rhs := o.rhs ++ [i] })

def addRule (x : OccurrenceIndex rules) (i : Fin rules.length) (r : Rule) :
    OccurrenceIndex rules :=
  -- A symbol that stands on the right side several times is noted once.
  (SortedList.ofList r.rhs).foldl (fun x s => x.noteRhs i s) (x.noteLhs i (.nonterminal r.lhs))

def ofRules (rules : List Rule) : OccurrenceIndex rules :=
  (List.finRange rules.length).foldl (fun x i => x.addRule i rules[i]) {}

def numbered (numbers : List (Fin rules.length)) : List Rule :=
  numbers.map (fun i => rules[i])

def headed (x : OccurrenceIndex rules) (name : Name) : List Rule :=
  numbered (x.get (.nonterminal name)).lhs

def holding (x : OccurrenceIndex rules) (s : Symbol) : List Rule :=
  numbered (x.get s).rhs

theorem get_noteLhs : (x.noteLhs i s).get t =
    { x.get t with lhs := (x.get t).lhs ++ if t = s then [i] else [] } := by
  rw [noteLhs, get_update]
  split
  · next h => rw [h]
  · rw [List.append_nil]

theorem get_noteRhs : (x.noteRhs i s).get t =
    { x.get t with rhs := (x.get t).rhs ++ if t = s then [i] else [] } := by
  rw [noteRhs, get_update]
  split
  · next h => rw [h]
  · rw [List.append_nil]

theorem get_foldl_noteRhs {l : List Symbol} (hl : l.Nodup) :
    (l.foldl (fun x s => x.noteRhs i s) x).get t =
      { x.get t with rhs := (x.get t).rhs ++ if t ∈ l then [i] else [] } := by
  induction l generalizing x with
  | nil => simp
  | cons s l ih =>
    obtain ⟨new, hl⟩ := List.nodup_cons.mp hl
    rw [List.foldl_cons, ih hl, get_noteRhs]
    by_cases h : t = s
    · simp [h, new]
    · simp [h]

theorem get_addRule {r : Rule} : (x.addRule i r).get t =
    { lhs := (x.get t).lhs ++ if t = .nonterminal r.lhs then [i] else []
      rhs := (x.get t).rhs ++ if t ∈ r.rhs then [i] else [] } := by
  rw [addRule, get_foldl_noteRhs (SortedList.ascending_ofList _).nodup, get_noteLhs]
  simp only [SortedList.mem_ofList]

theorem get_ofRules : (ofRules rules).get t =
    { lhs := (List.finRange rules.length).filter (fun i => t = .nonterminal rules[i].lhs)
      rhs := (List.finRange rules.length).filter (fun i => t ∈ rules[i].rhs) } := by
  have fold : ∀ (l : List (Fin rules.length)) (x : OccurrenceIndex rules),
      (l.foldl (fun x i => x.addRule i rules[i]) x).get t =
        { lhs := (x.get t).lhs ++ l.filter (fun i => t = .nonterminal rules[i].lhs)
          rhs := (x.get t).rhs ++ l.filter (fun i => t ∈ rules[i].rhs) } := by
    intro l
    induction l with
    | nil => simp
    | cons i l ih =>
      intro x
      rw [List.foldl_cons, ih, get_addRule]
      simp only [List.filter_cons, decide_eq_true_eq, List.append_assoc]
      congr 2 <;> split <;> rfl
  rw [ofRules, fold]
  simp [get]

theorem numbered_filter (p : Rule → Bool) :
    numbered ((List.finRange rules.length).filter (fun i => p rules[i])) = rules.filter p := by
  have all : numbered (List.finRange rules.length) = rules := by
    rw [numbered, List.finRange, List.map_ofFn]
    exact List.ofFn_getElem
  calc numbered ((List.finRange rules.length).filter (fun i => p rules[i]))
    _ = (numbered (List.finRange rules.length)).filter p := List.filter_map.symm
    _ = rules.filter p := by rw [all]

theorem headed_ofRules {name : Name} :
    (ofRules rules).headed name = rules.filter (fun r => r.lhs = name) := by
  simp only [headed, get_ofRules, Symbol.nonterminal.injEq, eq_comm (a := name)]
  exact numbered_filter (fun r => r.lhs = name)

theorem holding_ofRules : (ofRules rules).holding s = rules.filter (fun r => s ∈ r.rhs) := by
  rw [holding, get_ofRules]
  exact numbered_filter (fun r => s ∈ r.rhs)

end OccurrenceIndex

end ContextFreePaths
