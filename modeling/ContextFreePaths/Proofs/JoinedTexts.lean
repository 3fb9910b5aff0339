import ContextFreePaths.Proofs.Cutting
import ContextFreePaths.Grammar.Text

namespace ContextFreePaths

open Text

namespace Text

/-- The lines of a text against the pieces between its line feeds. A piece may end with the carriage
return that belongs to the line feed after it, and an empty piece at the end is no line. -/
inductive LinesOf : List (List Char) → List (List Char) → Prop
  | none : LinesOf [] [[]]
  | last (p : List Char) : LinesOf [p] [p]
  | feed (p : List Char) {ls ps : List (List Char)} (rest : LinesOf ls ps) :
      LinesOf (p :: ls) (p :: ps)
  | returnFeed (p : List Char) {ls ps : List (List Char)} (rest : LinesOf ls ps) :
      LinesOf (p :: ls) ((p ++ ['\r']) :: ps)

theorem linesOf_consFirst {c : Char} {ls ps : List (List Char)} (h : LinesOf ls ps) :
    LinesOf (consFirst c ls) (consFirst c ps) := by
  cases h with
  | none => exact .last [c]
  | last p => exact .last (c :: p)
  | feed p rest => exact .feed (c :: p) rest
  | returnFeed p rest => exact .returnFeed (c :: p) rest

theorem linesOf_pieces {s : List Char} : LinesOf (lines s) (pieces (· == '\n') s) := by
  fun_induction lines s with
  | case1 => exact .none
  | case2 s ih =>
    -- Only here do line and piece differ: the piece begins, and ends, with the carriage return.
    exact .returnFeed [] ih
  | case3 s ih => exact .feed [] ih
  | case4 c s _ plain ih =>
    rw [pieces, if_neg (by simpa using plain)]
    exact linesOf_consFirst ih

end Text

namespace Grammar

variable {line : List Char} {c : Char} {front back ls ps : List (List Char)} {n : Nat}

theorem readBody_concat (hc : isBlank c = true) : readBody (line ++ [c]) = readBody line := by
  rw [readBody, words_append hc, show words [] = [] from rfl, List.append_nil]
  rfl

theorem rules_concat {head : Name} (hc : isBlank c = true) :
    (pieces (· == '|') (line ++ [c])).map (fun body => (⟨head, readBody body⟩ : Rule)) =
      (pieces (· == '|') line).map (fun body => ⟨head, readBody body⟩) := by
  have bar : (c == '|') = false := beq_eq_false_iff_ne.mpr (ne_of_isBlank hc (by decide))
  obtain ⟨front, last, before, after⟩ := exists_pieces_concat (s := line) (· == '|') bar
  simp only [before, after, List.map_append, List.map_cons, List.map_nil, readBody_concat hc]

theorem readLine_concat (hc : isBlank c = true) : readLine (line ++ [c]) = readLine line := by
  unfold readLine
  rw [trim_concat hc, splitArrow?_concat (ne_of_isBlank hc (by decide))]
  cases splitArrow? line with
  | none => rfl
  | some cut => simp only [Option.map_some, rules_concat hc]

theorem readLines_linesOf (h : LinesOf ls ps) : readLines n ls = readLines n ps := by
  induction h generalizing n with
  | none => rfl
  | last p => rfl
  | feed p _ ih => rw [readLines, readLines, ih]
  | returnFeed p _ ih => rw [readLines, readLines, ih, readLine_concat (by decide)]

theorem ofText_eq {start : Name} {text : String} : ofText start text =
    (readLines 1 (pieces (· == '\n') text.toList)).map (fun rules => { start, rules }) := by
  rw [ofText, readLines_linesOf linesOf_pieces]

theorem ofText_line {start : Name} {line : String} (single : '\n' ∉ line.toList) :
    ofText start line =
      match readLine line.toList with
      | .error fault => .error ⟨1, fault⟩
      | .ok rules => .ok { start, rules } := by
  have whole : pieces (· == '\n') line.toList = [line.toList] := by
    apply pieces_of_forall
    intro c hc
    rw [beq_eq_false_iff_ne]
    rintro rfl
    exact single hc
  rw [ofText_eq, whole, readLines]
  cases readLine line.toList with
  | error fault => rfl
  | ok rules => simp [readLines, Except.map]

theorem readLines_append : readLines n (front ++ back) =
    match readLines n front with
    | .error e => .error e
    | .ok rules => (readLines (n + front.length) back).map (rules ++ ·) := by
  induction front generalizing n with
  | nil =>
    rw [List.nil_append, List.length_nil, Nat.add_zero]
    cases readLines n back <;> rfl
  | cons line front ih =>
    rw [List.cons_append, readLines, readLines, ih, List.length_cons, Nat.add_comm front.length,
      ← Nat.add_assoc]
    cases readLine line with
    | error fault => rfl
    | ok rules =>
      cases readLines (n + 1) front with
      | error e => rfl
      | ok more =>
        cases readLines (n + 1 + front.length) back with
        | error e => rfl
        | ok rest => simp [Except.map]

theorem readLines_add {k : Nat} :
    readLines (n + k) ls = (readLines n ls).mapError (fun e => { e with line := e.line + k }) := by
  induction ls generalizing n with
  | nil => rfl
  | cons line ls ih =>
    rw [readLines, readLines, Nat.add_right_comm, ih]
    cases readLine line with
    | error fault => rfl
    | ok rules => cases readLines (n + 1) ls <;> rfl

theorem readLine_error_iff : (∃ fault, readLine line = .error fault) ↔
    ¬(∀ c ∈ line, isBlank c = true) ∧
      (¬['-', '>'] <:+: line ∨ ∃ before bodies, line = before ++ '-' :: '>' :: bodies ∧
        ¬['-', '>'] <:+: before ∧ (trim before = [] ∨ ∃ c ∈ trim before, isBlank c = true)) := by
  simp only [← and_assoc, ← splitArrow?_eq_some]
  rw [← trim_eq_nil, ← splitArrow?_eq_none]
  by_cases blank : trim line = []
  · simp [readLine, blank]
  · cases cut : splitArrow? line with
    | none => simp [readLine, blank, cut]
    | some parts =>
      obtain ⟨before, bodies⟩ := parts
      by_cases bad : trim before = [] ∨ ∃ c ∈ trim before, isBlank c = true
      · simp [readLine, blank, cut, bad]
      · simp [readLine, blank, cut, bad]

/-- A text is read line by line. After a line feed reading goes on as at the start of a text, with
the lines before it counted, and what was read before stays. A single line that is not blank is
refused if it has no arrow or not exactly one word before its first arrow. -/
theorem reads_line_by_line (start : Name) (front back : String) :
    ofText start (front ++ "\n" ++ back) =
      (match ofText start front, ofText start back with
        | .error e, _ => .error e
        | .ok _, .error e => .error { e with line := e.line + (front.toList.count '\n' + 1) }
        | .ok g, .ok h => .ok { start, rules := g.rules ++ h.rules }) ∧
    ∀ line : String, '\n' ∉ line.toList →
      ((∃ e, ofText start line = .error e) ↔
        ¬(∀ c ∈ line.toList, isBlank c = true) ∧
          (¬['-', '>'] <:+: line.toList ∨ ∃ before bodies,
            line.toList = before ++ '-' :: '>' :: bodies ∧ ¬['-', '>'] <:+: before ∧
              (trim before = [] ∨ ∃ c ∈ trim before, isBlank c = true))) := by
  constructor
  · have joined : (front ++ "\n" ++ back).toList = front.toList ++ '\n' :: back.toList := by
      simp [String.toList_append]
    rw [ofText_eq, ofText_eq, ofText_eq, joined, pieces_append rfl, readLines_append, length_pieces,
      readLines_add]
    cases readLines 1 (pieces (· == '\n') front.toList) with
    | error e => rfl
    | ok rules => cases readLines 1 (pieces (· == '\n') back.toList) <;> rfl
  · intro line single
    rw [← readLine_error_iff, ofText_line single]
    cases readLine line.toList <;> simp

theorem returned_reads_line_by_line :
    ofText "S" ("S -> a |\r" ++ "\n" ++ "\nA B -> c") = .error ⟨3, .badHead "A B"⟩ ∧
      '\n' ∉ "A B -> c".toList ∧ ∃ e, ofText "S" "A B -> c" = .error e := by
  obtain ⟨joined, single⟩ := reads_line_by_line "S" "S -> a |\r" "\nA B -> c"
  have front : ofText "S" "S -> a |\r" =
      .ok { start := "S", rules := [⟨"S", [.terminal "a"]⟩, ⟨"S", []⟩] } := by decide +kernel
  have back : ofText "S" "\nA B -> c" = .error ⟨2, .badHead "A B"⟩ := by decide +kernel
  have noFeed : '\n' ∉ "A B -> c".toList := by decide
  refine ⟨?_, noFeed, (single "A B -> c" noFeed).mpr ⟨fun blank => ?_, .inr ?_⟩⟩
  · rw [joined, front, back]
    decide
  · exact absurd (blank 'A' (by decide)) (by decide)
  · exact ⟨['A', ' ', 'B', ' '], [' ', 'c'], by decide, by decide, .inr ⟨' ', by decide, by decide⟩⟩

end Grammar

end ContextFreePaths
