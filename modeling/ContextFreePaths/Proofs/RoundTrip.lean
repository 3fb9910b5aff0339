import ContextFreePaths.Grammar.Text
import ContextFreePaths.Proofs.Cutting

namespace ContextFreePaths

open Text

def FitsHead (name : Name) : Prop :=
  (∀ c ∈ name.toList, isBlank c = false) ∧ ¬['-', '>'] <:+: name.toList

def FitsBody (text : String) : Prop :=
  ∀ c ∈ text.toList, isBlank c = false ∧ c ≠ '|'

def Rule.Legible (r : Rule) : Prop :=
  FitsHead r.lhs ∧ ∀ s ∈ r.rhs, FitsBody s.text

def Grammar.Legible (g : Grammar) : Prop :=
  ∀ r ∈ g.rules, r.Legible

namespace Token

variable {s : List Char} {c : Char} {name : Name} {x : Symbol}

theorem read_nonterminalMark : read (nonterminalMark ++ s) = .nonterminal (String.ofList s) := by
  have mark : nonterminalMark.isPrefixOf? (nonterminalMark ++ s) = some s :=
    List.isPrefixOf?_eq_some_iff_append_eq.mpr rfl
  simp only [read, mark]

theorem read_terminalMark : read (terminalMark ++ s) = .terminal (String.ofList s) := by
  have other : nonterminalMark.isPrefixOf? (terminalMark ++ s) = none := rfl
  have mark : terminalMark.isPrefixOf? (terminalMark ++ s) = some s :=
    List.isPrefixOf?_eq_some_iff_append_eq.mpr rfl
  simp only [read, other, mark]

theorem unmarked_of_isPlain (h : isPlain s = true) :
    nonterminalMark.isPrefixOf? s = none ∧ terminalMark.isPrefixOf? s = none := by
  simp only [isPlain, Bool.and_eq_true, Bool.not_eq_true'] at h
  rw [← Option.not_isSome_iff_eq_none, ← Option.not_isSome_iff_eq_none,
    List.isSome_isPrefixOf?_eq_isPrefixOf, List.isSome_isPrefixOf?_eq_isPrefixOf,
    Bool.not_eq_true, Bool.not_eq_true]
  exact h.1.1

theorem read_of_isPlain (h : isPlain s = true) : read s =
    if readsAsNonterminal s then .nonterminal (String.ofList s)
    else .terminal (String.ofList s) := by
  obtain ⟨nonterminal, terminal⟩ := unmarked_of_isPlain h
  simp only [read, nonterminal, terminal]

theorem read_write (x : Symbol) : read (write x) = x := by
  cases x with
  | nonterminal A =>
    simp only [write, writeName]
    split
    · next h =>
      rw [read_of_isPlain (Bool.and_eq_true_iff.mp h).2, if_pos h, String.ofList_toList]
    · rw [read_nonterminalMark, String.ofList_toList]
  | terminal a =>
    simp only [write, writeLabel]
    split
    · next h =>
      simp only [readsAsTerminal, Bool.and_eq_true, Bool.not_eq_true'] at h
      rw [read_of_isPlain h.2, if_neg, String.ofList_toList]
      simp [readsAsNonterminal, h.1.1.2]
    · rw [read_terminalMark, String.ofList_toList]

theorem readHead_writeName (name : Name) : Grammar.readHead (writeName name) = name := by
  unfold writeName Grammar.readHead
  split
  · next h =>
    rw [(unmarked_of_isPlain (Bool.and_eq_true_iff.mp h).2).1]
    exact String.ofList_toList
  · rw [List.isPrefixOf?_eq_some_iff_append_eq.mpr rfl]
    exact String.ofList_toList

theorem mem_writeName (hc : c ∈ writeName name) : c ∈ name.toList ∨ c ∈ nonterminalMark := by
  unfold writeName at hc
  split at hc
  · exact .inl hc
  · exact (List.mem_append.mp hc).symm

theorem mem_write (hc : c ∈ write x) :
    c ∈ x.text.toList ∨ c ∈ nonterminalMark ∨ c ∈ terminalMark := by
  cases x with
  | nonterminal A => exact (mem_writeName hc).imp_right .inl
  | terminal a =>
    simp only [write, writeLabel] at hc
    split at hc
    · exact .inl hc
    · exact (List.mem_append.mp hc).symm.imp_right .inr

theorem fits_nonterminalMark : ∀ c ∈ nonterminalMark, isBlank c = false ∧ c ≠ '|' := by
  have all : nonterminalMark.all (fun c => !isBlank c && c != '|') = true := by decide
  simpa using all

theorem fits_terminalMark : ∀ c ∈ terminalMark, isBlank c = false ∧ c ≠ '|' := by
  have all : terminalMark.all (fun c => !isBlank c && c != '|') = true := by decide
  simpa using all

theorem not_blank_writeName (h : ∀ c ∈ name.toList, isBlank c = false) (hc : c ∈ writeName name) :
    isBlank c = false := by
  rcases mem_writeName hc with hc | hc
  · exact h c hc
  · exact (fits_nonterminalMark c hc).1

theorem fits_write (h : FitsBody x.text) (hc : c ∈ write x) : isBlank c = false ∧ c ≠ '|' := by
  rcases mem_write hc with hc | hc | hc
  · exact h c hc
  · exact fits_nonterminalMark c hc
  · exact fits_terminalMark c hc

theorem hasArrow_writeName : hasArrow (writeName name) = hasArrow name.toList := by
  unfold writeName
  split
  · rfl
  · simp [nonterminalMark, hasArrow]

theorem writeName_ne_nil : writeName name ≠ [] := by
  unfold writeName
  split
  · next h =>
    rintro hnil
    simp [hnil, readsAsNonterminal, startsUppercase] at h
  · simp [nonterminalMark]

theorem write_ne_nil : write x ≠ [] := by
  cases x with
  | nonterminal A => exact writeName_ne_nil
  | terminal a =>
    simp only [write, writeLabel]
    split
    · next h =>
      rintro hnil
      simp [hnil, readsAsTerminal] at h
    · simp [terminalMark]

theorem not_readsAsNonterminal_emptyTokens : ∀ p ∈ emptyTokens, readsAsNonterminal p = false := by
  decide +kernel

theorem write_not_mem_emptyTokens : write x ∉ emptyTokens := by
  cases x with
  | nonterminal A =>
    simp only [write, writeName]
    split
    · next h =>
      intro mem
      rw [not_readsAsNonterminal_emptyTokens _ mem] at h
      cases h
    · simp [emptyTokens, nonterminalMark]
  | terminal a =>
    simp only [write, writeLabel]
    split
    · next h =>
      simp only [readsAsTerminal, Bool.and_eq_true, Bool.not_eq_true'] at h
      simpa using h.1.2
    · simp [emptyTokens, terminalMark]

theorem text_read_isSuffix : (read s).text.toList <:+ s := by
  unfold read
  split
  · next h =>
    rw [← List.isPrefixOf?_eq_some_iff_append_eq.mp h]
    simp [Symbol.text]
  · next h =>
    rw [← List.isPrefixOf?_eq_some_iff_append_eq.mp h]
    simp [Symbol.text]
  · split <;> simp [Symbol.text]

end Token

namespace Grammar

variable {g : Grammar} {r : Rule} {rules : List Rule} {rhs : List Symbol} {line : List Char}
  {c : Char} {n : Nat}

theorem writeBody_cons {x : Symbol} :
    Rule.writeBody (x :: rhs) = ((x :: rhs).map Token.write).flatMap (fun p => ' ' :: p) := by
  rw [List.flatMap_map]
  rfl

theorem readBody_writeBody (h : ∀ s ∈ rhs, FitsBody s.text) :
    readBody (Rule.writeBody rhs) = rhs := by
  cases rhs with
  | nil => decide
  | cons x rhs =>
    have tokens : words (Rule.writeBody (x :: rhs)) = (x :: rhs).map Token.write := by
      rw [writeBody_cons]
      apply words_flatMap
      intro p hp
      obtain ⟨y, hy, rfl⟩ := List.mem_map.mp hp
      exact ⟨Token.write_ne_nil, fun c hc => (Token.fits_write (h y hy) hc).1⟩
    have kept : ((x :: rhs).map Token.write).filter (fun p => !Token.emptyTokens.contains p) =
        (x :: rhs).map Token.write := by
      rw [List.filter_eq_self]
      intro p hp
      obtain ⟨y, _, rfl⟩ := List.mem_map.mp hp
      simpa using Token.write_not_mem_emptyTokens
    have same : Token.read ∘ Token.write = id := funext Token.read_write
    rw [readBody, tokens, kept, List.map_map, same, List.map_id]

theorem mem_writeBody (h : ∀ s ∈ rhs, FitsBody s.text) (hc : c ∈ Rule.writeBody rhs) :
    (c = ' ' ∨ isBlank c = false) ∧ c ≠ '|' := by
  cases rhs with
  | nil =>
    rcases List.mem_cons.mp hc with rfl | hc
    · exact ⟨.inl rfl, by decide⟩
    · obtain rfl := List.mem_singleton.mp hc
      exact ⟨.inr (by decide), by decide⟩
  | cons x rhs =>
    obtain ⟨y, hy, hc⟩ := List.mem_flatMap.mp hc
    rcases List.mem_cons.mp hc with rfl | hc
    · exact ⟨.inl rfl, by decide⟩
    · have := Token.fits_write (h y hy) hc
      exact ⟨.inr this.1, this.2⟩

theorem write_eq :
    r.write = (Token.writeName r.lhs ++ [' ']) ++ '-' :: '>' :: Rule.writeBody r.rhs := by
  simp [Rule.write]

theorem mem_rule_write (h : r.Legible) (hc : c ∈ r.write) : c = ' ' ∨ isBlank c = false := by
  simp only [Rule.write, List.mem_append, List.mem_cons, List.not_mem_nil, or_false] at hc
  rcases hc with (hc | rfl | rfl | rfl) | hc
  · exact .inr (Token.not_blank_writeName h.1.1 hc)
  · exact .inl rfl
  · exact .inr (by decide)
  · exact .inr (by decide)
  · exact (mem_writeBody h.2 hc).1

theorem readLine_write (h : r.Legible) : readLine r.write = .ok [r] := by
  obtain ⟨⟨blank, arrow⟩, body⟩ := h
  have head : ∀ c ∈ Token.writeName r.lhs, isBlank c = false :=
    fun c hc => Token.not_blank_writeName blank hc
  have front : Token.hasArrow (Token.writeName r.lhs ++ [' ']) = false := by
    rw [hasArrow_append (by decide), Token.hasArrow_writeName, ← Bool.not_eq_true, hasArrow_iff]
    exact arrow
  have trimmed : trim (Token.writeName r.lhs ++ [' ']) = Token.writeName r.lhs :=
    trim_append head (List.forall_mem_singleton.mpr (by decide))
  have filled : trim r.write ≠ [] := by
    obtain ⟨c, hc⟩ := List.exists_mem_of_ne_nil (Token.writeName r.lhs) Token.writeName_ne_nil
    rw [ne_eq, trim_eq_nil]
    intro all
    have := all c (by simp [write_eq, hc])
    simp [head c hc] at this
  have single : pieces (· == '|') (Rule.writeBody r.rhs) = [Rule.writeBody r.rhs] :=
    pieces_of_forall (fun c hc => by simpa using (mem_writeBody body hc).2)
  have accepted :
      ((Token.writeName r.lhs).isEmpty || (Token.writeName r.lhs).any isBlank) = false := by
    simpa using ⟨Token.writeName_ne_nil, head⟩
  rw [readLine, if_neg (by simpa using filled), write_eq, splitArrow?_append front]
  simp only [trimmed, accepted, single, List.map_cons, List.map_nil, Bool.false_eq_true, ↓reduceIte,
    Token.readHead_writeName, readBody_writeBody body]

theorem readLines_write (h : ∀ r ∈ rules, r.Legible) :
    readLines n (rules.map Rule.write) = .ok rules := by
  induction rules generalizing n with
  | nil => rfl
  | cons r rules ih =>
    rw [List.forall_mem_cons] at h
    rw [List.map_cons, readLines, readLine_write h.1, ih h.2]
    rfl

theorem lines_write (h : g.Legible) : lines g.write = g.rules.map Rule.write := by
  rw [write, ← List.flatMap_map (f := Rule.write) (g := fun p => p ++ ['\n'])]
  apply lines_flatMap
  intro p hp
  obtain ⟨r, hr, rfl⟩ := List.mem_map.mp hp
  have chars : ∀ c ∈ r.write, c = ' ' ∨ isBlank c = false := fun c hc => mem_rule_write (h r hr) hc
  constructor
  · intro mem
    exact absurd (chars _ mem) (by decide)
  · intro last
    exact absurd (chars _ (List.mem_of_getLast? last)) (by decide)

theorem rule_of_readLine (h : readLine line = .ok rules) (hr : r ∈ rules) :
    ∃ front bodies body, splitArrow? line = some (front, bodies) ∧
      (∀ c ∈ trim front, isBlank c = false) ∧ body ∈ pieces (· == '|') bodies ∧
      r = ⟨readHead (trim front), readBody body⟩ := by
  unfold readLine at h
  split at h
  · cases h
    exact absurd hr List.not_mem_nil
  · split at h
    · cases h
    · next front bodies arrow =>
      simp only at h
      split at h
      · cases h
      · next accepted =>
        cases h
        obtain ⟨body, hbody, rfl⟩ := List.mem_map.mp hr
        rw [Bool.or_eq_true, not_or, Bool.not_eq_true, Bool.not_eq_true,
          List.any_eq_false] at accepted
        exact ⟨front, bodies, body, arrow, by simpa using accepted.2, hbody, rfl⟩

theorem readHead_isSuffix : (readHead line).toList <:+ line := by
  rw [readHead, String.toList_ofList]
  cases h : Token.nonterminalMark.isPrefixOf? line with
  | none => exact List.suffix_refl line
  | some rest => exact ⟨_, List.isPrefixOf?_eq_some_iff_append_eq.mp h⟩

theorem fitsBody_of_readBody {x : Symbol} (hline : ∀ c ∈ line, c ≠ '|') (hx : x ∈ readBody line) :
    FitsBody x.text := by
  obtain ⟨token, mem, rfl⟩ := List.mem_map.mp hx
  intro c hc
  have := mem_words (List.mem_filter.mp mem).1 (Token.text_read_isSuffix.subset hc)
  exact ⟨this.2, hline c this.1⟩

theorem legible_of_readLine (h : readLine line = .ok rules) (hr : r ∈ rules) : r.Legible := by
  obtain ⟨front, bodies, body, arrow, blank, hbody, rfl⟩ := rule_of_readLine h hr
  have noArrow : ¬['-', '>'] <:+: front := by
    rw [← hasArrow_iff, (eq_append_of_splitArrow? arrow).2]
    exact Bool.false_ne_true
  refine ⟨⟨fun c hc => blank c (readHead_isSuffix.subset hc), fun inside => noArrow ?_⟩, ?_⟩
  · exact inside.trans (readHead_isSuffix.isInfix.trans trim_isInfix)
  · intro x hx
    exact fitsBody_of_readBody (fun c hc => by simpa using (mem_pieces hbody hc).2) hx

theorem legible_of_readLines {lines : List (List Char)} (h : readLines n lines = .ok rules)
    (hr : r ∈ rules) : r.Legible := by
  induction lines generalizing n rules with
  | nil =>
    cases h
    exact absurd hr List.not_mem_nil
  | cons line lines ih =>
    rw [readLines] at h
    split at h
    · cases h
    · next front hfront =>
      cases hback : readLines (n + 1) lines with
      | error e =>
        rw [hback] at h
        cases h
      | ok back =>
        rw [hback] at h
        cases h
        rcases List.mem_append.mp hr with hr | hr
        · exact legible_of_readLine hfront hr
        · exact ih hback hr

theorem legible_of_ofText {start : Name} {text : String} (h : ofText start text = .ok g) :
    g.start = start ∧ g.Legible := by
  unfold ofText at h
  cases hrules : readLines 1 (lines text.toList) with
  | error e =>
    rw [hrules] at h
    cases h
  | ok rules =>
    rw [hrules] at h
    cases h
    exact ⟨rfl, fun r hr => legible_of_readLines hrules hr⟩

theorem ofText_text (h : g.Legible) : ofText g.start g.text = .ok g := by
  rw [ofText, text, String.toList_ofList, lines_write h, readLines_write h]
  rfl

theorem ofText_text_iff : ofText g.start g.text = .ok g ↔ g.Legible :=
  ⟨fun h => (legible_of_ofText h).2, ofText_text⟩

/-- A grammar can be written and read back exactly if its names and labels fit their places, as they
do in every grammar that was read from a text. -/
theorem reads_back (g : Grammar) :
    (ofText g.start g.text = .ok g ↔
      ∀ r ∈ g.rules, ((∀ c ∈ r.lhs.toList, isBlank c = false) ∧ ¬['-', '>'] <:+: r.lhs.toList) ∧
        ∀ s ∈ r.rhs, ∀ c ∈ s.text.toList, isBlank c = false ∧ c ≠ '|') ∧
      ∀ start text, ofText start text = .ok g → ofText g.start g.text = .ok g :=
  ⟨ofText_text_iff, fun _ _ h => ofText_text (legible_of_ofText h).2⟩

def odd : Grammar where
  start := "$"
  rules := [
    ⟨"$", [.nonterminal "", .terminal "Up", .terminal "->"]⟩,
    ⟨"$", []⟩,
    ⟨"", [.terminal "", .terminal "epsilon", .nonterminal "ε"]⟩,
    ⟨"TER:x", [.nonterminal "VAR:y", .terminal "VAR:z", .terminal "a->b"]⟩]

def oddText : String :=
  "$ -> VAR: TER:Up -> | ε\nVAR: -> TER: TER:epsilon VAR:ε\nTER:x -> VAR:VAR:y TER:VAR:z a->b"

theorem odd_reads_back :
    ofText "$" oddText = .ok odd ∧ ofText odd.start odd.text = .ok odd := by
  have loaded : ofText "$" oddText = .ok odd := by decide +kernel
  exact ⟨loaded, (reads_back odd).2 _ _ loaded⟩

end Grammar

end ContextFreePaths
