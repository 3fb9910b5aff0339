import Mathlib.Data.List.DropRight
import Mathlib.Data.List.TakeWhile
import Mathlib.Data.List.Infix
import ContextFreePaths.Grammar.Text
import ContextFreePaths.Text

namespace ContextFreePaths.Text

open Token

variable {separates : Char → Bool} {c : Char} {s t p : List Char} {parts : List (List Char)}

theorem lines_newline : lines ('\n' :: s) = [] :: lines s := by
  rw [lines.eq_def]
  rfl

theorem lines_cons (hn : c ≠ '\n') (hr : c = '\r' → s.head? ≠ some '\n') :
    lines (c :: s) = consFirst c (lines s) := by
  rw [lines.eq_def]
  split
  · next h => cases h
  · next h =>
    cases h
    exact absurd rfl (hr rfl)
  · next h =>
    cases h
    exact absurd rfl hn
  · next h =>
    cases h
    rfl

theorem lines_append (hn : '\n' ∉ s) (hr : s.getLast? ≠ some '\r') :
    lines (s ++ '\n' :: t) = s :: lines t := by
  induction s with
  | nil => exact lines_newline
  | cons c s ih =>
    rw [List.mem_cons, not_or] at hn
    rw [List.cons_append]
    cases s with
    | nil =>
      rw [List.nil_append, lines_cons (Ne.symm hn.1), lines_newline]
      · rfl
      · rintro rfl
        simp at hr
    | cons d s =>
      rw [lines_cons (Ne.symm hn.1), ih hn.2 (by simpa using hr)]
      · rfl
      · rintro - hd
        obtain rfl := Option.some.inj hd
        exact hn.2 List.mem_cons_self

theorem lines_flatMap (h : ∀ p ∈ parts, '\n' ∉ p ∧ p.getLast? ≠ some '\r') :
    lines (parts.flatMap (fun p => p ++ ['\n'])) = parts := by
  induction parts with
  | nil => rfl
  | cons p parts ih =>
    rw [List.forall_mem_cons] at h
    rw [List.flatMap_cons, List.append_assoc, List.singleton_append, lines_append h.1.1 h.1.2,
      ih h.2]

theorem trim_eq : trim s = (s.dropWhile isBlank).rdropWhile isBlank :=
  rfl

theorem trim_isInfix : trim s <:+: s := by
  rw [trim_eq]
  exact (List.rdropWhile_prefix isBlank _).isInfix.trans (List.dropWhile_suffix isBlank).isInfix

theorem trim_eq_nil : trim s = [] ↔ ∀ c ∈ s, isBlank c = true := by
  rw [trim_eq, List.rdropWhile_eq_nil_iff]
  constructor
  · intro h
    rw [← List.dropWhile_eq_nil_iff]
    by_contra hne
    have := List.head_dropWhile_not isBlank hne
    simp [h _ (List.head_mem hne)] at this
  · exact fun h c hc => h c ((List.dropWhile_suffix isBlank).subset hc)

theorem dropWhile_of_forall (hs : ∀ c ∈ s, isBlank c = false) : s.dropWhile isBlank = s := by
  rw [List.dropWhile_eq_self_iff]
  intro h
  simp [hs _ (List.getElem_mem h)]

theorem trim_append (hs : ∀ c ∈ s, isBlank c = false) (ht : ∀ c ∈ t, isBlank c = true) :
    trim (s ++ t) = s := by
  cases s with
  | nil => exact trim_eq_nil.mpr ht
  | cons c s =>
    have front : (c :: s ++ t).dropWhile isBlank = c :: s ++ t := by
      rw [List.dropWhile_append, dropWhile_of_forall hs]
      rfl
    have back : (c :: s).reverse.dropWhile isBlank = (c :: s).reverse :=
      dropWhile_of_forall (fun d hd => hs d (List.mem_reverse.mp hd))
    rw [trim, front, List.reverse_append,
      List.dropWhile_append_of_pos (fun d hd => ht d (List.mem_reverse.mp hd)), back,
      List.reverse_reverse]

theorem ne_of_isBlank {d : Char} (hc : isBlank c = true) (hd : isBlank d = false) : c ≠ d := by
  rintro rfl
  simp [hc] at hd

theorem trim_concat (hc : isBlank c = true) : trim (s ++ [c]) = trim s := by
  rw [trim_eq, trim_eq, List.dropWhile_append]
  cases h : s.dropWhile isBlank with
  | nil => simp [hc]
  | cons d t =>
    apply List.rdropWhile_concat_pos
    exact hc

theorem length_consFirst {l : List (List Char)} (h : l ≠ []) :
    (consFirst c l).length = l.length := by
  cases l with
  | nil => exact absurd rfl h
  | cons p l => rfl

theorem length_pieces : (pieces separates s).length = s.countP separates + 1 := by
  induction s with
  | nil => rfl
  | cons c s ih =>
    rw [pieces, List.countP_cons]
    split
    · rw [List.length_cons, ih]
    · rw [length_consFirst pieces_ne_nil, ih, Nat.add_zero]

theorem exists_pieces_concat (separates : Char → Bool) (hc : separates c = false) :
    ∃ front last, pieces separates s = front ++ [last] ∧
      pieces separates (s ++ [c]) = front ++ [last ++ [c]] := by
  induction s with
  | nil => exact ⟨[], [], rfl, by simp [pieces, hc, consFirst]⟩
  | cons d s ih =>
    obtain ⟨front, last, before, after⟩ := ih
    rw [List.cons_append, pieces, pieces, before, after]
    by_cases hd : separates d = true
    · exact ⟨[] :: front, last, by simp [hd], by simp [hd]⟩
    · cases front with
      | nil => exact ⟨[], d :: last, by simp [hd, consFirst], by simp [hd, consFirst]⟩
      | cons p front =>
        exact ⟨(d :: p) :: front, last, by simp [hd, consFirst], by simp [hd, consFirst]⟩

theorem mem_consFirst {l : List (List Char)} (h : p ∈ consFirst c l) :
    p ∈ l ∨ p = [c] ∨ ∃ q ∈ l, p = c :: q := by
  cases l with
  | nil => exact .inr (.inl (List.mem_singleton.mp h))
  | cons q l =>
    rcases List.mem_cons.mp h with rfl | h
    · exact .inr (.inr ⟨q, List.mem_cons_self, rfl⟩)
    · exact .inl (List.mem_cons_of_mem q h)

theorem mem_pieces (hp : p ∈ pieces separates s) (hc : c ∈ p) : c ∈ s ∧ separates c = false := by
  induction s generalizing p c with
  | nil =>
    obtain rfl := List.mem_singleton.mp hp
    exact absurd hc List.not_mem_nil
  | cons d s ih =>
    have tail : ∀ {q}, q ∈ pieces separates s → c ∈ q → c ∈ d :: s ∧ separates c = false :=
      fun hq hc => ⟨List.mem_cons_of_mem d (ih hq hc).1, (ih hq hc).2⟩
    rw [pieces] at hp
    split at hp
    · rcases List.mem_cons.mp hp with rfl | hp
      · exact absurd hc List.not_mem_nil
      · exact tail hp hc
    · next hd =>
      -- here the first piece of the rest grows, and any of its characters may be asked for
      have first : d ∈ d :: s ∧ separates d = false := ⟨List.mem_cons_self, by simpa using hd⟩
      rcases mem_consFirst hp with hp | rfl | ⟨q, hq, rfl⟩
      · exact tail hp hc
      · rwa [List.mem_singleton.mp hc]
      · rcases List.mem_cons.mp hc with rfl | hc
        · exact first
        · exact tail hq hc

theorem mem_words (hp : p ∈ words s) (hc : c ∈ p) : c ∈ s ∧ isBlank c = false :=
  mem_pieces (List.mem_filter.mp hp).1 hc

theorem words_blank (hc : isBlank c = true) : words (c :: s) = words s :=
  words_append (s := []) hc

theorem words_append_flatMap (hs : s ≠ []) (h : ∀ c ∈ s, isBlank c = false) :
    words (s ++ parts.flatMap (fun p => ' ' :: p)) =
      s :: words (parts.flatMap (fun p => ' ' :: p)) := by
  cases parts with
  | nil => rw [List.flatMap_nil, List.append_nil, words_of_forall hs h]; rfl
  | cons p parts =>
    rw [List.flatMap_cons, List.cons_append, words_append rfl, words_blank rfl,
      words_of_forall hs h]
    rfl

theorem words_flatMap (h : ∀ p ∈ parts, p ≠ [] ∧ ∀ c ∈ p, isBlank c = false) :
    words (parts.flatMap (fun p => ' ' :: p)) = parts := by
  induction parts with
  | nil => rfl
  | cons p parts ih =>
    rw [List.forall_mem_cons] at h
    rw [List.flatMap_cons, List.cons_append, words_blank rfl, words_append_flatMap h.1.1 h.1.2,
      ih h.2]

theorem hasArrow_cons :
    hasArrow (c :: s) = true ↔ c = '-' ∧ s.head? = some '>' ∨ hasArrow s = true := by
  by_cases h : c = '-' ∧ s.head? = some '>'
  · obtain ⟨rfl, hs⟩ := h
    obtain ⟨t, rfl⟩ := List.head?_eq_some_iff.mp hs
    simp [hasArrow]
  · rw [hasArrow.eq_3 c s (by rintro t rfl rfl; exact h ⟨rfl, rfl⟩)]
    simp [h]

theorem hasArrow_iff : hasArrow s = true ↔ ['-', '>'] <:+: s := by
  induction s with
  | nil => simp [hasArrow]
  | cons c s ih =>
    have head : s.head? = some '>' ↔ ['>'] <+: s := by
      cases s with
      | nil => simp
      | cons d s => simp [List.cons_prefix_cons, eq_comm (a := d)]
    rw [hasArrow_cons, ih, head, List.infix_cons_iff, List.cons_prefix_cons, eq_comm (a := c)]

theorem hasArrow_append (ht : '>' ∉ t) : hasArrow (s ++ t) = hasArrow s := by
  rw [Bool.eq_iff_iff]
  induction s with
  | nil =>
    rw [List.nil_append, hasArrow_iff]
    constructor
    · intro h
      exact absurd (h.subset (by simp)) ht
    · intro h
      cases h
  | cons c s ih =>
    have head : (s ++ t).head? = some '>' ↔ s.head? = some '>' := by
      cases s with
      | nil =>
        constructor
        · intro h
          exact absurd (List.mem_of_mem_head? h) ht
        · intro h
          cases h
      | cons d s => rfl
    rw [List.cons_append, hasArrow_cons, hasArrow_cons, ih, head]

theorem splitArrow?_cons (h : ¬(c = '-' ∧ s.head? = some '>')) :
    splitArrow? (c :: s) = (splitArrow? s).map (fun p => (c :: p.1, p.2)) :=
  splitArrow?.eq_3 c s (by rintro t rfl rfl; exact h ⟨rfl, rfl⟩)

theorem splitArrow?_append (h : hasArrow s = false) :
    splitArrow? (s ++ '-' :: '>' :: t) = some (s, t) := by
  induction s with
  | nil => rfl
  | cons c s ih =>
    rw [← Bool.not_eq_true, hasArrow_cons, not_or, Bool.not_eq_true] at h
    rw [List.cons_append, splitArrow?_cons, ih h.2]
    · rfl
    · rintro ⟨hc, hs⟩
      apply h.1
      cases s with
      | nil => simp at hs
      | cons d s => exact ⟨hc, hs⟩

theorem eq_append_of_splitArrow? (h : splitArrow? s = some (p, t)) :
    s = p ++ '-' :: '>' :: t ∧ hasArrow p = false := by
  induction s generalizing p with
  | nil => cases h
  | cons c s ih =>
    by_cases hc : c = '-' ∧ s.head? = some '>'
    · obtain ⟨rfl, hs⟩ := hc
      obtain ⟨s, rfl⟩ := List.head?_eq_some_iff.mp hs
      cases h
      exact ⟨rfl, rfl⟩
    · rw [splitArrow?_cons hc, Option.map_eq_some_iff] at h
      obtain ⟨⟨q, t⟩, hq, heq⟩ := h
      cases heq
      obtain ⟨rfl, arrow⟩ := ih hq
      refine ⟨rfl, ?_⟩
      rw [← Bool.not_eq_true, hasArrow_cons, not_or, Bool.not_eq_true]
      refine ⟨?_, arrow⟩
      rintro ⟨rfl, hd⟩
      obtain ⟨q, rfl⟩ := List.head?_eq_some_iff.mp hd
      exact hc ⟨rfl, rfl⟩

theorem isSome_splitArrow? : (splitArrow? s).isSome = hasArrow s := by
  induction s with
  | nil => rfl
  | cons c s ih =>
    by_cases h : c = '-' ∧ s.head? = some '>'
    · obtain ⟨rfl, hs⟩ := h
      obtain ⟨t, rfl⟩ := List.head?_eq_some_iff.mp hs
      rfl
    · rw [splitArrow?_cons h, Option.isSome_map, ih, Bool.eq_iff_iff, hasArrow_cons,
        or_iff_right h]

theorem splitArrow?_eq_none : splitArrow? s = none ↔ ¬['-', '>'] <:+: s := by
  rw [← Option.not_isSome_iff_eq_none, isSome_splitArrow?, hasArrow_iff]

theorem splitArrow?_eq_some :
    splitArrow? s = some (p, t) ↔ s = p ++ '-' :: '>' :: t ∧ ¬['-', '>'] <:+: p := by
  rw [← hasArrow_iff, Bool.not_eq_true]
  constructor
  · exact eq_append_of_splitArrow?
  · rintro ⟨rfl, h⟩
    exact splitArrow?_append h

theorem splitArrow?_concat (hc : c ≠ '>') :
    splitArrow? (s ++ [c]) = (splitArrow? s).map (fun p => (p.1, p.2 ++ [c])) := by
  cases h : splitArrow? s with
  | none =>
    rw [Option.map_none, ← Option.not_isSome_iff_eq_none, isSome_splitArrow?,
      hasArrow_append (by simpa using hc.symm), ← isSome_splitArrow?, h]
    exact Bool.false_ne_true
  | some cut =>
    obtain ⟨rfl, front⟩ := splitArrow?_eq_some.mp h
    rw [Option.map_some, splitArrow?_eq_some, List.append_assoc]
    exact ⟨rfl, front⟩

end ContextFreePaths.Text
