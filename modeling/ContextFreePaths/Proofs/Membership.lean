import ContextFreePaths.Proofs.WeakNormalForm

namespace ContextFreePaths

open Interpretation

namespace Grammar

variable {g : Grammar} {A : Name} {a : Label} {w : Word}

theorem generates_iff_models : g.Generates A w ↔
    ∃ rhs, ⟨A, rhs⟩ ∈ g.rules ∧ Spells g.Generates rhs w := by
  rw [generates_iff]
  constructor
  · rintro ⟨r, hr, rfl, h⟩
    exact ⟨r.rhs, hr, spells_generates.mpr h⟩
  · rintro ⟨rhs, hr, h⟩
    exact ⟨⟨A, rhs⟩, hr, rfl, spells_generates.mp h⟩

theorem IsNormal.generates_letter (hg : g.IsNormal) :
    g.Generates A [a] ↔ ⟨A, [.terminal a]⟩ ∈ g.rules := by
  rw [generates_iff_models]
  constructor
  · rintro ⟨rhs, hr, h⟩
    rcases hg _ hr with ⟨b, hb⟩ | ⟨B, C, hBC⟩
    · simp only at hb
      subst hb
      obtain rfl : a = b := by simpa using h
      exact hr
    · simp only at hBC
      subst hBC
      obtain ⟨u, v, huv, hu, hv⟩ := spells_pair.mp h
      have hu_ne := List.length_pos_of_ne_nil (generates_ne_nil hg.rhs_ne_nil hu)
      have hv_ne := List.length_pos_of_ne_nil (generates_ne_nil hg.rhs_ne_nil hv)
      have := congrArg List.length huv
      simp only [List.length_cons, List.length_nil, List.length_append] at this
      omega
  · intro h
    exact ⟨_, h, spells_terminal.mpr rfl⟩

def Splits (g : Grammar) (w : Word) (k : Nat) (A : Name) : Prop :=
  ∃ B C, ⟨A, [.nonterminal B, .nonterminal C]⟩ ∈ g.rules ∧
    g.Generates B (w.take (k + 1)) ∧ g.Generates C (w.drop (k + 1))

theorem IsNormal.generates_cut (hg : g.IsNormal) (hw : 2 ≤ w.length) :
    g.Generates A w ↔ ∃ k, k + 1 < w.length ∧ g.Splits w k A := by
  rw [generates_iff_models]
  constructor
  · rintro ⟨rhs, hr, h⟩
    rcases hg _ hr with ⟨b, hb⟩ | ⟨B, C, hBC⟩
    · simp only at hb
      subst hb
      simp [spells_terminal.mp h] at hw
    · simp only at hBC
      subst hBC
      obtain ⟨u, v, rfl, hu, hv⟩ := spells_pair.mp h
      have hu_ne := List.length_pos_of_ne_nil (generates_ne_nil hg.rhs_ne_nil hu)
      have hv_ne := List.length_pos_of_ne_nil (generates_ne_nil hg.rhs_ne_nil hv)
      have hlen : u.length - 1 + 1 = u.length := by omega
      refine ⟨u.length - 1, ?_, B, C, hr, ?_, ?_⟩
      · rw [hlen, List.length_append]
        omega
      · rwa [hlen, List.take_left]
      · rwa [hlen, List.drop_left]
  · rintro ⟨k, _, B, C, hr, hB, hC⟩
    exact ⟨_, hr, spells_pair.mpr ⟨_, _, (List.take_append_drop (k + 1) w).symm, hB, hC⟩⟩

end Grammar

namespace Recognizer

variable {x : NameIndex} {r : Recognizer x.size} {rules done : List Rule} {g : Grammar} {w : Word}
  {A : Name} {p q : Name → Prop} {c left right : BitVec x.size} {rows : List (List (BitVec x.size))}
  {i k l n : Nat}

structure Represents (r : Recognizer x.size) (rules : List Rule) : Prop where
  names_subset : ∀ rule ∈ rules, rule.names ⊆ x.names
  unary_iff : ∀ h a, (h, a) ∈ r.unary ↔ ⟨x.name h, [.terminal a]⟩ ∈ rules
  binary_iff : ∀ h i j, (h, i, j) ∈ r.binary ↔
    ⟨x.name h, [.nonterminal (x.name i), .nonterminal (x.name j)]⟩ ∈ rules

theorem exists_addRule (hx : x.names.Nodup) (hr : r.Represents done) {rule : Rule}
    (shape : (∃ a, rule.rhs = [.terminal a]) ∨
      ∃ B C, rule.rhs = [.nonterminal B, .nonterminal C])
    (names : rule.names ⊆ x.names) :
    ∃ r', addRule? x r rule = some r' ∧ r'.start = r.start ∧ r'.Represents (done ++ [rule]) := by
  obtain ⟨A, rhs⟩ := rule
  have names' : ∀ rule ∈ done ++ [⟨A, rhs⟩], rule.names ⊆ x.names := by
    intro rule hrule
    rcases List.mem_append.mp hrule with hrule | hrule
    · exact hr.names_subset rule hrule
    · rwa [List.mem_singleton.mp hrule]
  obtain ⟨h, hA, rfl⟩ := NameIndex.exists_position (names (Rule.mem_names.mpr (.inl rfl)))
  rcases shape with ⟨a, rfl⟩ | ⟨B, C, rfl⟩
  · refine ⟨{ r with unary := r.unary ++ [(h, a)] }, by simp [addRule?, hA], rfl, names', ?_, ?_⟩
    · intro i b
      simp [hr.unary_iff, NameIndex.name_inj hx]
    · intro i j k
      simp [hr.binary_iff]
  · obtain ⟨i, hB, rfl⟩ := NameIndex.exists_position (A := B) (names (by simp [Rule.mem_names]))
    obtain ⟨j, hC, rfl⟩ := NameIndex.exists_position (A := C) (names (by simp [Rule.mem_names]))
    refine ⟨{ r with binary := r.binary ++ [(h, i, j)] }, by simp [addRule?, hA, hB, hC], rfl,
      names', ?_, ?_⟩
    · intro k b
      simp [hr.unary_iff]
    · intro h' i' j'
      simp [hr.binary_iff, NameIndex.name_inj hx]

theorem exists_addRules (hx : x.names.Nodup) (hr : r.Represents [])
    (shape : ∀ rule ∈ rules, (∃ a, rule.rhs = [.terminal a]) ∨
      ∃ B C, rule.rhs = [.nonterminal B, .nonterminal C])
    (names : ∀ rule ∈ rules, rule.names ⊆ x.names) :
    ∃ r', rules.foldlM (addRule? x) r = some r' ∧ r'.start = r.start ∧ r'.Represents rules := by
  apply exists_foldlM (fun done (r' : Recognizer x.size) => r'.start = r.start ∧ r'.Represents done)
  · exact ⟨rfl, hr⟩
  · rintro done rule r₁ mem ⟨start, rep⟩
    obtain ⟨r₂, run, start', rep'⟩ := exists_addRule hx rep (shape rule mem) (names rule mem)
    exact ⟨r₂, run, start'.trans start, rep'⟩

theorem exists_ofGrammar (hg : g.IsNormal) :
    ∃ r, ofGrammar? g = some r ∧ (NameIndex.ofGrammar g).name r.start = g.start ∧
      r.Represents g.rules := by
  have mem : g.start ∈ (NameIndex.ofGrammar g).names :=
    Grammar.mem_names_ofGrammar.mpr (Grammar.mem_nonterminals.mpr (.inl rfl))
  obtain ⟨start, position, name⟩ := NameIndex.exists_position mem
  have empty : Represents (x := NameIndex.ofGrammar g) { start } [] := ⟨by simp, by simp, by simp⟩
  obtain ⟨r, hr, hstart, rep⟩ := exists_addRules Grammar.nodup_names_ofGrammar empty hg
    (fun rule hr A hA => Grammar.mem_names_ofGrammar.mpr (Grammar.names_subset_nonterminals hr hA))
  refine ⟨r, ?_, by rw [hstart, name], rep⟩
  simp only [ofGrammar?, position]
  exact hr

def Holds (x : NameIndex) (cell : BitVec x.size) (p : Name → Prop) : Prop :=
  ∀ h : Fin x.size, cell[h] = true ↔ p (x.name h)

theorem Holds.congr (holds : Holds x c p) (same : ∀ A, p A ↔ q A) : Holds x c q :=
  fun h => (holds h).trans (same (x.name h))

theorem holds_zero : Holds x 0#_ (fun _ => False) := by
  intro h
  simp

theorem Holds.or (hp : Holds x left p) (hq : Holds x right q) :
    Holds x (left ||| right) (fun A => p A ∨ q A) := by
  intro h
  simp only [← hp h, ← hq h, Fin.getElem_fin, BitVec.getElem_or, Bool.or_eq_true]

theorem getElem_collect {size : Nat} {heads : List (Fin size)} {h : Fin size} :
    (collect heads)[h] = true ↔ h ∈ heads := by
  have fold : ∀ z : BitVec size,
      (heads.foldl (fun cell (head : Fin size) => cell ||| BitVec.twoPow size head) z)[h] = true ↔
        z[h] = true ∨ h ∈ heads := by
    induction heads with
    | nil => simp
    | cons head heads ih =>
      intro z
      rw [List.foldl_cons, ih]
      simp [Fin.ext_iff, or_assoc]
  rw [collect, fold]
  simp

theorem holds_letter (rep : r.Represents rules) (a : Label) :
    Holds x (r.letter a) (fun A => ⟨A, [.terminal a]⟩ ∈ rules) := by
  intro h
  rw [letter, getElem_collect]
  simp [rep.unary_iff]

theorem holds_join (rep : r.Represents rules) (hp : Holds x left p) (hq : Holds x right q) :
    Holds x (r.join left right)
      (fun A => ∃ B C, ⟨A, [.nonterminal B, .nonterminal C]⟩ ∈ rules ∧ p B ∧ q C) := by
  intro h
  rw [join, getElem_collect]
  simp only [List.mem_map, List.mem_filter, Bool.and_eq_true, hp _, hq _]
  constructor
  · rintro ⟨⟨h, i, j⟩, ⟨mem, hB, hC⟩, rfl⟩
    exact ⟨x.name i, x.name j, (rep.binary_iff h i j).mp mem, hB, hC⟩
  · rintro ⟨B, C, mem, hB, hC⟩
    have names := rep.names_subset _ mem
    obtain ⟨i, rfl⟩ := NameIndex.exists_name (A := B) (names (by simp [Rule.mem_names]))
    obtain ⟨j, rfl⟩ := NameIndex.exists_name (A := C) (names (by simp [Rule.mem_names]))
    exact ⟨(h, i, j), ⟨(rep.binary_iff h i j).mpr mem, hB, hC⟩, rfl⟩

theorem exists_joinCuts {cut : Nat → Name → Prop}
    (cuts : ∀ k < l, ∃ left right, cell? rows k i = some left ∧
      cell? rows (l - 1 - k) (i + k + 1) = some right ∧ Holds x (r.join left right) (cut k)) :
    ∃ c, r.joinCuts? rows l i = some c ∧ Holds x c (fun A => ∃ k ∈ List.range l, cut k A) := by
  apply exists_foldlM (fun done c => Holds x c (fun A => ∃ k ∈ done, cut k A))
  · simpa using holds_zero
  · intro done k c mem holds
    obtain ⟨left, right, hl, hr, joined⟩ := cuts k (List.mem_range.mp mem)
    refine ⟨c ||| r.join left right, by simp [hl, hr], ?_⟩
    simpa [or_and_right, exists_or] using holds.or joined

def factor (w : Word) (i n : Nat) : Word :=
  (w.drop i).take n

theorem length_factor (h : i + n ≤ w.length) : (factor w i n).length = n := by
  simp [factor]
  omega

theorem take_factor (h : k ≤ n) : (factor w i n).take k = factor w i k := by
  simp [factor, List.take_take, h]

theorem drop_factor : (factor w i n).drop k = factor w (i + k) (n - k) := by
  simp [factor, List.drop_take, List.drop_drop]

theorem factor_one (h : i < w.length) : factor w i 1 = [w[i]] := by
  simp [factor, List.take_one, List.head?_drop, h]

/-- The first rows of the table: no factor is without its cell, and the cell holds the nonterminals
that derive the factor. -/
structure Filled (x : NameIndex) (g : Grammar) (w : Word) (k : Nat)
    (rows : List (List (BitVec x.size))) : Prop where
  length_eq : rows.length = k
  cell : ∀ l i, l < k → i + l < w.length → ∃ c, cell? rows l i = some c ∧
    Holds x c (fun A => g.Generates A (factor w i (l + 1)))

theorem filled_letters (hg : g.IsNormal) (rep : r.Represents g.rules) :
    Filled x g w 1 [w.map r.letter] := by
  refine ⟨rfl, fun l i hl hi => ?_⟩
  obtain rfl := Nat.lt_one_iff.mp hl
  rw [Nat.add_zero] at hi
  refine ⟨r.letter w[i], by simp [cell?, hi], (holds_letter rep w[i]).congr (fun A => ?_)⟩
  rw [Nat.zero_add, factor_one hi, hg.generates_letter]

theorem Filled.concat (filled : Filled x g w k rows) {row : List (BitVec x.size)}
    (cells : ∀ i, i + k < w.length → ∃ c, row[i]? = some c ∧
      Holds x c (fun A => g.Generates A (factor w i (k + 1)))) :
    Filled x g w (k + 1) (rows ++ [row]) := by
  constructor
  · rw [List.length_append, filled.length_eq, List.length_singleton]
  · intro l i hl hi
    rcases Nat.lt_succ_iff_lt_or_eq.mp hl with hl | rfl
    · rw [cell?, List.getElem?_append_left (by rwa [filled.length_eq])]
      exact filled.cell l i hl hi
    · have last : (rows ++ [row])[l]? = some row := by
        rw [← filled.length_eq]
        exact List.getElem?_concat_length
      rw [cell?, last, Option.bind_some]
      exact cells i hi

theorem Filled.exists_joinCuts (filled : Filled x g w (l + 1) rows) (hg : g.IsNormal)
    (rep : r.Represents g.rules) (hi : i + (l + 1) < w.length) :
    ∃ c, r.joinCuts? rows (l + 1) i = some c ∧
      Holds x c (fun A => g.Generates A (factor w i (l + 1 + 1))) := by
  have hlen : (factor w i (l + 1 + 1)).length = l + 1 + 1 := length_factor (by omega)
  -- Both parts of a cut are shorter factors, so their cells are there.
  have cuts : ∀ k < l + 1, ∃ left right, cell? rows k i = some left ∧
      cell? rows (l + 1 - 1 - k) (i + k + 1) = some right ∧
      Holds x (r.join left right) (g.Splits (factor w i (l + 1 + 1)) k) := by
    intro k hk
    obtain ⟨left, hleft, front⟩ := filled.cell k i hk (by omega)
    obtain ⟨right, hright, back⟩ :=
      filled.cell (l + 1 - 1 - k) (i + k + 1) (by omega) (by omega)
    rw [show l + 1 - 1 - k + 1 = l + 1 + 1 - (k + 1) by omega] at back
    refine ⟨left, right, hleft, hright, (holds_join rep front back).congr (fun A => ?_)⟩
    rw [Grammar.Splits, take_factor (by omega), drop_factor, Nat.add_assoc i k 1]
  obtain ⟨c, run, holds⟩ := Recognizer.exists_joinCuts cuts
  refine ⟨c, run, holds.congr (fun A => ?_)⟩
  rw [hg.generates_cut (by omega), hlen]
  simp only [List.mem_range, Nat.add_lt_add_iff_right]

theorem exists_rows (hg : g.IsNormal) (rep : r.Represents g.rules) (w : Word) (l : Nat) :
    ∃ rows, r.rows? w (l + 1) = some rows ∧ Filled x g w (l + 1) rows := by
  induction l with
  | zero => exact ⟨[w.map r.letter], rfl, filled_letters hg rep⟩
  | succ l ih =>
    obtain ⟨rows, shorter, filled⟩ := ih
    have exist : ∀ i, i + (l + 1) < w.length → ∃ c, r.joinCuts? rows (l + 1) i = some c ∧
        Holds x c (fun A => g.Generates A (factor w i (l + 1 + 1))) :=
      fun i hi => filled.exists_joinCuts hg rep hi
    choose! cells hcells using exist
    have row : (List.range (w.length - (l + 1))).mapM (r.joinCuts? rows (l + 1)) =
        some ((List.range (w.length - (l + 1))).map cells) := by
      rw [mapM_eq_some_iff, List.map_map]
      exact List.map_congr_left (fun i hi =>
        (hcells i (Nat.add_lt_of_lt_sub (List.mem_range.mp hi))).1)
    refine ⟨rows ++ [(List.range (w.length - (l + 1))).map cells], ?_, filled.concat ?_⟩
    · simp [rows?, shorter, row]
    · intro i hi
      have hi' : i < w.length - (l + 1) := Nat.lt_sub_of_add_lt hi
      exact ⟨cells i, by simp [hi'], (hcells i hi).2⟩

theorem exists_recognizes (hg : g.IsNormal) (hstart : x.name r.start = g.start)
    (rep : r.Represents g.rules) (hw : w ≠ []) :
    ∃ b, r.recognizes? w = some b ∧ (b = true ↔ g.Generates g.start w) := by
  obtain ⟨a, v, rfl⟩ := List.exists_cons_of_ne_nil hw
  obtain ⟨rows, run, filled⟩ := exists_rows hg rep (a :: v) v.length
  obtain ⟨cell, hcell, holds⟩ := filled.cell v.length 0 (Nat.lt_succ_self _) (by simp)
  have whole : factor (a :: v) 0 (v.length + 1) = a :: v := by simp [factor]
  refine ⟨cell[r.start], by simp [recognizes?, run, hcell], ?_⟩
  rw [holds r.start, hstart, whole]

end Recognizer

namespace Grammar

theorem exists_contains (g : Grammar) (w : Word) :
    ∃ b, g.contains? w = some b ∧ (b = true ↔ g.Generates g.start w) := by
  cases w with
  | nil => exact ⟨decide (g.start ∈ g.nullable), rfl, by simp [mem_nullable]⟩
  | cons a w =>
    obtain ⟨r, hr, hstart, rep⟩ := Recognizer.exists_ofGrammar (isNormal_normalForm g)
    have hne : a :: w ≠ [] := List.cons_ne_nil a w
    obtain ⟨b, run, iff⟩ := Recognizer.exists_recognizes (isNormal_normalForm g) hstart rep hne
    refine ⟨b, by simp [contains?, hr, run], ?_⟩
    rw [iff, start_normalForm, generates_start_normalForm]
    exact and_iff_left hne

theorem contains_iff {g : Grammar} {w : Word} :
    g.contains? w = some true ↔ g.Generates g.start w := by
  obtain ⟨b, run, iff⟩ := exists_contains g w
  rw [run, ← iff, Option.some.injEq]

/-- Membership is exact, by way of the nullable nonterminals for the empty word and of the normal
form for every other. No read of the recognizer's table fails. -/
theorem membership_exact (g : Grammar) :
    (∀ w, ∃ b, g.contains? w = some b ∧ (b = true ↔ g.Generates g.start w)) ∧
      g.contains? [] = some (decide (g.start ∈ g.nullable)) ∧
      (∃ r, Recognizer.ofGrammar? g.normalForm = some r ∧
        ∀ w, w ≠ [] → g.contains? w = r.recognizes? w) ∧
      ∃ f, WeakNormalForm.ofGrammar g = .ok f ∧ ∀ w, f.contains? w = g.contains? w := by
  obtain ⟨r, hr, _, _⟩ := Recognizer.exists_ofGrammar (isNormal_normalForm g)
  obtain ⟨f, hf, form⟩ := WeakNormalForm.exists_ofGrammar g
  refine ⟨exists_contains g, rfl, ⟨r, hr, fun w hw => ?_⟩, f, hf, fun w => ?_⟩
  · obtain ⟨a, v, rfl⟩ := List.exists_cons_of_ne_nil hw
    simp [contains?, hr]
  · rw [WeakNormalForm.contains?, form.grammar_eq]

open WeakNormalForm in
theorem normal_shape (g : Grammar) :
    (∀ r ∈ g.normalForm.rules, (∃ a, r.rhs = [.terminal a]) ∨
      ∃ B C, r.rhs = [.nonterminal B, .nonterminal C]) ∧
    (∃ r, Recognizer.ofGrammar? g.normalForm = some r) ∧
    ∃ f, ofGrammar g = .ok f ∧
      (∀ r, (∃ p ∈ f.epsilon, p.toRule = r) ↔ r ∈ g.rules ∧ r.rhs = []) ∧
      (∀ r, (∃ p ∈ f.unary ++ f.binary, p.toRule = r) ↔
        r ∈ (if g.isWeakNormal then g else g.normalForm).rules ∧ r.rhs ≠ []) ∧
      (∀ A, A ∈ f.variables ↔
        ∃ p ∈ f.productions, A = p.head ∨ .nonterminal A ∈ p.body.symbols) ∧
      (∀ a, a ∈ f.terminals ↔ ∃ p ∈ f.productions, .terminal a ∈ p.body.symbols) := by
  obtain ⟨r, hr, _⟩ := Recognizer.exists_ofGrammar (isNormal_normalForm g)
  obtain ⟨f, hf, form⟩ := exists_ofGrammar g
  refine ⟨isNormal_normalForm g, ⟨r, hr⟩, f, hf, fun r => exists_epsilon_iff form,
    fun r => exists_unary_or_binary_iff form, fun A => ?_, fun a => ?_⟩
  · simp only [mem_variables, Production.mem_names]
  · simp only [WeakNormalForm.mem_terminals, Production.mem_labels]

end Grammar

end ContextFreePaths
