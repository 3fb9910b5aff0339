/-!
Ascending lists: stable sorting, finite sets as strictly ascending lists, and finite maps as lists
of pairs with strictly ascending keys. `eq_of_ascending` says that a set has one such list, and
`nodup_eraseReps_sortBy_iff` when a sorted list keeps an element twice though repetitions that
follow each other are removed.
-/

namespace ContextFreePaths.SortedList

variable {α β : Type}

def place (before : α → α → Bool) (a : α) : List α → List α
  | [] => [a]
  | b :: l => if before a b then a :: b :: l else b :: place before a l

def sortBy (before : α → α → Bool) (l : List α) : List α :=
  l.foldr (place before) []

theorem place_perm (before : α → α → Bool) (a : α) (l : List α) :
    (place before a l).Perm (a :: l) := by
  induction l with
  | nil => exact .refl _
  | cons b l ih =>
    unfold place
    split
    · exact .refl _
    · exact (ih.cons b).trans (.swap a b l)

theorem sortBy_perm (before : α → α → Bool) (l : List α) : (sortBy before l).Perm l := by
  induction l with
  | nil => exact .refl _
  | cons a l ih => exact (place_perm before a _).trans (ih.cons a)

theorem pairwise_place {before : α → α → Bool} {a : α} {l : List α}
    (total : ∀ b c, before b c = false → before c b = true)
    (trans : ∀ b c d, before b c = true → before c d = true → before b d = true)
    (h : l.Pairwise (fun b c => before b c = true)) :
    (place before a l).Pairwise (fun b c => before b c = true) := by
  induction l with
  | nil => exact List.pairwise_singleton _ _
  | cons b l ih =>
    obtain ⟨hb, hl⟩ := List.pairwise_cons.mp h
    unfold place
    split
    · next hab =>
      refine List.pairwise_cons.mpr ⟨fun c hc => ?_, h⟩
      rcases List.mem_cons.mp hc with rfl | hc
      · exact hab
      · exact trans a b c hab (hb c hc)
    · next hab =>
      refine List.pairwise_cons.mpr ⟨fun c hc => ?_, ih hl⟩
      rcases List.mem_cons.mp ((place_perm before a l).mem_iff.mp hc) with rfl | hc
      · exact total c b (eq_false_of_ne_true hab)
      · exact hb c hc

theorem pairwise_sortBy {before : α → α → Bool}
    (total : ∀ b c, before b c = false → before c b = true)
    (trans : ∀ b c d, before b c = true → before c d = true → before b d = true) (l : List α) :
    (sortBy before l).Pairwise (fun b c => before b c = true) := by
  induction l with
  | nil => exact .nil
  | cons a l ih => exact pairwise_place total trans ih

theorem sortBy_of_pairwise {before : α → α → Bool} {l : List α}
    (h : l.Pairwise (fun b c => before b c = true)) : sortBy before l = l := by
  induction l with
  | nil => rfl
  | cons a l ih =>
    obtain ⟨ha, hl⟩ := List.pairwise_cons.mp h
    change place before a (sortBy before l) = a :: l
    rw [ih hl]
    cases l with
    | nil => rfl
    | cons b l => exact if_pos (ha b List.mem_cons_self)

theorem map_place {before : β → β → Bool} {f : α → β} {a : α} {l : List α} :
    (place (fun b c => before (f b) (f c)) a l).map f = place before (f a) (l.map f) := by
  induction l with
  | nil => rfl
  | cons b l ih =>
    rw [List.map_cons, place, place]
    split
    · rfl
    · rw [List.map_cons, ih]

theorem map_sortBy {before : β → β → Bool} {f : α → β} {l : List α} :
    (sortBy (fun a b => before (f a) (f b)) l).map f = sortBy before (l.map f) := by
  induction l with
  | nil => rfl
  | cons a l ih =>
    change (place _ a (sortBy _ l)).map f = place before (f a) (sortBy before (l.map f))
    rw [map_place, ih]

theorem filter_place {before : α → α → Bool} {p : α → Bool} {a : α} {l : List α}
    (tied : ∀ b c, p b = true → p c = true → before b c = true) :
    (place before a l).filter p = (a :: l).filter p := by
  induction l with
  | nil => rfl
  | cons b l ih =>
    unfold place
    split
    · rfl
    · next moved =>
      -- No element is moved past one that it may stand before, so `a` and `b` are not both kept.
      rw [List.filter_cons, ih]
      by_cases ha : p a = true
      · have hb : p b = false := eq_false_of_ne_true (fun hb => moved (tied a b ha hb))
        simp [ha, hb]
      · simp [ha, List.filter_cons]

theorem filter_sortBy {before : α → α → Bool} {p : α → Bool} {l : List α}
    (tied : ∀ b c, p b = true → p c = true → before b c = true) :
    (sortBy before l).filter p = l.filter p := by
  induction l with
  | nil => rfl
  | cons a l ih =>
    change (place before a (sortBy before l)).filter p = (a :: l).filter p
    rw [filter_place tied, List.filter_cons, List.filter_cons, ih]

theorem sublist_sortBy_iff {before : α → α → Bool} {p : α → Bool} {l m : List α}
    (tied : ∀ b c, p b = true → p c = true → before b c = true) (hm : ∀ b ∈ m, p b = true) :
    m.Sublist (sortBy before l) ↔ m.Sublist l := by
  have same : m.filter p = m := List.filter_eq_self.mpr hm
  constructor
  · intro h
    have kept := h.filter p
    rw [same, filter_sortBy tied] at kept
    exact kept.trans List.filter_sublist
  · intro h
    have kept := h.filter p
    rw [same, ← filter_sortBy tied] at kept
    exact kept.trans List.filter_sublist

theorem eraseReps_cons_cons [BEq α] {a b : α} {l : List α} :
    (a :: b :: l).eraseReps = if a == b then (a :: l).eraseReps else a :: (b :: l).eraseReps := by
  have loop : ∀ (l : List α) (a : α) (acc : List α), List.eraseRepsBy.loop (· == ·) a l acc =
      acc.reverse ++ List.eraseRepsBy.loop (· == ·) a l [] := by
    intro l
    induction l with
    | nil => simp [List.eraseRepsBy.loop]
    | cons c l ih =>
      intro a acc
      rw [List.eraseRepsBy.loop, List.eraseRepsBy.loop]
      split
      · exact ih a acc
      · rw [ih c (a :: acc), ih c [a], List.reverse_cons, List.append_assoc]
        rfl
  simp only [List.eraseReps, List.eraseRepsBy]
  rw [List.eraseRepsBy.loop]
  split
  · rw [if_pos (by assumption)]
  · rw [if_neg (by simp_all), loop l b [a]]
    rfl

theorem mem_eraseReps [BEq α] [LawfulBEq α] {l : List α} {b : α} : b ∈ l.eraseReps ↔ b ∈ l := by
  cases l with
  | nil => rfl
  | cons a l =>
    induction l generalizing a with
    | nil => rfl
    | cons c l ih =>
      rw [eraseReps_cons_cons]
      split
      · next h =>
        obtain rfl := beq_iff_eq.mp h
        simp [ih]
      · rw [List.mem_cons, ih, List.mem_cons (l := c :: l)]

theorem eraseReps_sublist [BEq α] [LawfulBEq α] (l : List α) : l.eraseReps.Sublist l := by
  cases l with
  | nil => exact .refl []
  | cons a l =>
    induction l generalizing a with
    | nil => exact .refl [a]
    | cons b l ih =>
      rw [eraseReps_cons_cons]
      split
      · next h =>
        obtain rfl := beq_iff_eq.mp h
        exact (ih a).cons a
      · exact (ih b).cons_cons a

theorem nodup_eraseReps_iff [BEq α] [LawfulBEq α] {l : List α} :
    l.eraseReps.Nodup ↔ ∀ a b, [a, b, a].Sublist l → a = b := by
  cases l with
  | nil => simp [List.eraseReps, List.eraseRepsBy]
  | cons c l =>
    induction l generalizing c with
    | nil =>
      constructor
      · intro _ a b h
        have := h.length_le
        simp at this
      · exact fun _ => List.pairwise_singleton _ c
    | cons d l ih =>
      rw [eraseReps_cons_cons]
      split
      · next same =>
        -- The first of two equal neighbours is dropped.
        obtain rfl := beq_iff_eq.mp same
        rw [ih]
        constructor
        · intro apart a b h
          rcases List.sublist_cons_iff.mp h with h | ⟨_, hab, h⟩
          · exact apart a b h
          · obtain ⟨rfl, rfl⟩ := List.cons.inj hab
            rcases List.sublist_cons_iff.mp h with h | ⟨_, hba, _⟩
            · exact apart a b (h.cons_cons a)
            · exact (List.cons.inj hba).1.symm
        · exact fun apart a b h => apart a b (h.cons c)
      · next other =>
        -- The first element is kept, and `d` follows it: it comes again only behind `d`.
        rw [List.nodup_cons, mem_eraseReps, ih]
        constructor
        · rintro ⟨new, apart⟩ a b h
          rcases List.sublist_cons_iff.mp h with h | ⟨_, hab, h⟩
          · exact apart a b h
          · obtain ⟨rfl, rfl⟩ := List.cons.inj hab
            exact absurd (h.subset (List.mem_cons_of_mem b List.mem_cons_self)) new
        · intro apart
          refine ⟨fun mem => ?_, fun a b h => apart a b (h.cons c)⟩
          rcases List.mem_cons.mp mem with rfl | mem
          · exact other (beq_self_eq_true c)
          · have between := ((List.singleton_sublist.mpr mem).cons_cons d).cons_cons c
            exact other (beq_iff_eq.mpr (apart c d between))

theorem nodup_eraseReps_sortBy_iff [BEq α] [LawfulBEq α] {before : α → α → Bool} {l : List α}
    (total : ∀ b c, before b c = false → before c b = true)
    (trans : ∀ b c d, before b c = true → before c d = true → before b d = true) :
    (sortBy before l).eraseReps.Nodup ↔
      ∀ a b, [a, b, a].Sublist l → before a b = true → before b a = true → a = b := by
  have refl : ∀ a, before a a = true := fun a =>
    (Bool.eq_false_or_eq_true (before a a)).elim id (total a a)
  -- Around `a` and `b` those elements count that are tied with `a`.
  have moved : ∀ a b, before a b = true → before b a = true →
      ([a, b, a].Sublist (sortBy before l) ↔ [a, b, a].Sublist l) := by
    intro a b hab hba
    apply sublist_sortBy_iff (p := fun c => before a c && before c a)
    · intro c d hc hd
      rw [Bool.and_eq_true] at hc hd
      exact trans c a d hc.2 hd.1
    · simp [hab, hba, refl]
  rw [nodup_eraseReps_iff]
  constructor
  · exact fun apart a b h hab hba => apart a b ((moved a b hab hba).mpr h)
  · intro apart a b h
    have sorted := (pairwise_sortBy total trans l).sublist h
    obtain ⟨ha, hb⟩ := List.pairwise_cons.mp sorted
    have hab : before a b = true := ha b List.mem_cons_self
    have hba : before b a = true := (List.pairwise_cons.mp hb).1 a List.mem_cons_self
    exact apart a b ((moved a b hab hba).mp h) hab hba

theorem mem_of_lookup [BEq α] [LawfulBEq α] {k : α} {v : β} {l : List (α × β)}
    (h : l.lookup k = some v) : (k, v) ∈ l := by
  obtain ⟨l₁, l₂, rfl, _⟩ := List.lookup_eq_some_iff.mp h
  exact List.mem_append_right l₁ List.mem_cons_self

theorem lookup_cons [BEq α] {k k' : α} {v : β} {l : List (α × β)} :
    ((k', v) :: l).lookup k = if k == k' then some v else l.lookup k := by
  rw [List.lookup_cons]
  cases k == k' <;> rfl

theorem lookup_map {γ : Type} [BEq α] [LawfulBEq α] {k : α} {f : α → β → γ} {l : List (α × β)} :
    (l.map (fun p => (p.1, f p.1 p.2))).lookup k = (l.lookup k).map (f k) := by
  induction l with
  | nil => rfl
  | cons p l ih =>
    obtain ⟨k', v⟩ := p
    rw [List.map_cons, lookup_cons, lookup_cons, ih]
    split
    · next h =>
      rw [beq_iff_eq.mp h]
      rfl
    · rfl

theorem lookup_of_mem [BEq α] [LawfulBEq α] {k : α} {v : β} {l : List (α × β)}
    (h : (l.map Prod.fst).Nodup) (mem : (k, v) ∈ l) : l.lookup k = some v := by
  induction l with
  | nil => exact absurd mem List.not_mem_nil
  | cons p l ih =>
    obtain ⟨c, w⟩ := p
    have hp := List.nodup_cons.mp h
    rw [lookup_cons]
    rcases List.mem_cons.mp mem with heq | rest
    · obtain ⟨rfl, rfl⟩ := Prod.mk.inj heq
      rw [beq_self_eq_true, if_pos rfl]
    · have hne : (k == c) = false := by
        rw [beq_eq_false_iff_ne]
        rintro rfl
        exact hp.1 (List.mem_map.mpr ⟨(k, v), rest, rfl⟩)
      rw [hne, if_neg Bool.false_ne_true]
      exact ih hp.2 rest

variable [Ord α]

def sort (l : List α) : List α :=
  sortBy (fun a b => (compare a b).isLE) l

def insert (a : α) : List α → List α
  | [] => [a]
  | b :: l =>
    match compare a b with
    | .lt => a :: b :: l
    | .eq => b :: l
    | .gt => b :: insert a l

def ofList (l : List α) : List α :=
  l.foldr insert []

def Ascending (l : List α) : Prop :=
  l.Pairwise (fun a b => compare a b = .lt)

def alter (k : α) (f : Option β → β) : List (α × β) → List (α × β)
  | [] => [(k, f none)]
  | (k', v) :: l =>
    match compare k k' with
    | .lt => (k, f none) :: (k', v) :: l
    | .eq => (k', f (some v)) :: l
    | .gt => (k', v) :: alter k f l

theorem mem_insert [Std.LawfulEqOrd α] {a b : α} {l : List α} :
    b ∈ insert a l ↔ b = a ∨ b ∈ l := by
  induction l with
  | nil => simp [insert]
  | cons c l ih =>
    unfold insert
    split
    · simp
    · next h =>
      rw [Std.compare_eq_iff_eq] at h
      simp [h]
    · simp only [List.mem_cons, ih]
      exact or_left_comm

theorem mem_ofList [Std.LawfulEqOrd α] {a : α} {l : List α} : a ∈ ofList l ↔ a ∈ l := by
  induction l with
  | nil => simp [ofList]
  | cons b l ih =>
    rw [List.mem_cons, ← ih]
    exact mem_insert

theorem ascending_insert [Std.TransOrd α] [Std.LawfulEqOrd α] {a : α} {l : List α}
    (h : Ascending l) : Ascending (insert a l) := by
  induction l with
  | nil => simp [insert, Ascending]
  | cons b l ih =>
    have hb := List.pairwise_cons.mp h
    unfold insert
    split
    · next hab =>
      refine List.pairwise_cons.mpr ⟨fun c hc => ?_, h⟩
      rcases List.mem_cons.mp hc with rfl | hc
      · exact hab
      · exact Std.TransCmp.lt_trans hab (hb.1 c hc)
    · exact h
    · next hab =>
      refine List.pairwise_cons.mpr ⟨fun c hc => ?_, ih hb.2⟩
      rcases mem_insert.mp hc with rfl | hc
      · exact Std.OrientedCmp.lt_of_gt hab
      · exact hb.1 c hc

theorem ascending_ofList [Std.TransOrd α] [Std.LawfulEqOrd α] (l : List α) :
    Ascending (ofList l) := by
  induction l with
  | nil => exact List.Pairwise.nil
  | cons a l ih => exact ascending_insert ih

theorem Ascending.nodup [Std.TransOrd α] {l : List α} (h : Ascending l) : l.Nodup := by
  refine List.Pairwise.imp ?_ h
  rintro a b hab rfl
  simp at hab

theorem eq_of_ascending [Std.TransOrd α] {l l' : List α} (h : Ascending l) (h' : Ascending l')
    (hm : ∀ a, a ∈ l ↔ a ∈ l') : l = l' := by
  refine List.Perm.eq_of_pairwise (fun a b _ _ hab hba => ?_) h h'
    ((List.perm_ext_iff_of_nodup h.nodup h'.nodup).mpr hm)
  exact absurd hba (Std.OrientedCmp.not_lt_of_lt hab)

section Key

variable {γ : Type} [Ord γ] [Std.TransOrd γ]

theorem isLE_total (key : β → γ) (b c : β) (h : (compare (key b) (key c)).isLE = false) :
    (compare (key c) (key b)).isLE = true :=
  Ordering.isLE_of_eq_lt (Std.OrientedCmp.lt_of_gt (Ordering.isLE_eq_false.mp h))

theorem pairwise_sortBy_key (key : β → γ) (l : List β) :
    (sortBy (fun b c => (compare (key b) (key c)).isLE) l).Pairwise
      (fun b c => (compare (key b) (key c)).isLE = true) :=
  pairwise_sortBy (isLE_total key) (fun _ _ _ => Std.TransCmp.isLE_trans) l

theorem nodup_eraseReps_sortBy_key_iff [Std.LawfulEqOrd γ] [BEq β] [LawfulBEq β] (key : β → γ)
    {l : List β} : (sortBy (fun b c => (compare (key b) (key c)).isLE) l).eraseReps.Nodup ↔
      ∀ b c, [b, c, b].Sublist l → key b = key c → b = c := by
  rw [nodup_eraseReps_sortBy_iff (isLE_total key) (fun _ _ _ => Std.TransCmp.isLE_trans)]
  constructor
  · intro apart b c h same
    have tied : (compare (key b) (key c)).isLE = true ∧ (compare (key c) (key b)).isLE = true := by
      rw [same, Std.compare_self]
      exact ⟨rfl, rfl⟩
    exact apart b c h tied.1 tied.2
  · intro apart b c h hbc hcb
    exact apart b c h (Std.compare_eq_iff_eq.mp (Std.OrientedCmp.isLE_antisymm hbc hcb))

end Key

theorem pairwise_sort [Std.TransOrd α] (l : List α) :
    (sort l).Pairwise (fun a b => (compare a b).isLE = true) :=
  pairwise_sortBy_key id l

theorem ascending_eraseReps [Std.TransOrd α] [Std.LawfulEqOrd α] [BEq α] [LawfulBEq α] {l : List α}
    (h : l.Pairwise (fun a b => (compare a b).isLE = true)) : Ascending l.eraseReps := by
  cases l with
  | nil => exact .nil
  | cons a l =>
    induction l generalizing a with
    | nil => exact List.pairwise_singleton _ _
    | cons b l ih =>
      obtain ⟨ha, hl⟩ := List.pairwise_cons.mp h
      obtain ⟨hb, tail⟩ := List.pairwise_cons.mp hl
      rw [eraseReps_cons_cons]
      split
      · exact ih a (List.pairwise_cons.mpr ⟨fun c hc => ha c (List.mem_cons_of_mem b hc), tail⟩)
      · next hne =>
        have hab : compare a b = .lt := by
          rcases Ordering.isLE_iff_eq_lt_or_eq_eq.mp (ha b List.mem_cons_self) with lt | eq
          · exact lt
          · exact absurd (beq_iff_eq.mpr (Std.compare_eq_iff_eq.mp eq)) hne
        refine List.pairwise_cons.mpr ⟨fun c hc => ?_, ih b hl⟩
        rcases List.mem_cons.mp (mem_eraseReps.mp hc) with rfl | hc
        · exact hab
        · exact Std.TransCmp.lt_of_lt_of_isLE hab (hb c hc)

theorem sort_of_ascending {l : List α} (h : Ascending l) : sort l = l :=
  sortBy_of_pairwise (h.imp Ordering.isLE_of_eq_lt)

theorem eraseReps_of_ascending [Std.TransOrd α] [BEq α] [LawfulBEq α] {l : List α}
    (h : Ascending l) : l.eraseReps = l := by
  cases l with
  | nil => rfl
  | cons a l =>
    induction l generalizing a with
    | nil => rfl
    | cons b l ih =>
      obtain ⟨ha, hl⟩ := List.pairwise_cons.mp h
      have hne : ¬(a == b) = true := by
        intro heq
        have hab := ha b List.mem_cons_self
        rw [beq_iff_eq.mp heq, Std.compare_self] at hab
        contradiction
      rw [eraseReps_cons_cons, if_neg hne, ih b hl]

theorem keys_alter [Std.LawfulEqOrd α] {k : α} {f : Option β → β} {l : List (α × β)} :
    (alter k f l).map Prod.fst = insert k (l.map Prod.fst) := by
  induction l with
  | nil => rfl
  | cons p l ih =>
    simp only [alter, List.map_cons, insert]
    split
    · rfl
    · rfl
    · rw [List.map_cons, ih]

theorem lookup_eq_none [Std.LawfulEqOrd α] [BEq α] [LawfulBEq α] {k : α} {l : List (α × β)}
    (h : ∀ k' ∈ l.map Prod.fst, compare k k' = .lt) : l.lookup k = none := by
  rw [List.lookup_eq_none_iff]
  intro p hp
  have := h p.1 (List.mem_map_of_mem hp)
  rw [bne_iff_ne]
  rintro e
  simp [e] at this

theorem lookup_alter [Std.TransOrd α] [Std.LawfulEqOrd α] [BEq α] [LawfulBEq α] {k k' : α}
    {f : Option β → β} {l : List (α × β)} (h : Ascending (l.map Prod.fst)) :
    (alter k f l).lookup k' = if k' == k then some (f (l.lookup k)) else l.lookup k' := by
  induction l with
  | nil =>
    rw [alter, lookup_cons]
    simp
  | cons p l ih =>
    obtain ⟨c, v⟩ := p
    have hp := List.pairwise_cons.mp h
    unfold alter
    split
    · next hk =>
      have : List.lookup k ((c, v) :: l) = none := by
        apply lookup_eq_none
        intro c' hc
        rcases List.mem_cons.mp hc with rfl | hc
        · exact hk
        · exact Std.TransCmp.lt_trans hk (hp.1 c' hc)
      rw [this, lookup_cons]
    · next hk =>
      rw [Std.compare_eq_iff_eq] at hk
      subst hk
      simp only [lookup_cons, beq_self_eq_true, if_true]
      split
      · rfl
      · rfl
    · next hk =>
      have hne : (k == c) = false := by
        rw [beq_eq_false_iff_ne]
        rintro rfl
        simp at hk
      simp only [lookup_cons, ih hp.2, hne]
      split
      · next e =>
        rw [beq_iff_eq.mp e, BEq.comm, hne]
        rfl
      · rfl

theorem mem_iff_lookup [Std.TransOrd α] [BEq α] [LawfulBEq α] {k : α} {v : β} {l : List (α × β)}
    (h : Ascending (l.map Prod.fst)) : (k, v) ∈ l ↔ l.lookup k = some v :=
  ⟨lookup_of_mem h.nodup, mem_of_lookup⟩

theorem eq_of_lookup [Std.TransOrd α] [BEq α] [LawfulBEq α] {l l' : List (α × β)}
    (h : Ascending (l.map Prod.fst)) (h' : Ascending (l'.map Prod.fst))
    (hl : ∀ k, l.lookup k = l'.lookup k) : l = l' := by
  have nodup : ∀ {m : List (α × β)}, Ascending (m.map Prod.fst) → m.Nodup := by
    intro m hm
    refine (List.pairwise_map.mp hm).imp ?_
    rintro p _ hp rfl
    simp at hp
  have mem : ∀ p, p ∈ l ↔ p ∈ l' := by
    rintro ⟨k, v⟩
    rw [mem_iff_lookup h, mem_iff_lookup h', hl]
  refine List.Perm.eq_of_pairwise (fun p q _ _ hpq hqp => ?_) (List.pairwise_map.mp h)
    (List.pairwise_map.mp h') ((List.perm_ext_iff_of_nodup (nodup h) (nodup h')).mpr mem)
  exact absurd hqp (Std.OrientedCmp.not_lt_of_lt hpq)

end ContextFreePaths.SortedList
