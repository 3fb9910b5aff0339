namespace ContextFreePaths.FirstSeen

theorem nodup_eraseDups {α : Type} [BEq α] [LawfulBEq α] (l : List α) : l.eraseDups.Nodup := by
  match l with
  | [] => exact List.nodup_nil
  | a :: l =>
    rw [List.eraseDups_cons, List.nodup_cons]
    exact ⟨by simp, nodup_eraseDups _⟩
termination_by l.length
decreasing_by exact Nat.lt_succ_of_le (List.length_filter_le _ l)

variable {α : Type} [DecidableEq α]

def add (l : List α) (a : α) : List α :=
  if a ∈ l then l else l ++ [a]

theorem mem_add {l : List α} {a b : α} : b ∈ add l a ↔ b ∈ l ∨ b = a := by
  unfold add
  split <;> simp_all

theorem nodup_add {l : List α} {a : α} (h : l.Nodup) : (add l a).Nodup := by
  unfold add
  split
  · exact h
  · next ha =>
    rw [List.nodup_append]
    refine ⟨h, by simp, ?_⟩
    rintro b hb c hc rfl
    exact ha (List.mem_singleton.mp hc ▸ hb)

def ofList (l : List α) : List α :=
  l.foldl add []

theorem ofList_concat {l : List α} {a : α} : ofList (l ++ [a]) = add (ofList l) a := by
  simp [ofList]

theorem mem_foldl_add {l m : List α} {a : α} : a ∈ l.foldl add m ↔ a ∈ m ∨ a ∈ l := by
  induction l generalizing m with
  | nil => simp
  | cons b l ih => simp only [List.foldl_cons, ih, mem_add, List.mem_cons, or_assoc]

theorem nodup_foldl_add {l m : List α} (h : m.Nodup) : (l.foldl add m).Nodup := by
  induction l generalizing m with
  | nil => exact h
  | cons _ _ ih => exact ih (nodup_add h)

theorem mem_ofList {l : List α} {a : α} : a ∈ ofList l ↔ a ∈ l := by
  simp [ofList, mem_foldl_add]

theorem nodup_ofList {l : List α} : (ofList l).Nodup :=
  nodup_foldl_add List.nodup_nil

theorem foldl_add_of_nodup {l m : List α} (h : (m ++ l).Nodup) : l.foldl add m = m ++ l := by
  induction l generalizing m with
  | nil => exact (List.append_nil m).symm
  | cons a l ih =>
    have new : a ∉ m := fun mem => (List.nodup_append.mp h).2.2 a mem a List.mem_cons_self rfl
    rw [List.foldl_cons, add, if_neg new, ih (by rwa [List.append_assoc]), List.append_assoc]
    rfl

theorem ofList_of_nodup {l : List α} (h : l.Nodup) : ofList l = l :=
  foldl_add_of_nodup (m := []) h

theorem idxOf?_eq_some {l : List α} {a : α} {i : Nat} (h : l.Nodup) :
    l.idxOf? a = some i ↔ l[i]? = some a := by
  rw [List.idxOf?_eq_some_iff, List.getElem?_eq_some_iff]
  constructor
  · rintro ⟨hi, ha, _⟩
    exact ⟨hi, ha⟩
  · rintro ⟨hi, ha⟩
    refine ⟨hi, ha, fun j hj hja => ?_⟩
    have := (List.getElem_inj h).mp (hja.trans ha.symm)
    omega

theorem foldl_add_eq_append {l m : List α} : ∃ n, l.foldl add m = m ++ n := by
  induction l generalizing m with
  | nil => exact ⟨[], (List.append_nil m).symm⟩
  | cons a l ih =>
    obtain ⟨n, hn⟩ := ih (m := add m a)
    rw [List.foldl_cons, hn]
    unfold add
    split
    · exact ⟨n, rfl⟩
    · exact ⟨a :: n, by simp⟩

theorem head_ofList {l : List α} {a : α} : (ofList (a :: l))[0]? = some a := by
  obtain ⟨n, hn⟩ := foldl_add_eq_append (l := l) (m := [a])
  have h : ofList (a :: l) = l.foldl add [a] := by simp [ofList, add]
  rw [h, hn]
  rfl

end ContextFreePaths.FirstSeen
