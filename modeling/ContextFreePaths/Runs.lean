namespace ContextFreePaths

theorem exists_foldlM {β γ : Type} {f : β → γ → Option β} {l : List γ} {b : β}
    (p : List γ → β → Prop) (nil : p [] b)
    (step : ∀ done c b, c ∈ l → p done b → ∃ b', f b c = some b' ∧ p (done ++ [c]) b') :
    ∃ b', l.foldlM f b = some b' ∧ p l b' := by
  have run : ∀ rest done b, (∀ c ∈ rest, c ∈ l) → p done b →
      ∃ b', rest.foldlM f b = some b' ∧ p (done ++ rest) b' := by
    intro rest
    induction rest with
    | nil =>
      intro done b _ hb
      exact ⟨b, rfl, by rwa [List.append_nil]⟩
    | cons c rest ih =>
      intro done b hrest hb
      rw [List.forall_mem_cons] at hrest
      obtain ⟨b₁, h₁, hb₁⟩ := step done c b hrest.1 hb
      obtain ⟨b₂, h₂, hb₂⟩ := ih (done ++ [c]) b₁ hrest.2 hb₁
      refine ⟨b₂, ?_, ?_⟩
      · rw [List.foldlM_cons, h₁]
        exact h₂
      · rwa [List.append_assoc] at hb₂
  exact run l [] b (fun _ => id) nil

theorem foldlM_keeps {β γ δ : Type} {f : β → γ → Option β} {l : List γ} {b b' : β} (g : β → δ)
    (keeps : ∀ b c b', f b c = some b' → g b' = g b) (run : l.foldlM f b = some b') :
    g b' = g b := by
  induction l generalizing b with
  | nil => rw [Option.some.inj run]
  | cons c l ih =>
    rw [List.foldlM_cons] at run
    obtain ⟨b₁, h₁, rest⟩ := Option.bind_eq_some_iff.mp run
    rw [ih rest, keeps b c b₁ h₁]

theorem mapM_eq_some_iff {β γ : Type} {f : β → Option γ} {l : List β} {l' : List γ} :
    l.mapM f = some l' ↔ l.map f = l'.map some := by
  induction l generalizing l' with
  | nil => cases l' <;> simp
  | cons b l ih =>
    rw [List.mapM_cons, List.map_cons]
    cases f b with
    | none => cases l' <;> simp
    | some c =>
      cases l' with
      | nil => cases l.mapM f <;> simp
      | cons c' l' =>
        rw [List.map_cons, List.cons.injEq, ← ih]
        cases l.mapM f <;> simp

theorem countP_lt_countP {β : Type} {q r : β → Bool} {l : List β} {b : β} (hb : b ∈ l)
    (hq : q b = false) (hr : r b = true) (h : ∀ c ∈ l, q c = true → r c = true) :
    l.countP q < l.countP r := by
  obtain ⟨l₁, l₂, rfl⟩ := List.append_of_mem hb
  have front := List.countP_mono_left (fun c hc => h c (List.mem_append_left _ hc))
  have back := List.countP_mono_left
    (fun c hc => h c (List.mem_append_right _ (List.mem_cons_of_mem _ hc)))
  simp only [List.countP_append, List.countP_cons, hq, hr]
  simp only [Bool.false_eq_true, ↓reduceIte]
  omega

end ContextFreePaths
