namespace LowPrecision

def weigh {β : Type} (weight : β → Nat) (p : β → Bool) (xs : List β) : Nat :=
  xs.foldr (fun x total => if p x then weight x + total else total) 0

variable {β : Type} {p q : β → Bool} {v w : β → Nat} {xs ys : List β} {a : β}

@[simp] theorem weigh_nil : weigh w p [] = 0 := rfl

theorem weigh_cons : weigh w p (a :: xs) = if p a then w a + weigh w p xs else weigh w p xs := rfl

theorem weigh_append : weigh w p (xs ++ ys) = weigh w p xs + weigh w p ys := by
  induction xs with
  | nil => simp
  | cons x xs ih =>
    rw [List.cons_append, weigh_cons, weigh_cons, ih]
    split
    · rw [Nat.add_assoc]
    · rfl

theorem weigh_le (h : ∀ x ∈ xs, p x = true → q x = true ∧ v x ≤ w x) :
    weigh v p xs ≤ weigh w q xs := by
  induction xs with
  | nil => exact Nat.le_refl _
  | cons x xs ih =>
    have hrest := ih fun y hy => h y (List.mem_cons_of_mem _ hy)
    have hx := h x List.mem_cons_self
    rw [weigh_cons, weigh_cons]
    cases hp : p x with
    | true =>
      rw [if_pos rfl, if_pos (hx hp).1]
      exact Nat.add_le_add (hx hp).2 hrest
    | false =>
      rw [if_neg Bool.false_ne_true]
      split
      · exact Nat.le_trans hrest (Nat.le_add_left _ _)
      · exact hrest

theorem weigh_add_le (ha : a ∈ xs) (h : ∀ x ∈ xs, p x = true → q x = true ∧ v x ≤ w x)
    (hp : p a = false) (hq : q a = true) : weigh v p xs + w a ≤ weigh w q xs := by
  obtain ⟨before, after, rfl⟩ := List.append_of_mem ha
  have hl : weigh v p before ≤ weigh w q before :=
    weigh_le fun x hx => h x (List.mem_append_left _ hx)
  have hr : weigh v p after ≤ weigh w q after :=
    weigh_le fun x hx => h x (List.mem_append_right _ (List.mem_cons_of_mem _ hx))
  simp only [weigh_append, weigh_cons, hp, hq, Bool.false_eq_true, ↓reduceIte]
  omega

end LowPrecision
