import Mathlib.Data.List.Induction

/-!
# Computations that may stop with a fault
-/

namespace Fallible

variable {ε ε' α β : Type}

theorem bind_error {x : Except ε α} {f : α → Except ε β} {e : ε} (h : x >>= f = .error e) :
    x = .error e ∨ ∃ a, x = .ok a ∧ f a = .error e := by
  cases x with
  | error e' => exact .inl (congrArg Except.error (Except.error.inj h))
  | ok a => exact .inr ⟨a,rfl,h⟩

theorem bind_ok {x : Except ε α} {f : α → Except ε β} {b : β} (h : x >>= f = .ok b) :
    ∃ a, x = .ok a ∧ f a = .ok b := by
  cases x with
  | error e' => exact absurd h (by simp [bind,Except.bind])
  | ok a => exact ⟨a,rfl,h⟩

theorem mapError_error {f : ε → ε'} {x : Except ε α} {e' : ε'} (h : x.mapError f = .error e') :
    ∃ e, x = .error e ∧ f e = e' := by
  cases x with
  | error e => exact ⟨e,rfl,Except.error.inj h⟩
  | ok a => exact absurd h (by simp [Except.mapError])

theorem mapError_ok {f : ε → ε'} {x : Except ε α} {a : α} (h : x.mapError f = .ok a) : x = .ok a := by
  cases x with
  | error e => exact absurd h (by simp [Except.mapError])
  | ok b => exact congrArg Except.ok (Except.ok.inj h)

theorem mapM_stop {f : α → Except ε β} {g : α → β} {l l' : List α} {a : α} {e : ε}
    (h : ∀ b ∈ l, f b = .ok (g b)) (ha : f a = .error e) : (l ++ a::l').mapM f = .error e := by
  induction l with
  | nil =>
    rw [List.nil_append,List.mapM_cons,ha]
    rfl
  | cons b l ih =>
    have hl := ih fun c hc => h c (List.mem_cons_of_mem b hc)
    rw [List.cons_append,List.mapM_cons,h b List.mem_cons_self,hl]
    rfl

theorem mapM_ok {f : α → Except ε β} {g : α → β} {l : List α} (h : ∀ a ∈ l, f a = .ok (g a)) :
    l.mapM f = .ok (l.map g) := by
  induction l with
  | nil => rfl
  | cons a l ih =>
    have hl := ih fun b hb => h b (List.mem_cons_of_mem a hb)
    rw [List.mapM_cons,h a List.mem_cons_self,hl]
    rfl

/-- A loop over the positions of a list whose turns go through is the loop over its elements. -/
theorem foldlM_range {m : Type → Type} [Monad m] [LawfulMonad m] {f : β → ℕ → m β}
    {g : β → α → β} {l : List α} (h : ∀ i, (hi : i < l.length) → ∀ b, f b i = pure (g b l[i]))
    (b : β) : (List.range l.length).foldlM f b = pure (l.foldl g b) := by
  induction l using List.reverseRecOn generalizing b with
  | nil => rfl
  | append_singleton l a ih =>
    have hinit : ∀ i, (hi : i < l.length) → ∀ b, f b i = pure (g b l[i]) := by
      intro i hi b
      rw [h i (List.length_append.symm ▸ Nat.lt_add_right 1 hi),List.getElem_append_left hi]
    have hlast : ∀ b, f b l.length = pure (g b a) := by
      intro b
      rw [h l.length (by simp),List.getElem_concat_length rfl]
    rw [List.length_append,List.length_singleton,List.range_succ,List.foldlM_append,ih hinit,
      List.foldl_append]
    simp only [pure_bind,List.foldlM_cons,List.foldlM_nil,hlast,List.foldl_cons,List.foldl_nil]

end Fallible
