/-!
What several parts of the theory use of lists and of computations with a state. Two computations
that run in step agree when both give a value or both fail, so what is proved of the steps of a
program holds of the two runs as a whole (`Agree.bind`).
-/
namespace FieldFormula

/-- The companion on lists of a function on trees whose nodes have lists of others. -/
theorem eq_map_of_cons {α β : Type} {f : List α → List β} {g : α → β} (hnil : f [] = [])
    (hcons : ∀ x xs, f (x :: xs) = g x :: f xs) (xs : List α) : f xs = xs.map g := by
  induction xs with
  | nil => exact hnil
  | cons x xs ih => rw [hcons, ih, List.map_cons]

section
variable {ε δ σ τ α β α' β' : Type} {S : σ → τ → Prop} {E : ε → δ → Prop} {R : α → β → Prop}
  {R' : α' → β' → Prop}

theorem bind_eq_ok {m : EStateM ε σ α} {f : α → EStateM ε σ β} {s u : σ} {b : β} :
    (m >>= f) s = .ok b u ↔ ∃ a t, m s = .ok a t ∧ f a t = .ok b u := by
  simp only [Bind.bind, EStateM.bind]
  constructor
  · intro h
    split at h
    · rename_i a t hm
      exact ⟨a, t, hm, h⟩
    · cases h
  · rintro ⟨a, t, hm, hf⟩
    rw [hm]
    exact hf

/-- Both answers are values related by `R`, and the states behind them by `S`, or both are errors
related by `E`. -/
inductive Agree (S : σ → τ → Prop) (E : ε → δ → Prop) (R : α → β → Prop) :
    EStateM.Result ε σ α → EStateM.Result δ τ β → Prop where
  | ok {a : α} {b : β} {s : σ} {t : τ} : R a b → S s t → Agree S E R (.ok a s) (.ok b t)
  | error {e : ε} {d : δ} {s : σ} {t : τ} : E e d → Agree S E R (.error e s) (.error d t)

theorem Agree.bind {m : EStateM ε σ α} {m' : EStateM δ τ β} {f : α → EStateM ε σ α'}
    {f' : β → EStateM δ τ β'} {s : σ} {t : τ} (hm : Agree S E R (m s) (m' t))
    (hf : ∀ a b s t, R a b → S s t → Agree S E R' (f a s) (f' b t)) :
    Agree S E R' ((m >>= f) s) ((m' >>= f') t) := by
  simp only [Bind.bind, EStateM.bind]
  generalize m s = x at hm ⊢
  generalize m' t = y at hm ⊢
  cases hm with
  | ok hR hS => exact hf _ _ _ _ hR hS
  | error hE => exact .error hE

end

end FieldFormula
