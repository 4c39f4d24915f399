import FieldFormula.Proofs.Reading.Operand

/-!
Texts of scripts that are operands with operators between them, whatever was meant to belong
together. Precedence makes one tree of such a text: an operator that is added at its end takes as
much of the text before it as binds tightly enough. Main statement: two such texts with an operator
between them are such a text again, and the root of its tree is one of the operators
(`Linked.append`).
-/
namespace FieldFormula.Reading

def Link.isBare : Link → Bool
  | binary .concat | binary .power | orElse | comma => false
  | _ => true

section
variable {op : Link}

theorem Link.mem_links_of_isBare (h : op.isBare = true) : op ∈ links .script := by
  cases op with
  | binary op => cases op <;> first | decide | cases h
  | loose negated => cases negated <;> decide
  | orElse | comma => cases h

theorem Link.level_of_isBare (h : op.isBare = true) :
    3 ≤ op.level .script ∧ op.level .script ≤ 8 := by
  cases op with
  | binary op => cases op <;> first | decide | cases h
  | loose negated => cases negated <;> decide
  | orElse | comma => cases h

end

/-- The text is operands with operators between them, and `P` holds for the operands. It is read as
the tree, whose root binds as tightly as the level says. -/
inductive Linked (P : Tree → Prop) : String → Tree → Nat → Prop where
  | operand {s : String} {t : Tree} : Operand .script s t 10 10 → P t → Linked P s t 10
  | link {op : Link} {s t : String} {a b : Tree} {i j : Nat} : op.isBare = true →
      Linked P s a i → Linked P t b j → op.level .script ≤ i → op.level .script < j →
      Linked P (s ++ op.spelling .script ++ t) (.link op a b) (op.level .script)

variable {P : Tree → Prop} {op : Link} {s t : String} {a b : Tree} {i j : Nat}

theorem Linked.toOperand (h : Linked P s a i) : Operand .script s a i i := by
  induction h with
  | operand h _ => exact h
  | @link op _ _ _ _ _ _ hop _ _ hi hj ihs iht =>
    have hchains : op.chains .script = true := by cases op <;> rfl
    have hne : op ≠ .orElse := by
      rintro rfl
      cases hop
    exact ihs.link iht (Link.mem_links_of_isBare hop) hne (by rw [if_pos hchains]; exact hi)
      (Nat.le_of_lt hj) hj

theorem Linked.three_le (h : Linked P s a i) : 3 ≤ i := by
  cases h with
  | operand _ _ => decide
  | link hop _ _ _ _ => exact (Link.level_of_isBare hop).1

theorem Linked.all (h : Linked P s a i)
    (hlink : ∀ op a b, op.isBare = true → P a → P b → P (.link op a b)) : P a := by
  induction h with
  | operand _ h => exact h
  | link hop _ _ _ _ ihs iht => exact hlink _ _ _ hop ihs iht

theorem Linked.concat (hs : Linked P s a i) (hop : op.isBare = true)
    (ht : Operand .script t b 10 10) (hb : P b) :
    ∃ op' l r k, op'.isBare = true ∧ min i (op.level .script) ≤ k ∧
      Linked P (s ++ op.spelling .script ++ t) (.link op' l r) k := by
  have hlevel := (Link.level_of_isBare hop).2
  induction hs with
  | operand hs ha =>
    have hlinked := Linked.link hop (.operand hs ha) (.operand ht hb) (by omega) (by omega)
    exact ⟨op, _, _, _, hop, Nat.min_le_right _ _, hlinked⟩
  | @link o s u _ _ i j ho hs hu hi hj _ ihu =>
    by_cases hle : op.level .script ≤ o.level .script
    · have hlinked := Linked.link hop (.link ho hs hu hi hj) (.operand ht hb) hle (by omega)
      exact ⟨op, _, _, _, hop, Nat.min_le_right _ _, hlinked⟩
    · -- the new operator reaches into the right operand of the last one
      obtain ⟨_, _, _, k, -, hk, hright⟩ := ihu
      have hassoc : s ++ o.spelling .script ++ u ++ op.spelling .script ++ t =
          s ++ o.spelling .script ++ (u ++ op.spelling .script ++ t) := by
        simp only [String.append_assoc]
      have hlinked := Linked.link ho hs hright hi (by omega)
      rw [← hassoc] at hlinked
      exact ⟨o, _, _, _, ho, Nat.min_le_left _ _, hlinked⟩

theorem Linked.append (hs : Linked P s a i) (hop : op.isBare = true) (ht : Linked P t b j) :
    ∃ op' l r k, op'.isBare = true ∧
      Linked P (s ++ op.spelling .script ++ t) (.link op' l r) k := by
  induction ht generalizing op s a i with
  | operand ht hb =>
    obtain ⟨op', l, r, k, hop', -, hlinked⟩ := hs.concat hop ht hb
    exact ⟨op', l, r, k, hop', hlinked⟩
  | @link o t u _ _ _ _ ho _ _ _ _ iht ihu =>
    obtain ⟨_, _, _, _, -, hfirst⟩ := iht hs hop
    have hassoc : s ++ op.spelling .script ++ (t ++ o.spelling .script ++ u) =
        s ++ op.spelling .script ++ t ++ o.spelling .script ++ u := by
      simp only [String.append_assoc]
    rw [hassoc]
    exact ihu hfirst ho

end FieldFormula.Reading
