import FieldFormula.Proofs.Logic.Scanning

/-!
What joined texts are read as. Where the texts of two terms stand around an operator, the operator
takes only so much of either side as binds tightly enough: a conjunction reaches into a bare
disjunction. Main statement: the term so read is well formed and has the joined text
(`text_disjoin`, `text_conjoin`), and it means the disjunction or conjunction of the two terms
unless a conjunction is joined to a bare disjunction (`eval_disjoin`, `eval_conjoin`).
-/
namespace FieldFormula.Logic.Term

def disjoin (t : Term) : Term → Term
  | binary .or l r => binary .or (t.disjoin l) r
  | u => binary .or t u

def attach (t : Term) : Term → Term
  | binary .or l r => binary .or (t.attach l) r
  | binary .and l r => binary .and (t.attach l) r
  | u => binary .and t u

def conjoin : Term → Term → Term
  | binary .or l r, u => l.disjoin (r.attach u)
  | t, u => t.attach u

def joinAll (join : Term → Term → Term) : List Term → Term
  | [] => constant false
  | t :: ts => ts.foldl join t

structure WellFormed (target : Target) (t : Term) : Prop where
  graded : t.Graded
  unmixed : t.unmixed = true
  of : t.Of target
  plain : ∀ l r, t ≠ binary .orElse l r

section
variable {target : Target} {t u : Term}

theorem one_le_level (t : Term) : 1 ≤ t.level := by
  cases t with
  | binary op l r => cases op <;> simp [level, Connective.level]
  | _ => simp [level]

theorem WellFormed.two_le_level (h : t.WellFormed target) (hne : ∀ l r, t ≠ binary .or l r) :
    2 ≤ t.level := by
  cases t with
  | binary op l r =>
    cases op with
    | and => exact Nat.le_refl 2
    | or => exact absurd rfl (hne l r)
    | orElse => exact absurd rfl (h.plain l r)
  | _ => simp [level]

theorem clashes_eq_false {op : Connective} (hop : op ≠ .orElse)
    (h : ∀ l r, t ≠ binary .orElse l r) : t.clashes op = false := by
  cases t with
  | binary other l r =>
    have hother : other ≠ .orElse := fun ho => h l r (by rw [ho])
    rw [clashes, beq_eq_false_iff_ne.2 hop, beq_eq_false_iff_ne.2 hother]
    rfl
  | _ => rfl

theorem wellFormed_binary {op : Connective} {l r : Term} (hop : op ≠ .orElse)
    (hl : l.WellFormed target) (hr : r.WellFormed target) (hle : op.level ≤ l.level)
    (hlt : op.level < r.level) : (binary op l r).WellFormed target := by
  refine ⟨⟨hl.graded, hr.graded, hle, hlt⟩, ?_, ⟨fun h => absurd h hop, hl.of, hr.of⟩, ?_⟩
  · simp [Term.unmixed, hl.unmixed, hr.unmixed, clashes_eq_false hop hl.plain,
      clashes_eq_false hop hr.plain]
  · rintro _ _ ⟨⟩
    exact hop rfl

theorem WellFormed.operands {op : Connective} {l r : Term}
    (h : (binary op l r).WellFormed target) :
    l.WellFormed target ∧ r.WellFormed target ∧ op.level ≤ l.level ∧ op.level < r.level := by
  obtain ⟨⟨hlg, hrg, hle, hlt⟩, hu, ⟨-, hlo, hro⟩, hp⟩ := h
  have hop : op ≠ .orElse := fun ho => hp l r (by rw [ho])
  simp only [Term.unmixed, Bool.and_eq_true, Bool.not_eq_true'] at hu
  obtain ⟨⟨⟨hlu, hru⟩, hlc⟩, hrc⟩ := hu
  have hplain {s : Term} (hc : s.clashes op = false) : ∀ a b, s ≠ binary .orElse a b := by
    rintro a b rfl
    cases op <;> simp_all [clashes]
  exact ⟨⟨hlg, hlu, hlo, hplain hlc⟩, ⟨hrg, hru, hro, hplain hrc⟩, hle, hlt⟩

theorem wellFormed_disjoin (ht : t.WellFormed target) (hu : u.WellFormed target) :
    (t.disjoin u).WellFormed target := by
  fun_induction disjoin t u with
  | case1 l r ih =>
    obtain ⟨hl, hr, -, hlt⟩ := hu.operands
    exact wellFormed_binary (by decide) (ih hl) hr (one_le_level _) hlt
  | case2 u hne => exact wellFormed_binary (by decide) ht hu (one_le_level _) (hu.two_le_level hne)

theorem two_le_level_attach (hu : 2 ≤ u.level) : 2 ≤ (t.attach u).level := by
  fun_cases attach t u with
  | case1 => exact absurd hu (by simp [level, Connective.level])
  | case2 => exact Nat.le_refl 2
  | case3 => exact Nat.le_refl 2

theorem wellFormed_attach (ht : t.WellFormed target) (h2 : 2 ≤ t.level)
    (hu : u.WellFormed target) : (t.attach u).WellFormed target := by
  fun_induction attach t u with
  | case1 l r ih =>
    obtain ⟨hl, hr, -, hlt⟩ := hu.operands
    exact wellFormed_binary (by decide) (ih hl) hr (one_le_level _) hlt
  | case2 l r ih =>
    obtain ⟨hl, hr, hle, hlt⟩ := hu.operands
    exact wellFormed_binary (by decide) (ih hl) hr (two_le_level_attach hle) hlt
  | case3 u hor hand =>
    refine wellFormed_binary (by decide) ht hu h2 ?_
    cases u with
    | binary op l r =>
      cases op with
      | and => exact absurd rfl (hand l r)
      | or => exact absurd rfl (hor l r)
      | orElse => exact absurd rfl (hu.plain l r)
    | _ => simp [level, Connective.level]

theorem wellFormed_conjoin (ht : t.WellFormed target) (hu : u.WellFormed target) :
    (t.conjoin u).WellFormed target := by
  fun_cases conjoin t u with
  | case1 l r u =>
    obtain ⟨hl, hr, -, hlt⟩ := ht.operands
    exact wellFormed_disjoin hl (wellFormed_attach hr hlt hu)
  | case2 t u hne => exact wellFormed_attach ht (ht.two_le_level hne) hu

theorem text_disjoin (target : Target) (t u : Term) :
    (t.disjoin u).text target =
      t.text target ++ " " ++ Connective.or.symbol target ++ " " ++ u.text target := by
  fun_induction disjoin t u with
  | case1 l r ih => simp only [text, ih, String.append_assoc]
  | case2 u hne => rfl

theorem text_attach (target : Target) (t u : Term) :
    (t.attach u).text target =
      t.text target ++ " " ++ Connective.and.symbol target ++ " " ++ u.text target := by
  fun_induction attach t u with
  | case1 l r ih => simp only [text, ih, String.append_assoc]
  | case2 l r ih => simp only [text, ih, String.append_assoc]
  | case3 u hor hand => rfl

theorem text_conjoin (target : Target) (t u : Term) :
    (t.conjoin u).text target =
      t.text target ++ " " ++ Connective.and.symbol target ++ " " ++ u.text target := by
  fun_cases conjoin t u with
  | case1 l r u => simp only [text_disjoin, text_attach, text, String.append_assoc]
  | case2 t u hne => exact text_attach target t u

theorem text_joinAll {target : Target} {op : Connective} {join : Term → Term → Term}
    (hjoin : ∀ t u, (join t u).text target =
      t.text target ++ " " ++ op.symbol target ++ " " ++ u.text target) {ts : List Term}
    (hne : ts ≠ []) : (joinAll join ts).text target =
      (" " ++ op.symbol target ++ " ").intercalate (ts.map (text target)) := by
  obtain ⟨t, ts, rfl⟩ := List.exists_cons_of_ne_nil hne
  rw [joinAll]
  clear hne
  induction ts generalizing t with
  | nil => simp
  | cons u ts ih =>
    rw [List.foldl_cons, ih, List.map_cons, hjoin, String.intercalate_cons_append, List.map_cons,
      List.map_cons, String.intercalate_cons_cons]
    simp only [String.append_assoc]

theorem forall_joinAll {P : Term → Prop} {join : Term → Term → Term}
    (hjoin : ∀ t u, P t → P u → P (join t u)) {ts : List Term} (hne : ts ≠ [])
    (h : ∀ t ∈ ts, P t) : P (joinAll join ts) := by
  obtain ⟨t, ts, rfl⟩ := List.exists_cons_of_ne_nil hne
  obtain ⟨ht, hts⟩ := List.forall_mem_cons.1 h
  rw [joinAll]
  clear hne h
  induction ts generalizing t with
  | nil => exact ht
  | cons u ts ih =>
    obtain ⟨hu, hts⟩ := List.forall_mem_cons.1 hts
    exact ih (join t u) (hjoin t u ht hu) hts

theorem combine_or_assoc (target : Target) (a b c : Option Bool) :
    combine target .or (combine target .or a b) c =
      combine target .or a (combine target .or b c) := by
  cases target <;> rcases a with _ | _ | _ <;> rcases b with _ | _ | _ <;>
    rcases c with _ | _ | _ <;> rfl

theorem combine_and_assoc (target : Target) (a b c : Option Bool) :
    combine target .and (combine target .and a b) c =
      combine target .and a (combine target .and b c) := by
  cases target <;> rcases a with _ | _ | _ <;> rcases b with _ | _ | _ <;>
    rcases c with _ | _ | _ <;> rfl

theorem eval_disjoin (target : Target) (env : String → Option Bool) (t u : Term) :
    (t.disjoin u).eval target env =
      combine target .or (t.eval target env) (u.eval target env) := by
  fun_induction disjoin t u with
  | case1 l r ih => rw [eval, eval, ih, combine_or_assoc]
  | case2 u hne => rfl

theorem conjoin_eq_attach (ht : 2 ≤ t.level) : t.conjoin u = t.attach u := by
  fun_cases conjoin t u with
  | case1 l r u => exact absurd ht (by simp [level, Connective.level])
  | case2 t u hne => rfl

theorem two_le_level_conjoin (ht : 2 ≤ t.level) (hu : 2 ≤ u.level) : 2 ≤ (t.conjoin u).level := by
  rw [conjoin_eq_attach ht]
  exact two_le_level_attach hu

theorem eval_conjoin (target : Target) (env : String → Option Bool) {t u : Term}
    (ht : 2 ≤ t.level) (hu : u.Graded) (hl : 2 ≤ u.level) :
    (t.conjoin u).eval target env =
      combine target .and (t.eval target env) (u.eval target env) := by
  rw [conjoin_eq_attach ht]
  fun_induction attach t u with
  | case1 l r ih => exact absurd hl (by simp [level, Connective.level])
  -- `t && (l && r)` is written without the parentheses, and associates to the left when read
  | case2 l r ih => rw [eval, eval, ih hu.1 hu.2.2.1, combine_and_assoc]
  | case3 u hor hand => rfl

end

end FieldFormula.Logic.Term
