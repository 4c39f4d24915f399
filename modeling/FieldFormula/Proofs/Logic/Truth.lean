import FieldFormula.Proofs.Logic.Formula

/-!
The value of a logical text against the truth of its formula. A text means what its formula says,
one connective at a time, except where `AND` joins an argument that is a bare disjunction. Main
statement: a formula without such a call has its truth for its value (`value_eq_truth`).
-/
namespace FieldFormula

namespace Expr

def isOr : Expr → Bool
  | binary _ .or _ _ => true
  | _ => false

/-- No argument that `AND` joins to others is a bare disjunction. -/
def KeepsGrouping : Expr → Prop
  | call _ name args => name = "AND" → 2 ≤ args.length → ∀ e ∈ args, e.isOr = false
  | _ => True

instance : DecidablePred KeepsGrouping
  | call _ _ _ => inferInstanceAs (Decidable (_ → _ → ∀ e ∈ _, _))
  | literal _ _ | field _ _ | binary _ _ _ _ | unary _ _ _ | group _ _ | conditional _ _ _ _
  | sequence _ _ => isTrue trivial

def value (target : Target) (env : String → Option Bool) (e : Expr) : Option Bool :=
  (e.term target).eval target env

end Expr

namespace Logic
variable {target : Target} {env : String → Option Bool} {t u : Term}

@[simp] theorem combine_or (a b : Bool) :
    Term.combine target .or (some a) (some b) = some (a || b) := by
  cases target <;> cases a <;> cases b <;> rfl

@[simp] theorem combine_and (a b : Bool) :
    Term.combine target .and (some a) (some b) = some (a && b) := by
  cases target <;> cases a <;> cases b <;> rfl

@[simp] theorem negate_some (a : Bool) : Term.negate target (some a) = some (!a) := by
  cases target <;> cases a <;> rfl

@[simp] theorem eval_operand (e : Expr) :
    (operand target e t).eval target env = t.eval target env := by
  unfold operand
  split <;> rfl

theorem eval_foldl_disjoin {ts : List Term} {bs : List Bool}
    (h : ts.map (Term.eval target env) = bs.map some) {b : Bool}
    (ht : t.eval target env = some b) :
    (ts.foldl Term.disjoin t).eval target env = some (b || bs.or) := by
  induction ts generalizing t b bs with
  | nil =>
    obtain rfl := List.map_eq_nil_iff.1 h.symm
    simpa using ht
  | cons u ts ih =>
    obtain ⟨c, bs, rfl, hu, hts⟩ := List.map_eq_cons_iff.1 h.symm
    rw [List.foldl_cons, ih hts.symm (b := b || c), List.or_cons, Bool.or_assoc]
    rw [Term.eval_disjoin, ht, ← hu, combine_or]

theorem eval_joinAll_disjoin {ts : List Term} {bs : List Bool} (hne : ts ≠ [])
    (h : ts.map (Term.eval target env) = bs.map some) :
    (Term.joinAll Term.disjoin ts).eval target env = some bs.or := by
  obtain ⟨t, ts, rfl⟩ := List.exists_cons_of_ne_nil hne
  obtain ⟨b, bs, rfl, ht, hts⟩ := List.map_eq_cons_iff.1 h.symm
  rw [Term.joinAll, eval_foldl_disjoin hts.symm ht.symm, List.or_cons]

theorem eval_foldl_conjoin {ts : List Term} {bs : List Bool}
    (hts : ∀ u ∈ ts, u.Graded ∧ 2 ≤ u.level)
    (h : ts.map (Term.eval target env) = bs.map some) {b : Bool} (hl : 2 ≤ t.level)
    (ht : t.eval target env = some b) :
    (ts.foldl Term.conjoin t).eval target env = some (b && bs.and) := by
  induction ts generalizing t b bs with
  | nil =>
    obtain rfl := List.map_eq_nil_iff.1 h.symm
    simpa using ht
  | cons u ts ih =>
    obtain ⟨c, bs, rfl, hu, hmap⟩ := List.map_eq_cons_iff.1 h.symm
    obtain ⟨⟨hug, hul⟩, hts⟩ := List.forall_mem_cons.1 hts
    rw [List.foldl_cons, ih hts hmap.symm (b := b && c) (Term.two_le_level_conjoin hl hul),
      List.and_cons, Bool.and_assoc]
    rw [Term.eval_conjoin target env hl hug hul, ht, ← hu, combine_and]

theorem eval_joinAll_conjoin {ts : List Term} {bs : List Bool} (hne : ts ≠ [])
    (hts : 2 ≤ ts.length → ∀ u ∈ ts, u.Graded ∧ 2 ≤ u.level)
    (h : ts.map (Term.eval target env) = bs.map some) :
    (Term.joinAll Term.conjoin ts).eval target env = some bs.and := by
  obtain ⟨t, ts, rfl⟩ := List.exists_cons_of_ne_nil hne
  obtain ⟨b, bs, rfl, ht, hmap⟩ := List.map_eq_cons_iff.1 h.symm
  rw [Term.joinAll, List.and_cons]
  cases ts with
  | nil =>
    obtain rfl := List.map_eq_nil_iff.1 hmap
    simpa using ht.symm
  | cons u ts =>
    obtain ⟨htt, hts⟩ := List.forall_mem_cons.1 (hts (by simp))
    exact eval_foldl_conjoin hts hmap.symm htt.2 ht.symm

end Logic

namespace Expr
open Logic (Term)
variable {target : Target} {env : String → Option Bool} {schema : Schema}

structure Formed (schema : Schema) (e : Expr) : Prop where
  logical : e.Logical schema
  obeys : e.All Obeys
  placed : e.All Placed

theorem Formed.wellFormed {e : Expr} (h : e.Formed schema) (target : Target) :
    (e.term target).WellFormed target :=
  Logic.wellFormed_term h.logical h.obeys

section
variable {m : Mark} {l r e : Expr} {op : BinaryOp}

theorem Formed.binary (h : (binary m op l r).Formed schema) :
    l.Formed schema ∧ r.Formed schema ∧ (op = .and ∨ op = .or) ∧
      (op = .and → l.isOr = false ∧ r.isOr = false) := by
  obtain ⟨hll, hlr, hop⟩ := all_binary.1 h.logical
  obtain ⟨hol, hor, hobeys⟩ := all_binary.1 h.obeys
  obtain ⟨hpl, hpr, -⟩ := all_binary.1 h.placed
  refine ⟨⟨hll, hol, hpl⟩, ⟨hlr, hor, hpr⟩, hop, ?_⟩
  rintro rfl
  have hstrength {s : Expr} (hs : 2 ≤ s.strength) : s.isOr = false := by
    unfold isOr
    split
    · exact absurd hs (by simp [BinaryOp.strength])
    · rfl
  exact ⟨hstrength hobeys.1, hstrength (Nat.le_of_lt hobeys.2.2)⟩

theorem Formed.unary {op : UnaryOp} (h : (unary m op e).Formed schema) : e.Formed schema :=
  ⟨(all_unary.1 h.logical).1, (all_unary.1 h.obeys).1, (all_unary.1 h.placed).1⟩

theorem Formed.group (h : (group m e).Formed schema) : e.Formed schema :=
  ⟨(all_group.1 h.logical).1, (all_group.1 h.obeys).1, (all_group.1 h.placed).1⟩

theorem Formed.call {name : String} {args : List Expr} (h : (call m name args).Formed schema) :
    (∀ a ∈ args, a.Formed schema) ∧ (name = "AND" ∨ name = "OR" ∨ name = "NOT") ∧
      (name = "AND" ∨ name = "OR" → args ≠ []) ∧ (name = "NOT" → ∃ a, args = [a]) := by
  obtain ⟨hl, hname⟩ := all_call.1 h.logical
  obtain ⟨hp, hplaced⟩ := all_call.1 h.placed
  exact ⟨fun a ha => ⟨hl a ha, (all_call.1 h.obeys).1 a ha, hp a ha⟩, hname,
    Logic.length_of_placed hplaced⟩

theorem Formed.two_le_level {e : Expr} (h : e.Formed schema) (hor : e.isOr = false) :
    2 ≤ (e.term target).level := by
  have hoperand {e : Expr} (h : e.Formed schema) (hs : e.strength = 8) :
      2 ≤ (e.term target).level :=
    Nat.le_trans (by decide) (Logic.three_le_level h.logical.root hs)
  induction e with
  | binary m op l r ihl ihr =>
    obtain ⟨hl, hr, hop, hand⟩ := h.binary
    rcases hop with rfl | rfl
    · obtain ⟨hnl, hnr⟩ := hand rfl
      exact Term.two_le_level_conjoin (Logic.le_level_operand (ihl hl hnl) (by decide))
        (Logic.le_level_operand (ihr hr hnr) (by decide))
    · exact absurd hor (by simp [isOr])
  | _ => exact hoperand h rfl

theorem value_binary {a b : Bool} (h : (Expr.binary m op l r).Formed schema)
    (hl : l.value target env = some a) (hr : r.value target env = some b) :
    (Expr.binary m op l r).value target env = some (if op = .or then a || b else a && b) := by
  obtain ⟨hfl, hfr, hop, hand⟩ := h.binary
  rw [value, ← Logic.eval_operand l] at hl
  rw [value, ← Logic.eval_operand r] at hr
  rcases hop with rfl | rfl
  · obtain ⟨hnl, hnr⟩ := hand rfl
    have hleft : 2 ≤ (Logic.operand target l (l.term target)).level :=
      Logic.le_level_operand (hfl.two_le_level hnl) (by decide)
    have hright : 2 ≤ (Logic.operand target r (r.term target)).level :=
      Logic.le_level_operand (hfr.two_le_level hnr) (by decide)
    have hgraded := (Logic.wellFormed_operand (e := r) (hfr.wellFormed target)).graded
    have hjoin := Term.eval_conjoin target env hleft hgraded hright
    rwa [hl, hr, Logic.combine_and] at hjoin
  · have hjoin := Term.eval_disjoin target env (Logic.operand target l (l.term target))
      (Logic.operand target r (r.term target))
    rwa [hl, hr, Logic.combine_or] at hjoin

theorem value_call_or {args : List Expr} {bs : List Bool} (hne : args ≠ [])
    (h : args.map (value target env) = bs.map some) :
    (Expr.call m "OR" args).value target env = some bs.or := by
  have hcall : (Expr.call m "OR" args).value target env =
    (Term.joinAll Term.disjoin (terms target args)).eval target env := rfl
  rw [hcall, terms_eq_map]
  refine Logic.eval_joinAll_disjoin (fun hnil => hne (List.map_eq_nil_iff.1 hnil)) ?_
  rw [List.map_map]
  exact h

theorem value_call_and {args : List Expr} {bs : List Bool} (hne : args ≠ [])
    (hf : ∀ a ∈ args, a.Formed schema) (hk : (Expr.call m "AND" args).KeepsGrouping)
    (h : args.map (value target env) = bs.map some) :
    (Expr.call m "AND" args).value target env = some bs.and := by
  have hcall : (Expr.call m "AND" args).value target env =
    (Term.joinAll Term.conjoin (terms target args)).eval target env := rfl
  rw [hcall, terms_eq_map]
  refine Logic.eval_joinAll_conjoin (fun hnil => hne (List.map_eq_nil_iff.1 hnil)) ?_ ?_
  · intro hlen
    rw [List.length_map] at hlen
    exact List.forall_mem_map.2 fun a ha =>
      ⟨((hf a ha).wellFormed target).graded, (hf a ha).two_le_level (hk rfl hlen a ha)⟩
  · rw [List.map_map]
    exact h

theorem value_call_not : (Expr.call m "NOT" [e]).value target env =
    Term.negate target (e.value target env) := by
  cases target <;> rfl

theorem value_not : (Expr.unary m .not e).value target env =
    Term.negate target (e.value target env) := by
  simp only [value, term, Term.eval, Logic.eval_operand]

end

/-- Where `AND` joins no bare disjunction, the text has the truth of the formula for its value. -/
theorem value_eq_truth {e : Expr} (h : e.Formed schema) (hk : e.All KeepsGrouping) :
    e.value target env = some (e.truth env) := by
  induction e with
  | literal m value => rfl
  | field m name =>
    rw [value, term, truth]
    cases target <;> cases henv : env name <;>
      simp [Logic.fieldTerm, Term.eval, Term.combine, henv]
  | binary m op l r ihl ihr =>
    obtain ⟨hl, hr, -⟩ := h.binary
    obtain ⟨hkl, hkr, -⟩ := all_binary.1 hk
    exact value_binary h (ihl hl hkl) (ihr hr hkr)
  | unary m op e ih =>
    obtain rfl : op = .not := (all_unary.1 h.logical).2
    rw [value_not, ih h.unary (all_unary.1 hk).1, Logic.negate_some]
    rfl
  | group m e ih => exact ih h.group (all_group.1 hk).1
  | call m name args ih =>
    obtain ⟨hargs, hname, hsome, hone⟩ := h.call
    obtain ⟨hka, hkeeps⟩ := all_call.1 hk
    have hvalues : args.map (value target env) = (truths env args).map some := by
      rw [truths_eq_map, List.map_map]
      exact List.map_congr_left fun a ha => ih a ha (hargs a ha) (hka a ha)
    rcases hname with rfl | rfl | rfl
    · rw [value_call_and (hsome (.inl rfl)) hargs hkeeps hvalues]
      rfl
    · rw [value_call_or (hsome (.inr rfl)) hvalues]
      rfl
    · obtain ⟨a, rfl⟩ := hone rfl
      rw [value_call_not, ih a (List.mem_singleton_self a) (hargs a (List.mem_singleton_self a))
        (hka a (List.mem_singleton_self a)), Logic.negate_some]
      simp [truth, truths]
  | conditional _ _ _ _ _ _ _ | sequence _ _ _ => exact absurd h.logical.root not_false

end Expr

end FieldFormula
