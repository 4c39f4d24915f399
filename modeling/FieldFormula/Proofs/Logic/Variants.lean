import FieldFormula.Proofs.Logic.Truth

/-!
Formulas that differ only in their leaves. Constants at the leaves can give every formula a chosen
truth throughout, so one part of a formula can be made to decide the rest. Main statement: a formula
in which `AND` joins a bare disjunction has a variant whose text has the wrong value in both targets
(`exists_wrong_variant`).
-/
namespace FieldFormula

namespace Logic.Term
variable {target : Target} {env : String → Option Bool} {b : Bool} {t u : Term}

def Uniform (target : Target) (env : String → Option Bool) (b : Bool) : Term → Prop
  | binary .and l r => l.Uniform target env b ∧ r.Uniform target env b
  | binary .or l r => l.Uniform target env b ∧ r.Uniform target env b
  | t => t.eval target env = some b

theorem Uniform.eval (h : t.Uniform target env b) : t.eval target env = some b := by
  fun_induction Uniform target env b t with
  | case1 l r ihl ihr => rw [Term.eval, ihl h.1, ihr h.2, combine_and, Bool.and_self]
  | case2 l r ihl ihr => rw [Term.eval, ihl h.1, ihr h.2, combine_or, Bool.or_self]
  | case3 t _ _ => exact h

theorem uniform_disjoin (ht : t.Uniform target env b) (hu : u.Uniform target env b) :
    (t.disjoin u).Uniform target env b := by
  fun_induction disjoin t u with
  | case1 l r ih => exact ⟨ih hu.1, hu.2⟩
  | case2 u hne => exact ⟨ht, hu⟩

theorem uniform_attach (ht : t.Uniform target env b) (hu : u.Uniform target env b) :
    (t.attach u).Uniform target env b := by
  fun_induction attach t u with
  | case1 l r ih => exact ⟨ih hu.1, hu.2⟩
  | case2 l r ih => exact ⟨ih hu.1, hu.2⟩
  | case3 u hor hand => exact ⟨ht, hu⟩

theorem uniform_conjoin (ht : t.Uniform target env b) (hu : u.Uniform target env b) :
    (t.conjoin u).Uniform target env b := by
  fun_cases conjoin t u with
  | case1 l r u => exact uniform_disjoin ht.1 (uniform_attach ht.2 hu)
  | case2 t u hne => exact uniform_attach ht hu

/-- A disjunction whose left part is true, and stays so when more is joined to the right. -/
def Starts (target : Target) (env : String → Option Bool) (t : Term) : Prop :=
  ∃ l r, t = binary .or l r ∧ l.eval target env = some true

def Ends (target : Target) (env : String → Option Bool) (t : Term) : Prop :=
  ∃ l r, t = binary .or l r ∧ r.Uniform target env true

theorem combine_or_true (a : Option Bool) : combine target .or (some true) a = some true := by
  cases target <;> rcases a with _ | _ | _ <;> rfl

theorem combine_or_of_true (a : Option Bool) : combine target .or a (some true) = some true := by
  cases target <;> rcases a with _ | _ | _ <;> rfl

theorem starts_disjoin (ht : t.eval target env = some true) :
    (t.disjoin u).Starts target env := by
  fun_cases disjoin t u with
  | case1 l r => exact ⟨_, r, rfl, by rw [eval_disjoin, ht, combine_or_true]⟩
  | case2 u hne => exact ⟨t, u, rfl, ht⟩

theorem Starts.conjoin (h : t.Starts target env) : (t.conjoin u).Starts target env := by
  obtain ⟨l, r, rfl, hl⟩ := h
  exact starts_disjoin hl

theorem Starts.eval (h : t.Starts target env) : t.eval target env = some true := by
  obtain ⟨l, r, rfl, hl⟩ := h
  rw [Term.eval, hl, combine_or_true]

theorem ends_disjoin (hu : u.Uniform target env true) : (t.disjoin u).Ends target env := by
  fun_cases disjoin t u with
  | case1 l r => exact ⟨_, r, rfl, hu.2⟩
  | case2 u hne => exact ⟨t, u, rfl, hu⟩

theorem Ends.conjoin (h : t.Ends target env) (hu : u.Uniform target env true) :
    (t.conjoin u).Ends target env := by
  obtain ⟨l, r, rfl, hr⟩ := h
  exact ends_disjoin (uniform_attach hr hu)

theorem Ends.of_conjoin (h : u.Ends target env) : (t.conjoin u).Ends target env := by
  obtain ⟨l, r, rfl, hr⟩ := h
  cases t with
  | binary op p q => cases op <;> exact ⟨_, r, rfl, hr⟩
  | _ => exact ⟨_, r, rfl, hr⟩

theorem Starts.foldl (h : t.Starts target env) (ts : List Term) :
    (ts.foldl Term.conjoin t).Starts target env := by
  induction ts generalizing t with
  | nil => exact h
  | cons u ts ih => exact ih h.conjoin

theorem Ends.foldl (h : t.Ends target env) {ts : List Term}
    (hts : ∀ u ∈ ts, u.Uniform target env true) : (ts.foldl Term.conjoin t).Ends target env := by
  induction ts generalizing t with
  | nil => exact h
  | cons u ts ih =>
    obtain ⟨hu, hts⟩ := List.forall_mem_cons.1 hts
    exact ih (h.conjoin hu) hts

theorem Ends.eval (h : t.Ends target env) : t.eval target env = some true := by
  obtain ⟨l, r, rfl, hr⟩ := h
  rw [Term.eval, hr.eval, combine_or_of_true]

end Logic.Term

namespace Expr

mutual

def outline : Expr → Expr
  | literal _ _ | field _ _ => literal ⟨0, 0⟩ .null
  | binary _ op l r => binary ⟨0, 0⟩ op l.outline r.outline
  | unary _ op e => unary ⟨0, 0⟩ op e.outline
  | group _ e => group ⟨0, 0⟩ e.outline
  | conditional _ c y n => conditional ⟨0, 0⟩ c.outline y.outline n.outline
  | call _ name args => call ⟨0, 0⟩ name (outlines args)
  | sequence _ items => sequence ⟨0, 0⟩ (outlines items)

def outlines : List Expr → List Expr
  | [] => []
  | e :: es => e.outline :: outlines es

end

mutual

/-- The formula with constants at its leaves that make it `b` throughout. -/
def paint (b : Bool) : Expr → Expr
  | literal m _ | field m _ => literal m (.boolean b)
  | binary m op l r => binary m op (l.paint b) (r.paint b)
  | unary m op e => unary m op (e.paint !b)
  | group m e => group m (e.paint b)
  | conditional m c y n => conditional m c y n
  | call m name args => call m name (paints (if name = "NOT" then !b else b) args)
  | sequence m items => sequence m items

def paints (b : Bool) : List Expr → List Expr
  | [] => []
  | e :: es => e.paint b :: paints b es

end

theorem outlines_eq_map (es : List Expr) : outlines es = es.map outline :=
  eq_map_of_cons rfl (fun _ _ => rfl) es

theorem paints_eq_map (b : Bool) (es : List Expr) : paints b es = es.map (paint b) :=
  eq_map_of_cons rfl (fun _ _ => rfl) es

theorem shapes_eq_map (es : List Expr) : shapes es = es.map shape :=
  eq_map_of_cons rfl (fun _ _ => rfl) es

theorem outline_paint (b : Bool) (e : Expr) : (e.paint b).outline = e.outline := by
  induction e generalizing b with
  | literal _ _ | field _ _ | conditional _ _ _ _ _ _ _ | sequence _ _ _ => rfl
  | binary _ _ l r ihl ihr => rw [paint, outline, outline, ihl, ihr]
  | unary _ _ e ih => rw [paint, outline, outline, ih]
  | group _ e ih => rw [paint, outline, outline, ih]
  | call m name args ih =>
    rw [paint, outline, outline, paints_eq_map, outlines_eq_map, outlines_eq_map, List.map_map]
    exact congrArg _ (List.map_congr_left fun e he => ih e he _)

theorem nodesOf_map {f : Expr → Expr} {es : List Expr}
    (h : ∀ e ∈ es, (f e).nodes = e.nodes.map f) : nodesOf (es.map f) = (nodesOf es).map f := by
  rw [nodesOf_eq_flatMap, nodesOf_eq_flatMap, List.flatMap_map, List.map_flatMap,
    List.flatMap_def, List.flatMap_def, List.map_congr_left h]

theorem nodes_outline (e : Expr) : e.outline.nodes = e.nodes.map outline := by
  induction e with
  | call m name args ih => simp [outline, nodes, outlines_eq_map, nodesOf_map ih]
  | sequence m items ih => simp [outline, nodes, outlines_eq_map, nodesOf_map ih]
  | _ => simp_all [outline, nodes]

theorem nodes_shape (e : Expr) : e.shape.nodes = e.nodes.map shape := by
  induction e with
  | call m name args ih => simp [shape, nodes, shapes_eq_map, nodesOf_map ih]
  | sequence m items ih => simp [shape, nodes, shapes_eq_map, nodesOf_map ih]
  | _ => simp_all [shape, nodes]

theorem all_outline {P : Expr → Prop} (hP : ∀ n : Expr, P n.outline ↔ P n) (e : Expr) :
    e.outline.All P ↔ e.All P := by
  simp only [All, nodes_outline, List.forall_mem_map, hP]

theorem all_shape {P : Expr → Prop} (hP : ∀ n : Expr, P n.shape ↔ P n) (e : Expr) :
    e.shape.All P ↔ e.All P := by
  simp only [All, nodes_shape, List.forall_mem_map, hP]

theorem strength_outline (e : Expr) : e.outline.strength = e.strength := by
  cases e <;> rfl

theorem isOr_outline (e : Expr) : e.outline.isOr = e.isOr := by
  cases e with
  | binary m op l r => cases op <;> rfl
  | _ => rfl

theorem obeys_outline (e : Expr) : e.outline.Obeys ↔ e.Obeys := by
  cases e <;> simp only [outline, Obeys, strength_outline]

theorem placed_outline (e : Expr) : e.outline.Placed ↔ e.Placed := by
  cases e <;> simp only [outline, Placed, outlines_eq_map, List.length_map]

theorem keepsGrouping_outline (e : Expr) : e.outline.KeepsGrouping ↔ e.KeepsGrouping := by
  cases e <;>
    simp only [outline, KeepsGrouping, outlines_eq_map, List.length_map, List.forall_mem_map,
      isOr_outline]

theorem isLogical_shape (schema : Schema) (e : Expr) :
    e.shape.IsLogical schema ↔ e.IsLogical schema := by
  cases e <;> rfl

theorem outline_shape (e : Expr) : e.shape.outline = e.outline := by
  induction e with
  | call m name args ih =>
    simpa [shape, outline, shapes_eq_map, outlines_eq_map] using ih
  | sequence m items ih =>
    simpa [shape, outline, shapes_eq_map, outlines_eq_map] using ih
  | _ => simp_all [shape, outline]

theorem truth_shape (env : String → Option Bool) (e : Expr) : e.shape.truth env = e.truth env := by
  induction e with
  | call m name args ih =>
    have hargs : truths env (shapes args) = truths env args := by
      rw [shapes_eq_map, truths_eq_map, truths_eq_map, List.map_map]
      exact List.map_congr_left ih
    rw [shape, truth, truth, hargs]
  | _ => simp_all [shape, truth]

theorem term_shape (target : Target) (e : Expr) : e.shape.term target = e.term target := by
  have hnot (e : Expr) : e.shape.isNot = e.isNot := by
    cases e with
    | unary m op e => cases op <;> rfl
    | _ => rfl
  have hoperand (e : Expr) (t : Logic.Term) :
      Logic.operand target e.shape t = Logic.operand target e t := by
    rw [Logic.operand, hnot, Logic.operand]
  induction e with
  | call m name args ih =>
    have hargs : terms target (shapes args) = terms target args := by
      rw [shapes_eq_map, terms_eq_map, terms_eq_map, List.map_map]
      exact List.map_congr_left ih
    rw [shape, term, term, hargs]
  | _ => simp_all [shape, term]

section
variable {target : Target} {env : String → Option Bool} {schema : Schema} {e e' : Expr} {b : Bool}

theorem Logical.of_empty (h : e.Logical .empty) (schema : Schema) : e.Logical schema := by
  refine All.imp (fun n hn => ?_) h
  cases n with
  | field m name => exact absurd hn (by simp [IsLogical, Schema.get?, Schema.empty])
  | _ => exact hn

theorem Formed.of_outline (h : e.Formed schema) (ho : e'.outline = e.outline)
    (hl : e'.Logical .empty) (schema' : Schema) : e'.Formed schema' := by
  refine ⟨hl.of_empty schema', ?_, ?_⟩
  · rw [← all_outline obeys_outline, ho, all_outline obeys_outline]
    exact h.obeys
  · rw [← all_outline placed_outline, ho, all_outline placed_outline]
    exact h.placed

theorem logical_paint (h : e.Logical schema) : (e.paint b).Logical .empty := by
  induction e generalizing b with
  | literal m value | field m name => exact all_literal.2 ⟨b, rfl⟩
  | binary m op l r ihl ihr =>
    obtain ⟨hl, hr, hop⟩ := all_binary.1 h
    exact all_binary.2 ⟨ihl hl, ihr hr, hop⟩
  | unary m op e ih =>
    obtain ⟨he, hop⟩ := all_unary.1 h
    exact all_unary.2 ⟨ih he, hop⟩
  | group m e ih => exact all_group.2 ⟨ih (all_group.1 h).1, trivial⟩
  | call m name args ih =>
    obtain ⟨hargs, hname⟩ := all_call.1 h
    rw [paint, paints_eq_map]
    exact all_call.2 ⟨List.forall_mem_map.2 fun a ha => ih a ha (hargs a ha), hname⟩
  | conditional _ _ _ _ _ _ _ | sequence _ _ _ => exact absurd h.root not_false

theorem uniform_operand {t : Logic.Term} (h : t.Uniform target env b) :
    (Logic.operand target e t).Uniform target env b := by
  unfold Logic.operand
  split
  · exact h.eval
  · exact h

theorem uniform_paint (h : e.Formed schema) :
    ((e.paint b).term target).Uniform target env b := by
  induction e generalizing b with
  | literal m value | field m name => cases b <;> rfl
  | binary m op l r ihl ihr =>
    obtain ⟨hl, hr, hop, -⟩ := h.binary
    have hleft := uniform_operand (e := l.paint b) (ihl hl (b := b))
    have hright := uniform_operand (e := r.paint b) (ihr hr (b := b))
    rcases hop with rfl | rfl
    · exact Logic.Term.uniform_conjoin hleft hright
    · exact Logic.Term.uniform_disjoin hleft hright
  | unary m op e ih =>
    have hinner := uniform_operand (e := e.paint !b) (ih h.unary (b := !b))
    have hnot : Logic.Term.negate target (some !b) = some b := by simp
    rwa [← hinner.eval] at hnot
  | group m e ih => exact (ih h.group).eval
  | call m name args ih =>
    obtain ⟨hargs, hname, hsome, hone⟩ := h.call
    have hall (c : Bool) : ∀ t ∈ terms target (paints c args), t.Uniform target env c := by
      rw [terms_eq_map, paints_eq_map, List.map_map]
      exact List.forall_mem_map.2 fun a ha => ih a ha (hargs a ha)
    have hne (hn : name = "AND" ∨ name = "OR") : terms target (paints b args) ≠ [] := by
      rw [terms_eq_map, paints_eq_map, List.map_map]
      exact fun hnil => hsome hn (List.map_eq_nil_iff.1 hnil)
    rcases hname with rfl | rfl | rfl
    · exact (Logic.Term.forall_joinAll (fun _ _ => Logic.Term.uniform_conjoin) (hne (.inl rfl))
        (hall b)).eval
    · exact (Logic.Term.forall_joinAll (fun _ _ => Logic.Term.uniform_disjoin) (hne (.inr rfl))
        (hall b)).eval
    · obtain ⟨a, rfl⟩ := hone rfl
      have hinner := (ih a (List.mem_singleton_self a) (hargs a (List.mem_singleton_self a))
        (b := !b)).eval
      have hnot : Logic.Term.negate target (some !b) = some b := by simp
      rw [← hinner] at hnot
      cases target <;> exact hnot
  | conditional _ _ _ _ _ _ _ | sequence _ _ _ => exact absurd h.logical.root not_false

theorem value_paint (h : e.Formed schema) : (e.paint b).value target env = some b :=
  (uniform_paint h).eval

theorem and_eq_of_forall {bs : List Bool} (hne : bs ≠ []) (h : ∀ c ∈ bs, c = b) :
    bs.and = b ∧ bs.or = b := by
  obtain ⟨c, bs, rfl⟩ := List.exists_cons_of_ne_nil hne
  obtain ⟨rfl, hbs⟩ := List.forall_mem_cons.1 h
  clear hne h
  induction bs with
  | nil => simp
  | cons d bs ih =>
    obtain ⟨rfl, hbs⟩ := List.forall_mem_cons.1 hbs
    have hothers := ih hbs
    simp_all

theorem truth_paint (h : e.Formed schema) : (e.paint b).truth env = b := by
  induction e generalizing b with
  | literal m value | field m name => cases b <;> rfl
  | binary m op l r ihl ihr =>
    obtain ⟨hl, hr, hop, -⟩ := h.binary
    rw [paint, truth, ihl hl, ihr hr]
    split <;> simp
  | unary m op e ih => rw [paint, truth, ih h.unary, Bool.not_not]
  | group m e ih => exact ih h.group
  | call m name args ih =>
    obtain ⟨hargs, hname, hsome, hone⟩ := h.call
    have hall (c : Bool) : ∀ d ∈ truths env (paints c args), d = c := by
      rw [truths_eq_map, paints_eq_map, List.map_map]
      exact List.forall_mem_map.2 fun a ha => ih a ha (hargs a ha)
    have hne (hn : name = "AND" ∨ name = "OR") : truths env (paints b args) ≠ [] := by
      rw [truths_eq_map, paints_eq_map, List.map_map]
      exact fun hnil => hsome hn (List.map_eq_nil_iff.1 hnil)
    rcases hname with rfl | rfl | rfl
    · exact (and_eq_of_forall (hne (.inl rfl)) (hall b)).1
    · exact (and_eq_of_forall (hne (.inr rfl)) (hall b)).2
    · obtain ⟨a, rfl⟩ := hone rfl
      have ha := ih a (List.mem_singleton_self a) (hargs a (List.mem_singleton_self a)) (b := !b)
      simp [paint, paints, truth, truths, ha]
  | conditional _ _ _ _ _ _ _ | sequence _ _ _ => exact absurd h.logical.root not_false

def around (first second : Bool) (before : List Expr) (a : Expr) (after : List Expr) : List Expr :=
  before.map (paint first) ++ a :: after.map (paint second)

section
variable {m : Mark} {name : String} {before after : List Expr} {a a' : Expr} {first second : Bool}

theorem outline_around (first second : Bool) (ho : a'.outline = a.outline) :
    (call m name (around first second before a' after)).outline =
      (call m name (before ++ a :: after)).outline := by
  have hpaint (c : Bool) (es : List Expr) : (es.map (paint c)).map outline = es.map outline := by
    rw [List.map_map]
    exact List.map_congr_left fun e _ => outline_paint c e
  simp only [outline, outlines_eq_map, around, List.map_append, List.map_cons, hpaint, ho]

theorem logical_around (h : (call m name (before ++ a :: after)).Logical schema)
    (hl : a'.Logical .empty) :
    (call m name (around first second before a' after)).Logical .empty := by
  obtain ⟨hargs, hname⟩ := all_call.1 h
  simp only [List.forall_mem_append, List.forall_mem_cons] at hargs
  obtain ⟨hbefore, -, hafter⟩ := hargs
  refine all_call.2 ⟨?_, hname⟩
  simp only [around, List.forall_mem_append, List.forall_mem_cons, List.forall_mem_map]
  exact ⟨fun x hx => logical_paint (hbefore x hx), hl, fun x hx => logical_paint (hafter x hx)⟩

theorem values_around (h : ∀ x ∈ before ++ a :: after, x.Formed schema)
    (hv : a'.value target env = some b) :
    (around first second before a' after).map (value target env) =
      (List.replicate before.length first ++ b :: List.replicate after.length second).map some := by
  have hpaint {es : List Expr} (hes : ∀ x ∈ es, x.Formed schema) (c : Bool) :
      (es.map (paint c)).map (value target env) = (List.replicate es.length c).map some := by
    rw [List.map_map, List.map_replicate, List.map_eq_replicate_iff]
    exact fun x hx => value_paint (hes x hx)
  simp only [List.forall_mem_append, List.forall_mem_cons] at h
  simp only [around, List.map_append, List.map_cons, hpaint h.1, hpaint h.2.2, hv]

theorem truths_around (h : ∀ x ∈ before ++ a :: after, x.Formed schema) :
    truths env (around first second before a' after) =
      List.replicate before.length first ++
        a'.truth env :: List.replicate after.length second := by
  have hpaint {es : List Expr} (hes : ∀ x ∈ es, x.Formed schema) (c : Bool) :
      (es.map (paint c)).map (truth env) = List.replicate es.length c := by
    rw [List.map_map, List.map_eq_replicate_iff]
    exact fun x hx => truth_paint (hes x hx)
  simp only [List.forall_mem_append, List.forall_mem_cons] at h
  simp only [truths_eq_map, around, List.map_append, List.map_cons, hpaint h.1, hpaint h.2.2]

theorem and_around (n k : Nat) :
    (List.replicate n true ++ b :: List.replicate k true).and = b := by
  simp [List.and, List.all_append]

theorem or_around (n k : Nat) :
    (List.replicate n false ++ b :: List.replicate k false).or = b := by
  simp [List.or, List.any_append]

end

def Misread (e : Expr) : Prop :=
  ∃ e' : Expr, e'.outline = e.outline ∧ e'.Logical .empty ∧
    ∀ target env, e'.value target env = some (!e'.truth env)

theorem exists_bare_or {m : Mark} {args : List Expr}
    (hk : ¬ (call m "AND" args).KeepsGrouping) : 2 ≤ args.length ∧
      ∃ before after m' l r, args = before ++ binary m' .or l r :: after := by
  simp only [KeepsGrouping, true_imp_iff, Classical.not_imp, Classical.not_forall,
    Bool.not_eq_false] at hk
  obtain ⟨hlen, a, ha, hor⟩ := hk
  obtain ⟨before, after, rfl⟩ := List.append_of_mem ha
  refine ⟨hlen, before, after, ?_⟩
  unfold isOr at hor
  split at hor
  · exact ⟨_, _, _, rfl⟩
  · cases hor

theorem starts_paint {m : Mark} {l r : Expr} (h : (binary m .or l r).Formed schema)
    (target : Target) (env : String → Option Bool) :
    (((binary m .or l r).paint true).term target).Starts target env :=
  Logic.Term.starts_disjoin (uniform_operand (uniform_paint h.binary.1)).eval

theorem ends_paint {m : Mark} {l r : Expr} (h : (binary m .or l r).Formed schema)
    (target : Target) (env : String → Option Bool) :
    (((binary m .or l r).paint true).term target).Ends target env :=
  Logic.Term.ends_disjoin (uniform_operand (uniform_paint h.binary.2.1))

/-- Next to a true disjunction nothing that `AND` joins matters. -/
theorem misread_and {m : Mark} {args : List Expr} (h : (call m "AND" args).Formed schema)
    (hk : ¬ (call m "AND" args).KeepsGrouping) : (call m "AND" args).Misread := by
  obtain ⟨hargs, -⟩ := h.call
  obtain ⟨hlen, before, after, m', l, r, rfl⟩ := exists_bare_or hk
  have hor : (binary m' .or l r).Formed schema := hargs _ (by simp)
  have hjoined (args : List Expr) (target : Target) (env : String → Option Bool) :
      (call m "AND" args).value target env =
        (Logic.Term.joinAll Logic.Term.conjoin (terms target args)).eval target env := rfl
  have htruth (args : List Expr) (env : String → Option Bool) :
      (call m "AND" args).truth env = (truths env args).and := rfl
  -- the neighbours on one side are false, which the true part on the other side hides
  cases before with
  | nil =>
    obtain ⟨y, after, rfl⟩ := List.exists_cons_of_ne_nil (l := after) (by rintro rfl; simp at hlen)
    refine ⟨_, outline_around true false (outline_paint true _),
      logical_around h.logical (logical_paint hor.logical), fun target env => ?_⟩
    have hstarts := (starts_paint hor target env).foldl
      (((y :: after).map (paint false)).map (term target))
    rw [hjoined, htruth, truths_around hargs, truth_paint hor, terms_eq_map, around,
      List.map_nil, List.nil_append, List.map_cons, Logic.Term.joinAll, hstarts.eval]
    simp [List.replicate_succ]
  | cons x before =>
    refine ⟨_, outline_around false true (outline_paint true _),
      logical_around h.logical (logical_paint hor.logical), fun target env => ?_⟩
    have hafter : ∀ t ∈ (after.map (paint true)).map (term target),
        t.Uniform target env true := by
      simp only [List.forall_mem_map]
      exact fun y hy => uniform_paint (hargs y (by simp [hy]))
    have hends (t : Logic.Term) :=
      (Logic.Term.Ends.of_conjoin (t := t) (ends_paint hor target env)).foldl hafter
    rw [hjoined, htruth, truths_around hargs, truth_paint hor, terms_eq_map, around,
      List.map_append, List.map_cons, List.map_cons, List.map_cons, List.cons_append,
      Logic.Term.joinAll, List.foldl_append, List.foldl_cons, (hends _).eval]
    simp [List.replicate_succ]

theorem misread_binary {m : Mark} {op : BinaryOp} {l r : Expr}
    (h : (binary m op l r).Formed schema) (hmis : l.Misread ∨ r.Misread) :
    (binary m op l r).Misread := by
  obtain ⟨hl, hr, hop, -⟩ := h.binary
  have hvariant {l' r' : Expr} (hol : l'.outline = l.outline) (hor : r'.outline = r.outline)
      (hll : l'.Logical .empty) (hlr : r'.Logical .empty) :
      (binary m op l' r').outline = (binary m op l r).outline ∧
        (binary m op l' r').Logical .empty :=
    ⟨by rw [outline, hol, hor, outline], all_binary.2 ⟨hll, hlr, hop⟩⟩
  -- the other side is painted so that it leaves the truth to the misread one
  rcases hmis with ⟨l', ho, hlog, hwrong⟩ | ⟨r', ho, hlog, hwrong⟩
  · obtain ⟨hout, hlogical⟩ :=
      hvariant ho (outline_paint (decide (op ≠ .or)) r) hlog (logical_paint hr.logical)
    refine ⟨_, hout, hlogical, fun target env => ?_⟩
    rw [value_binary (h.of_outline hout hlogical .empty) (hwrong target env) (value_paint hr),
      truth, truth_paint hr]
    rcases hop with rfl | rfl <;> simp
  · obtain ⟨hout, hlogical⟩ :=
      hvariant (outline_paint (decide (op ≠ .or)) l) ho (logical_paint hl.logical) hlog
    refine ⟨_, hout, hlogical, fun target env => ?_⟩
    rw [value_binary (h.of_outline hout hlogical .empty) (value_paint hl) (hwrong target env),
      truth, truth_paint hl]
    rcases hop with rfl | rfl <;> simp

theorem misread_not {m : Mark} {a : Expr} (hmis : a.Misread) :
    (call m "NOT" [a]).Misread := by
  obtain ⟨a', ho, hl, hwrong⟩ := hmis
  refine ⟨call m "NOT" [a'], by simp only [outline, outlines, ho],
    all_call.2 ⟨List.forall_mem_singleton.2 hl, .inr (.inr rfl)⟩, fun target env => ?_⟩
  rw [value_call_not, hwrong, Logic.negate_some]
  simp [truth, truths]

theorem misread_call {m : Mark} {name : String} {args : List Expr}
    (h : (call m name args).Formed schema) (hk : (call m name args).KeepsGrouping)
    {a : Expr} (ha : a ∈ args) (hmis : a.Misread) : (call m name args).Misread := by
  obtain ⟨hargs, hname, hsome, hone⟩ := h.call
  have ⟨a', ho, hl, hwrong⟩ := hmis
  have ⟨before, after, hsplit⟩ := List.append_of_mem ha
  have hvariant (c : Bool) :
      (call m name (around c c before a' after)).outline = (call m name args).outline ∧
        (call m name (around c c before a' after)).Logical .empty := by
    subst hsplit
    exact ⟨outline_around c c ho, logical_around h.logical hl⟩
  have hform (c : Bool) := h.of_outline (hvariant c).1 (hvariant c).2 .empty
  rcases hname with rfl | rfl | rfl
  · obtain ⟨hout, hlog⟩ := hvariant true
    have hkeeps : (call m "AND" (around true true before a' after)).KeepsGrouping := by
      rwa [← keepsGrouping_outline, hout, keepsGrouping_outline]
    refine ⟨_, hout, hlog, fun target env => ?_⟩
    have htruth : (call m "AND" (around true true before a' after)).truth env =
      (truths env (around true true before a' after)).and := rfl
    rw [value_call_and (by simp [around]) (hform true).call.1 hkeeps
      (values_around (hsplit ▸ hargs) (hwrong target env)), htruth,
      truths_around (hsplit ▸ hargs), and_around, and_around]
  · obtain ⟨hout, hlog⟩ := hvariant false
    refine ⟨_, hout, hlog, fun target env => ?_⟩
    have htruth : (call m "OR" (around false false before a' after)).truth env =
      (truths env (around false false before a' after)).or := rfl
    rw [value_call_or (by simp [around]) (values_around (hsplit ▸ hargs) (hwrong target env)),
      htruth, truths_around (hsplit ▸ hargs), or_around, or_around]
  · obtain ⟨x, rfl⟩ := hone rfl
    obtain rfl := List.mem_singleton.1 ha
    exact misread_not hmis

/-- Where `AND` joins a bare disjunction, some variant of the formula is misread: the part around
the call is painted so that the call decides. -/
theorem exists_wrong_variant (h : e.Formed schema) (hk : ¬ e.All KeepsGrouping) : e.Misread := by
  induction e with
  | literal m value => exact absurd (all_literal.2 trivial) hk
  | field m name => exact absurd (all_field.2 trivial) hk
  | binary m op l r ihl ihr =>
    obtain ⟨hl, hr, -⟩ := h.binary
    by_cases hkl : l.All KeepsGrouping
    · exact misread_binary h (.inr (ihr hr fun hkr => hk (all_binary.2 ⟨hkl, hkr, trivial⟩)))
    · exact misread_binary h (.inl (ihl hl hkl))
  | unary m op e ih =>
    have hke : ¬ e.All KeepsGrouping := fun he => hk (all_unary.2 ⟨he, trivial⟩)
    obtain ⟨e', ho, hl, hwrong⟩ := ih h.unary hke
    obtain rfl : op = .not := (all_unary.1 h.logical).2
    refine ⟨unary m .not e', by rw [outline, ho, outline], all_unary.2 ⟨hl, rfl⟩, ?_⟩
    intro target env
    rw [value_not, hwrong, Logic.negate_some, truth]
  | group m e ih =>
    have hke : ¬ e.All KeepsGrouping := fun he => hk (all_group.2 ⟨he, trivial⟩)
    obtain ⟨e', ho, hl, hwrong⟩ := ih h.group hke
    exact ⟨group m e', by rw [outline, ho, outline], all_group.2 ⟨hl, trivial⟩, hwrong⟩
  | call m name args ih =>
    obtain ⟨hargs, -⟩ := h.call
    by_cases hself : (call m name args).KeepsGrouping
    · have hsome : ¬ ∀ a ∈ args, a.All KeepsGrouping := fun ha => hk (all_call.2 ⟨ha, hself⟩)
      simp only [Classical.not_forall] at hsome
      obtain ⟨a, ha, hka⟩ := hsome
      exact misread_call h hself ha (ih a ha (hargs a ha) hka)
    · obtain rfl : name = "AND" := Classical.byContradiction fun hne =>
        hself fun hname => absurd hname hne
      exact misread_and h hself
  | conditional _ _ _ _ _ _ _ | sequence _ _ _ => exact absurd h.logical.root not_false

end

end Expr

end FieldFormula
