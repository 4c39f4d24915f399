import FieldFormula.Proofs.Basic
import FieldFormula.Proofs.Expr.Grammar
import FieldFormula.Proofs.Logic.Joining

/-!
Logical formulas, their truth, and what their text is read as in either target. Argument texts of a
call are joined as they are, so the term is put together by the joins of texts and not by the
structure of the tree. Main statement: the text generated for a logical formula is that of its term
(`generate_eq_text`), which is well formed (`wellFormed_term`).
-/
namespace FieldFormula

namespace Expr
open Logic (Term)

def IsLogical (schema : Schema) : Expr → Prop
  | literal _ value => ∃ b, value = .boolean b
  | field _ name => (schema.get? name).map Field.type = some .boolean
  | binary _ op _ _ => op = .and ∨ op = .or
  | unary _ op _ => op = .not
  | group _ _ => True
  | call _ name _ => name = "AND" ∨ name = "OR" ∨ name = "NOT"
  | conditional _ _ _ _ | sequence _ _ => False

def Logical (schema : Schema) (e : Expr) : Prop := e.All (IsLogical schema)

instance (schema : Schema) : DecidablePred (IsLogical schema)
  | literal _ (.boolean b) => isTrue ⟨b, rfl⟩
  | literal _ (.text _) | literal _ (.number _) | literal _ (.date _) | literal _ .null =>
    isFalse (by rintro ⟨b, ⟨⟩⟩)
  | field _ _ => inferInstanceAs (Decidable (_ = _))
  | binary _ _ _ _ => inferInstanceAs (Decidable (_ ∨ _))
  | unary _ _ _ => inferInstanceAs (Decidable (_ = _))
  | group _ _ => isTrue trivial
  | call _ _ _ => inferInstanceAs (Decidable (_ ∨ _ ∨ _))
  | conditional _ _ _ _ | sequence _ _ => isFalse not_false

instance (schema : Schema) : DecidablePred (Logical schema) :=
  fun e => inferInstanceAs (Decidable (e.All _))

mutual

/-- The truth of a logical formula where the fields have the values `env`; a missing one counts as
false. -/
def truth (env : String → Option Bool) : Expr → Bool
  | literal _ value => value == .boolean true
  | field _ name => (env name).getD false
  | binary _ op l r => if op = .or then l.truth env || r.truth env else l.truth env && r.truth env
  | unary _ _ e => !e.truth env
  | group _ e => e.truth env
  | call _ name args =>
    if name = "OR" then (truths env args).or
    else if name = "NOT" then !(truths env args).and
    else (truths env args).and
  | conditional _ _ _ _ | sequence _ _ => false

def truths (env : String → Option Bool) : List Expr → List Bool
  | [] => []
  | e :: es => e.truth env :: truths env es

end

end Expr

namespace Logic

def fieldTerm (name : String) : Target → Term
  | .script => .group (.binary .orElse (.field name) (.constant false))
  | .sql => .coalesce (.field name) (.constant false)

def operand (target : Target) (e : Expr) (t : Term) : Term :=
  if target = .sql ∧ e.isNot = true then .group t else t

def callTerm (target : Target) (name : String) (ts : List Term) : Term :=
  if name = "NOT" then
    match target with
    | .script => .not (.group (Term.joinAll Term.conjoin ts))
    | .sql => .group (.not (.group (Term.joinAll Term.conjoin ts)))
  else if name = "OR" then .group (Term.joinAll Term.disjoin ts)
  else .group (Term.joinAll Term.conjoin ts)

end Logic

namespace Expr
open Logic (Term)

mutual

def term (target : Target) : Expr → Term
  | literal _ value => .constant (value == .boolean true)
  | field _ name => Logic.fieldTerm name target
  | binary _ op l r =>
    let tl := Logic.operand target l (l.term target)
    let tr := Logic.operand target r (r.term target)
    if op = .or then tl.disjoin tr else tl.conjoin tr
  | unary _ _ e => .not (Logic.operand target e (e.term target))
  | group _ e => .group (e.term target)
  | call _ name args => Logic.callTerm target name (terms target args)
  | conditional _ _ _ _ | sequence _ _ => .constant false

def terms (target : Target) : List Expr → List Term
  | [] => []
  | e :: es => e.term target :: terms target es

end

attribute [local simp] truth truths term terms

theorem truths_eq_map (env : String → Option Bool) (es : List Expr) :
    truths env es = es.map (truth env) :=
  eq_map_of_cons rfl (fun _ _ => rfl) es

theorem terms_eq_map (target : Target) (es : List Expr) :
    terms target es = es.map (term target) :=
  eq_map_of_cons rfl (fun _ _ => rfl) es

end Expr

namespace Logic
variable {target : Target} {t : Term}

theorem Term.WellFormed.group (h : t.WellFormed target) : (Term.group t).WellFormed target :=
  ⟨h.graded, h.unmixed, h.of, by rintro _ _ ⟨⟩⟩

theorem Term.WellFormed.not (h : t.WellFormed target) (hl : 3 ≤ t.level) :
    (Term.not t).WellFormed target :=
  ⟨⟨h.graded, hl⟩, h.unmixed, h.of, by rintro _ _ ⟨⟩⟩

theorem wellFormed_constant (b : Bool) : (Term.constant b).WellFormed target :=
  ⟨trivial, rfl, trivial, by rintro _ _ ⟨⟩⟩

theorem wellFormed_fieldTerm (name : String) : (fieldTerm name target).WellFormed target := by
  cases target with
  | script =>
    exact ⟨⟨trivial, trivial, by simp [Term.level, Connective.level], by decide⟩, rfl,
      ⟨fun _ => rfl, trivial, trivial⟩, by rintro _ _ ⟨⟩⟩
  | sql => exact ⟨⟨trivial, trivial⟩, rfl, ⟨rfl, trivial, trivial⟩, by rintro _ _ ⟨⟩⟩

theorem wellFormed_operand {e : Expr} (h : t.WellFormed target) :
    (operand target e t).WellFormed target := by
  unfold operand
  split
  · exact h.group
  · exact h

theorem wellFormed_joinAll {join : Term → Term → Term}
    (hjoin : ∀ t u, t.WellFormed target → u.WellFormed target → (join t u).WellFormed target)
    {ts : List Term} (h : ∀ t ∈ ts, t.WellFormed target) :
    (Term.joinAll join ts).WellFormed target := by
  by_cases hne : ts = []
  · rw [hne]
    exact wellFormed_constant false
  · exact Term.forall_joinAll hjoin hne h

theorem wellFormed_callTerm {name : String} {ts : List Term} (h : ∀ t ∈ ts, t.WellFormed target) :
    (callTerm target name ts).WellFormed target := by
  have hand := wellFormed_joinAll (fun _ _ => Term.wellFormed_conjoin) h
  have hor := wellFormed_joinAll (fun _ _ => Term.wellFormed_disjoin) h
  unfold callTerm
  split
  · cases target with
    | script => exact hand.group.not (by simp [Term.level])
    | sql => exact (hand.group.not (by simp [Term.level])).group
  · split
    · exact hor.group
    · exact hand.group

theorem three_le_level {schema : Schema} {e : Expr} (h : e.IsLogical schema)
    (hs : e.strength = 8) : 3 ≤ (e.term target).level := by
  cases e with
  | literal m value => simp [Expr.term, Term.level]
  | field m name => cases target <;> simp [Expr.term, fieldTerm, Term.level]
  | binary m op l r =>
    have hop : op.strength ≤ 7 := by cases op <;> decide
    rw [Expr.strength_binary] at hs
    omega
  | unary m op e => simp [Expr.term, Term.level]
  | group m e => simp [Expr.term, Term.level]
  | call m name args =>
    rw [Expr.term]
    unfold callTerm
    split
    · cases target <;> simp [Term.level]
    · split <;> simp [Term.level]
  | conditional _ _ _ _ | sequence _ _ => exact absurd h not_false

theorem le_level_operand {n : Nat} {e : Expr} (h : n ≤ t.level) (hn : n ≤ 4) :
    n ≤ (operand target e t).level := by
  unfold operand
  split
  · exact hn
  · exact h

theorem wellFormed_term {schema : Schema} {e : Expr} (h : e.Logical schema)
    (ho : e.All Expr.Obeys) : (e.term target).WellFormed target := by
  induction e with
  | literal m value => exact wellFormed_constant _
  | field m name => exact wellFormed_fieldTerm name
  | binary m op l r ihl ihr =>
    obtain ⟨hl, hr, -⟩ := Expr.all_binary.1 h
    obtain ⟨hol, hor, -⟩ := Expr.all_binary.1 ho
    have hleft := wellFormed_operand (e := l) (ihl hl hol)
    have hright := wellFormed_operand (e := r) (ihr hr hor)
    simp only [Expr.term]
    split
    · exact Term.wellFormed_disjoin hleft hright
    · exact Term.wellFormed_conjoin hleft hright
  | unary m op e ih =>
    obtain ⟨he, -⟩ := Expr.all_unary.1 h
    obtain ⟨hoe, hobeys⟩ := Expr.all_unary.1 ho
    rw [Expr.term]
    exact (wellFormed_operand (ih he hoe)).not
      (le_level_operand (three_le_level he.root hobeys) (by decide))
  | group m e ih =>
    rw [Expr.term]
    exact (ih (Expr.all_group.1 h).1 (Expr.all_group.1 ho).1).group
  | call m name args ih =>
    rw [Expr.term, Expr.terms_eq_map]
    refine wellFormed_callTerm (List.forall_mem_map.2 fun e he => ih e he ?_ ?_)
    · exact (Expr.all_call.1 h).1 e he
    · exact (Expr.all_call.1 ho).1 e he
  | conditional _ _ _ _ _ _ _ | sequence _ _ _ => exact absurd h.root not_false

def template : Target → Builtin → Template
  | .sql => Builtin.sql
  | .script => Builtin.script

theorem renderAll_sql (types : TypeTable) (es : List Expr) :
    Sql.renderAll (Sql.ofExprs types es) = es.map (Target.generate .sql types) := by
  induction es with
  | nil => rfl
  | cons e es ih => exact congrArg (_ :: ·) ih

theorem renderAll_script (types : TypeTable) (es : List Expr) :
    Script.renderAll (Script.ofExprs types es) = es.map (Target.generate .script types) := by
  induction es with
  | nil => rfl
  | cons e es ih => exact congrArg (_ :: ·) ih

theorem generate_call (types : TypeTable) (m : Mark) {name : String} {f : Builtin}
    (hf : Builtin.find? name = some f) (args : List Expr) :
    target.generate types (.call m name args) =
      (template target f).fill (args.map (target.generate types)) := by
  cases target with
  | sql =>
    have hcall : Target.generate .sql types (.call m name args) =
        ((Builtin.find? name).elim (.plain (Template.call name)) Builtin.sql).fill
          (Sql.renderAll (Sql.ofExprs types args)) := rfl
    rw [hcall, hf, Option.elim_some, renderAll_sql, template]
  | script =>
    have hcall : Target.generate .script types (.call m name args) =
        ((Builtin.find? name).elim (.plain (Template.call name)) Builtin.script).fill
          (Script.renderAll (Script.ofExprs types args)) := rfl
    rw [hcall, hf, Option.elim_some, renderAll_script, template]

theorem fill_chain (op : String) (args : List String) :
    (Template.plain (Template.chain op)).fill args =
      "(" ++ (" " ++ op ++ " ").intercalate args ++ ")" := by
  simp [Template.fill, Template.pieces, Template.chain, Piece.fill, String.append_assoc]

theorem generate_connective {name : String} (op : Connective)
    (h : (name, op) ∈ [("AND", Connective.and), ("OR", Connective.or)]) (types : TypeTable)
    (m : Mark) (args : List Expr) : target.generate types (.call m name args) =
      "(" ++ (" " ++ op.symbol target ++ " ").intercalate (args.map (target.generate types)) ++
        ")" := by
  have hall : ∀ pair ∈ [("AND", Connective.and), ("OR", Connective.or)],
      (Builtin.find? pair.1).map (fun f => (f.sql, f.script)) =
        some (.plain (Template.chain (pair.2.symbol .sql)),
          .plain (Template.chain (pair.2.symbol .script))) := by decide +kernel
  obtain ⟨f, hf, htemplates⟩ := Option.map_eq_some_iff.1 (hall _ h)
  obtain ⟨hsql, hscript⟩ := Prod.mk.inj htemplates
  have htemplate : template target f = .plain (Template.chain (op.symbol target)) := by
    cases target <;> assumption
  rw [generate_call types m hf, htemplate, fill_chain]

theorem generate_not (types : TypeTable) (m : Mark) (e : Expr) :
    target.generate types (.call m "NOT" [e]) =
      match target with
      | .sql => "(NOT (" ++ target.generate types e ++ "))"
      | .script => "!(" ++ target.generate types e ++ ")" := by
  have hfind : (Builtin.find? "NOT").map (fun f => (f.sql, f.script)) =
      some (.plain ["(NOT (", 0, "))"], .plain ["!(", 0, ")"]) := by decide +kernel
  obtain ⟨f, hf, htemplates⟩ := Option.map_eq_some_iff.1 hfind
  obtain ⟨hsql, hscript⟩ := Prod.mk.inj htemplates
  rw [generate_call types m hf]
  cases target with
  | sql =>
    rw [template, hsql]
    simp [Template.fill, Template.pieces, Piece.fill, String.append_assoc]
  | script =>
    rw [template, hscript]
    simp [Template.fill, Template.pieces, Piece.fill, String.append_assoc]

theorem length_of_placed {m : Mark} {name : String} {args : List Expr}
    (h : (Expr.call m name args).Placed) :
    (name = "AND" ∨ name = "OR" → args ≠ []) ∧ (name = "NOT" → ∃ e, args = [e]) := by
  obtain ⟨f, hf, rfl, harity⟩ := h
  have hall : ∀ f ∈ Builtin.all, (f.name = "AND" ∨ f.name = "OR" → f.arity = .range 1 none) ∧
      (f.name = "NOT" → f.arity = .exact 1) := by decide +kernel
  constructor
  · rintro hname rfl
    rw [(hall f hf).1 hname] at harity
    exact absurd harity (by decide)
  · intro hname
    rw [(hall f hf).2 hname] at harity
    exact List.length_eq_one_iff.1 (by simpa [Arity.accepts] using harity)

def operandText (target : Target) (types : TypeTable) (e : Expr) : String :=
  match target with
  | .sql => (Sql.operand e (Sql.ofExpr types e)).render
  | .script => (Script.ofExpr types e).render

theorem operandText_eq {types : TypeTable} {e : Expr}
    (h : target.generate types e = t.text target) :
    operandText target types e = (operand target e t).text target := by
  cases target with
  | script => exact h
  | sql =>
    by_cases hnot : e.isNot = true
    · have hgroup : operandText .sql types e = "(" ++ Target.generate .sql types e ++ ")" := by
        simp only [operandText, Sql.operand, hnot, if_true]
        rfl
      rw [hgroup, h, operand, if_pos ⟨rfl, hnot⟩]
      rfl
    · have hplain : operandText .sql types e = Target.generate .sql types e := by
        simp only [operandText, Sql.operand, hnot]
        rfl
      rw [hplain, h, operand, if_neg fun k => hnot k.2]

theorem generate_eq_text {schema : Schema} {types : TypeTable} {e : Expr}
    (h : e.Logical schema) (hp : e.All Expr.Placed)
    (ht : e.All fun n => types.typeOf n = .boolean) :
    target.generate types e = (e.term target).text target := by
  induction e with
  | literal m value =>
    obtain ⟨b, rfl⟩ := Expr.all_literal.1 h
    cases target <;> cases b <;> rfl
  | field m name =>
    have htype := Expr.all_field.1 ht
    cases target with
    | sql =>
      have hfield : Target.generate .sql types (.field m name) = "COALESCE($$VARIABLES[" ++
        Sql.quote name ++ "], " ++ Sql.zero (types.typeOf (.field m name)) ++ ")" := rfl
      rw [hfield, htype]
      apply String.toList_inj.1
      simp [Expr.term, fieldTerm, Term.text, quoteKey, Sql.zero, boolText]
    | script =>
      have hfield : Target.generate .script types (.field m name) = "($$VARIABLES[" ++
        Script.quoteKey name ++ "] ?? " ++ Script.zero (types.typeOf (.field m name)) ++ ")" := rfl
      rw [hfield, htype]
      apply String.toList_inj.1
      simp [Expr.term, fieldTerm, Term.text, quoteKey, Script.zero, boolText, Connective.symbol]
  | binary m op l r ihl ihr =>
    obtain ⟨hl, hr, hop⟩ := Expr.all_binary.1 h
    obtain ⟨hpl, hpr, -⟩ := Expr.all_binary.1 hp
    obtain ⟨htl, htr, -⟩ := Expr.all_binary.1 ht
    have hleft := operandText_eq (ihl hl hpl htl)
    have hright := operandText_eq (ihr hr hpr htr)
    rcases hop with rfl | rfl
    · have hbinary : target.generate types (.binary m .and l r) = operandText target types l ++
          " " ++ Connective.and.symbol target ++ " " ++ operandText target types r := by
        cases target <;> rfl
      rw [hbinary, hleft, hright]
      exact (Term.text_conjoin ..).symm
    · have hbinary : target.generate types (.binary m .or l r) = operandText target types l ++
          " " ++ Connective.or.symbol target ++ " " ++ operandText target types r := by
        cases target <;> rfl
      rw [hbinary, hleft, hright]
      exact (Term.text_disjoin ..).symm
  | unary m op e ih =>
    obtain ⟨he, rfl⟩ := Expr.all_unary.1 h
    have hoperand := operandText_eq (ih he (Expr.all_unary.1 hp).1 (Expr.all_unary.1 ht).1)
    have hunary : target.generate types (.unary m .not e) =
        negationSign target ++ operandText target types e := by cases target <;> rfl
    rw [hunary, hoperand]
    rfl
  | group m e ih =>
    have hinner := ih (Expr.all_group.1 h).1 (Expr.all_group.1 hp).1 (Expr.all_group.1 ht).1
    have hgroup : target.generate types (.group m e) = "(" ++ target.generate types e ++ ")" := by
      cases target <;> rfl
    rw [hgroup, hinner]
    rfl
  | call m name args ih =>
    obtain ⟨ha, hname⟩ := Expr.all_call.1 h
    obtain ⟨hpa, hplaced⟩ := Expr.all_call.1 hp
    obtain ⟨hta, -⟩ := Expr.all_call.1 ht
    have hargs : args.map (target.generate types) =
        (Expr.terms target args).map (Term.text target) := by
      rw [Expr.terms_eq_map, List.map_map]
      exact List.map_congr_left fun e he => ih e he (ha e he) (hpa e he) (hta e he)
    -- the templates join the argument texts as they are, which is what `Term.joinAll` reads
    obtain ⟨hsome, hone⟩ := length_of_placed hplaced
    have hne (hn : name = "AND" ∨ name = "OR") : Expr.terms target args ≠ [] := by
      rw [Expr.terms_eq_map]
      exact fun hnil => hsome hn (List.map_eq_nil_iff.1 hnil)
    rcases hname with rfl | rfl | rfl
    · rw [generate_connective .and (by decide), hargs,
        ← Term.text_joinAll (Term.text_conjoin target) (hne (.inl rfl))]
      rfl
    · rw [generate_connective .or (by decide), hargs,
        ← Term.text_joinAll (Term.text_disjoin target) (hne (.inr rfl))]
      rfl
    · obtain ⟨e, rfl⟩ := hone rfl
      have he := ih e (List.mem_singleton_self e) (ha e (List.mem_singleton_self e))
        (hpa e (List.mem_singleton_self e)) (hta e (List.mem_singleton_self e))
      rw [generate_not, he]
      apply String.toList_inj.1
      cases target <;> simp [Expr.term, Expr.terms, callTerm, Term.joinAll, Term.text,
        negationSign]
  | conditional _ _ _ _ _ _ _ | sequence _ _ _ => exact absurd h.root not_false

end Logic

end FieldFormula
