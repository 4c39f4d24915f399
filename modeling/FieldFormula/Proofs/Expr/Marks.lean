import FieldFormula.Proofs.Expr.Grammar
import FieldFormula.Proofs.Output.Composition

/-!
Expressions with other marks. A mark reaches the text of an expression only by the type that the
table holds under its number. Main statement: where the types stay, so does the text of either
target (`generate_remark`).
-/
namespace FieldFormula

namespace Expr

mutual

def remark (f : Mark → Mark) : Expr → Expr
  | literal m value => literal (f m) value
  | field m name => field (f m) name
  | binary m op left right => binary (f m) op (left.remark f) (right.remark f)
  | unary m op operand => unary (f m) op (operand.remark f)
  | group m inner => group (f m) (inner.remark f)
  | conditional m c y n => conditional (f m) (c.remark f) (y.remark f) (n.remark f)
  | call m name args => call (f m) name (remarks f args)
  | sequence m items => sequence (f m) (remarks f items)

def remarks (f : Mark → Mark) : List Expr → List Expr
  | [] => []
  | e :: es => e.remark f :: remarks f es

end

attribute [local simp] remark remarks

section
variable (f : Mark → Mark)

theorem remarks_eq_map (es : List Expr) : remarks f es = es.map (remark f) :=
  eq_map_of_cons rfl (fun _ _ => rfl) es

@[simp] theorem mark_remark (e : Expr) : (e.remark f).mark = f e.mark := by
  cases e <;> rfl

@[simp] theorem isConstant_remark (e : Expr) : (e.remark f).isConstant = e.isConstant := by
  induction e with
  | group m inner ih => exact ih
  | _ => rfl

@[simp] theorem isOperation_remark (e : Expr) : (e.remark f).isOperation = e.isOperation := by
  cases e <;> rfl

@[simp] theorem isNot_remark (e : Expr) : (e.remark f).isNot = e.isNot := by
  cases e with
  | unary m op operand => cases op <;> rfl
  | _ => rfl

theorem nodesOf_remarks {es : List Expr}
    (h : ∀ e ∈ es, (e.remark f).nodes = e.nodes.map (remark f)) :
    nodesOf (remarks f es) = (nodesOf es).map (remark f) := by
  induction es with
  | nil => rfl
  | cons e es ih =>
    obtain ⟨he, hes⟩ := List.forall_mem_cons.1 h
    rw [remarks, nodesOf, nodesOf, he, ih hes, List.map_append]

theorem nodes_remark (e : Expr) : (e.remark f).nodes = e.nodes.map (remark f) := by
  induction e with
  | literal m value | field m name => rfl
  | binary m op left right ihl ihr =>
    simp only [remark, nodes, ihl, ihr, List.map_append, List.map_cons, List.map_nil]
  | unary m op operand ih | group m operand ih =>
    simp only [remark, nodes, ih, List.map_append, List.map_cons, List.map_nil]
  | conditional m c y n ihc ihy ihn =>
    simp only [remark, nodes, ihc, ihy, ihn, List.map_append, List.map_cons, List.map_nil]
  | call m name args ih | sequence m args ih =>
    simp only [remark, nodes, nodesOf_remarks f ih, List.map_append, List.map_cons, List.map_nil]

end

theorem remarks_id {es : List Expr} (h : ∀ e ∈ es, e.remark (fun m => m) = e) :
    remarks (fun m => m) es = es := by
  rw [remarks_eq_map, List.map_congr_left h, List.map_id']

theorem remark_id (e : Expr) : e.remark (fun m => m) = e := by
  induction e with
  | literal m value | field m name => rfl
  | binary m op left right ihl ihr => rw [remark, ihl, ihr]
  | unary m op operand ih | group m operand ih => rw [remark, ih]
  | conditional m c y n ihc ihy ihn => rw [remark, ihc, ihy, ihn]
  | call m name args ih | sequence m args ih => rw [remark, remarks_id ih]

def Keeps (f : Mark → Mark) (types types' : TypeTable) (n : Expr) : Prop :=
  types'.typeOf (n.remark f) = types.typeOf n

end Expr

section Text
open FieldFormula.Expr
variable {f : Mark → Mark} {types types' : TypeTable}

theorem Sql.ofBinary_remark {left right : Expr} (hl : left.Keeps f types types')
    (hr : right.Keeps f types types') (op : BinaryOp) (type : ValueType) (x y : Sql) :
    ofBinary types' op type (left.remark f) (right.remark f) x y =
      ofBinary types op type left right x y := by
  simp only [ofBinary, castText, operand, isOperation_remark, isNot_remark]
  rw [hl, hr]

theorem Sql.ofExprs_remark {es : List Expr}
    (h : ∀ e ∈ es, ofExpr types' (e.remark f) = ofExpr types e) :
    ofExprs types' (remarks f es) = ofExprs types es := by
  rw [ofExprs_eq_map, ofExprs_eq_map, remarks_eq_map, List.map_map]
  exact List.map_congr_left h

theorem Sql.ofExpr_remark {e : Expr} (h : e.All (Keeps f types types')) :
    ofExpr types' (e.remark f) = ofExpr types e := by
  induction e with
  | literal m value => rfl
  | field m name => exact congrArg (fun t => Sql.field name (zero t)) h.root
  | binary m op left right ihl ihr =>
    obtain ⟨hl, hr, hself⟩ := all_binary.1 h
    have htype : types'.typeOf (.binary (f m) op (left.remark f) (right.remark f)) =
        types.typeOf (.binary m op left right) := hself
    rw [remark, ofExpr, ofExpr, ihl hl, ihr hr, htype, ofBinary_remark hl.root hr.root]
  | unary m op operand ih =>
    obtain ⟨he, -⟩ := all_unary.1 h
    cases op with
    | negate => rw [remark, ofExpr, ofExpr, ih he]
    | not => rw [remark, ofExpr, ofExpr, ih he, Sql.operand, Sql.operand, isNot_remark]
  | group m inner ih =>
    rw [remark, ofExpr, ofExpr, ih (all_group.1 h).1]
  | conditional m c y n ihc ihy ihn =>
    obtain ⟨hc, hy, hn, -⟩ := all_conditional.1 h
    rw [remark, ofExpr, ofExpr, ihc hc, ihy hy, ihn hn]
  | call m name args ih =>
    rw [remark, ofExpr, ofExpr, ofExprs_remark fun e he => ih e he ((all_call.1 h).1 e he)]
  | sequence m items ih =>
    rw [remark, ofExpr, ofExpr, ofExprs_remark fun e he => ih e he ((all_sequence.1 h).1 e he)]

theorem Script.nullable_remark {e : Expr} (h : e.All (Keeps f types types')) :
    nullable types' (e.remark f) = nullable types e := by
  induction e with
  | literal m value => rfl
  | field m name => exact congrArg mayBeNull h.root
  | group m inner ih => exact ih (all_group.1 h).1
  | conditional m c y n _ ihy ihn =>
    obtain ⟨-, hy, hn, -⟩ := all_conditional.1 h
    rw [remark, nullable, nullable, ihy hy, ihn hn]
  | call m name args _ => exact congrArg mayBeNull h.root
  | binary _ _ _ _ _ _ | unary _ _ _ _ | sequence _ _ _ => rfl

theorem Script.instantOf_remark (e : Expr) (x : Script) :
    instantOf (e.remark f) x = instantOf e x := by
  cases e with
  | literal m value => cases value <;> rfl
  | _ => rfl

theorem Script.ofBinary_remark {left right : Expr} (hl : left.All (Keeps f types types'))
    (hr : right.All (Keeps f types types')) (op : BinaryOp) (type : ValueType) (x y : Script) :
    ofBinary types' op type (left.remark f) (right.remark f) x y =
      ofBinary types op type left right x y := by
  simp only [ofBinary, interpolated, nullable_remark hl, nullable_remark hr, instantOf_remark]
  rw [hl.root, hr.root]

theorem Script.ofExprs_remark {es : List Expr}
    (h : ∀ e ∈ es, ofExpr types' (e.remark f) = ofExpr types e) :
    ofExprs types' (remarks f es) = ofExprs types es := by
  rw [ofExprs_eq_map, ofExprs_eq_map, remarks_eq_map, List.map_map]
  exact List.map_congr_left h

theorem Script.ofExpr_remark {e : Expr} (h : e.All (Keeps f types types')) :
    ofExpr types' (e.remark f) = ofExpr types e := by
  induction e with
  | literal m value => rfl
  | field m name => exact congrArg (fun t => Script.field name (zero t)) h.root
  | binary m op left right ihl ihr =>
    obtain ⟨hl, hr, hself⟩ := all_binary.1 h
    have htype : types'.typeOf (.binary (f m) op (left.remark f) (right.remark f)) =
        types.typeOf (.binary m op left right) := hself
    rw [remark, ofExpr, ofExpr, ihl hl, ihr hr, htype, ofBinary_remark hl hr]
  | unary m op operand ih =>
    obtain ⟨he, -⟩ := all_unary.1 h
    cases op with
    | negate => rw [remark, ofExpr, ofExpr, ih he]
    | not => rw [remark, ofExpr, ofExpr, ih he]
  | group m inner ih =>
    rw [remark, ofExpr, ofExpr, ih (all_group.1 h).1]
  | conditional m c y n ihc ihy ihn =>
    obtain ⟨hc, hy, hn, -⟩ := all_conditional.1 h
    rw [remark, ofExpr, ofExpr, ihc hc, ihy hy, ihn hn]
  | call m name args ih =>
    rw [remark, ofExpr, ofExpr, ofExprs_remark fun e he => ih e he ((all_call.1 h).1 e he)]
  | sequence m items ih =>
    rw [remark, ofExpr, ofExpr, ofExprs_remark fun e he => ih e he ((all_sequence.1 h).1 e he)]

theorem generate_remark {e : Expr} (h : e.All (Keeps f types types')) (target : Target) :
    target.generate types' (e.remark f) = target.generate types e := by
  cases target with
  | sql => exact congrArg Sql.render (Sql.ofExpr_remark h)
  | script => exact congrArg Script.render (Script.ofExpr_remark h)

end Text

end FieldFormula
