import FieldFormula.Proofs.Output.Scanning

/-!
Properties of generated texts that a whole has if its parts have them. They are properties of texts
that vary together, so that one argument serves for a single text and for all texts that a formula
gives as something in it changes. What the targets write around operands differs, but not how a
formula is taken apart (`generate_group`, `generate_not`, `generate_negate`, `generate_conditional`,
`generate_call`, `generate_sequence`). Main statement: what holds of the texts of two operands holds
of the text of every operation on them (`Compositional.binary`).
-/
namespace FieldFormula

theorem Sql.ofExprs_eq_map (types : TypeTable) (es : List Expr) :
    ofExprs types es = es.map (ofExpr types) :=
  eq_map_of_cons rfl (fun _ _ => rfl) es

theorem Script.ofExprs_eq_map (types : TypeTable) (es : List Expr) :
    ofExprs types es = es.map (ofExpr types) :=
  eq_map_of_cons rfl (fun _ _ => rfl) es

namespace Expr

/-- The expressions are alike in all that is asked about an operand besides its type and text. -/
structure Alike (e e' : Expr) : Prop where
  mark : e.mark = e'.mark
  isConstant : e.isConstant = e'.isConstant
  isOperation : e.isOperation = e'.isOperation
  isNot : e.isNot = e'.isNot
  nullable (types : TypeTable) : Script.nullable types e = Script.nullable types e'
  instantOf (x : Script) : Script.instantOf e x = Script.instantOf e' x

theorem Alike.refl (e : Expr) : Alike e e := ⟨rfl, rfl, rfl, rfl, fun _ => rfl, fun _ => rfl⟩

theorem Alike.typeOf {e e' : Expr} (h : Alike e e') (types : TypeTable) :
    types.typeOf e = types.typeOf e' := by
  rw [TypeTable.typeOf, TypeTable.typeOf, id, id, h.mark]

end Expr

section
variable {types : TypeTable} {op : BinaryOp} {type : ValueType} {left left' right right' : Expr}
  (hl : Expr.Alike left left') (hr : Expr.Alike right right')
include hl hr

theorem Sql.ofBinary_congr (x y : Sql) :
    ofBinary types op type left right x y = ofBinary types op type left' right' x y := by
  have hcast : castText left x = castText left' x ∧ castText right y = castText right' y := by
    unfold castText
    rw [hl.isOperation, hr.isOperation]
    exact ⟨rfl, rfl⟩
  have hoperand : operand left x = operand left' x ∧ operand right y = operand right' y := by
    unfold operand
    rw [hl.isNot, hr.isNot]
    exact ⟨rfl, rfl⟩
  unfold ofBinary
  rw [hl.typeOf types, hr.typeOf types, hcast.1, hcast.2, hoperand.1, hoperand.2]

theorem Script.ofBinary_congr (x y : Script) :
    ofBinary types op type left right x y = ofBinary types op type left' right' x y := by
  have hinterpolated : interpolated types left x = interpolated types left' x ∧
      interpolated types right y = interpolated types right' y := by
    unfold interpolated
    rw [hl.nullable types, hr.nullable types]
    exact ⟨rfl, rfl⟩
  unfold ofBinary
  rw [hl.typeOf types, hr.typeOf types, hinterpolated.1, hinterpolated.2, hl.instantOf x,
    hr.instantOf y]

end

namespace Output

/-- Every closed text has the property, and pieces that are scanned well carry it from the texts in
their places to the whole. -/
structure Compositional {ι : Type} (target : Target) (P : (ι → String) → Prop) : Prop where
  constant {x : String} : Closed target x → P fun _ => x
  filled {pieces : List Piece} {args : List (ι → String)} : scansWell target pieces = true →
    (∀ x ∈ args, P x) → P fun i => Piece.filled pieces (args.map fun x => x i)

theorem compositional_closed (target : Target) :
    Compositional target fun x : Unit → String => Closed target (x ()) where
  constant := id
  filled h hargs := .filled h (List.forall_mem_map.2 hargs)

section Trees
open FieldFormula.Output.Language
variable {ι T : Type} [Language T] {target : Target} {P : (ι → String) → Prop} {F G H : ι → T}
  {pieces : List Piece} (hP : Compositional target P)
include hP

theorem Compositional.render (args : List (ι → String))
    (hF : ∀ i, layout (F i) = pieces ∧ parts (F i) = args.map fun x => x i)
    (hscan : scansWell target pieces = true) (hargs : ∀ x ∈ args, P x) :
    P fun i => Language.render (F i) := by
  have hfilled := hP.filled hscan hargs
  simpa only [render_eq_filled, (hF _).1, (hF _).2] using hfilled

theorem Compositional.around (h : P fun i => Language.render (G i))
    (hF : ∀ i, layout (F i) = pieces ∧ parts (F i) = [Language.render (G i)])
    (hscan : scansWell target pieces = true) : P fun i => Language.render (F i) :=
  hP.render [fun i => Language.render (G i)] hF hscan (List.forall_mem_singleton.2 h)

theorem Compositional.between (hl : P fun i => Language.render (G i))
    (hr : P fun i => Language.render (H i))
    (hF : ∀ i, layout (F i) = pieces ∧
      parts (F i) = [Language.render (G i), Language.render (H i)])
    (hscan : scansWell target pieces = true) : P fun i => Language.render (F i) :=
  hP.render [fun i => Language.render (G i), fun i => Language.render (H i)] hF hscan
    (by simp [hl, hr])

end Trees

section Formulas
variable (target : Target) (types : TypeTable) (m : Mark)

theorem generate_group (e : Expr) : target.generate types (.group m e) =
    Piece.filled ["(", 0, ")"] [target.generate types e] := by
  cases target with
  | sql => exact Sql.render_eq_filled (.group (Sql.ofExpr types e))
  | script => exact Script.render_eq_filled (.group (Script.ofExpr types e))

/-- Only SQL has a `NOT` that is written with parentheses around its operand. -/
def notPieces : Target → Bool → List Piece
  | .sql, true => ["NOT (", 0, ")"]
  | .sql, false => ["NOT ", 0]
  | .script, _ => ["!", 0]

theorem generate_not (e : Expr) : target.generate types (.unary m .not e) =
    Piece.filled (notPieces target e.isNot) [target.generate types e] := by
  cases target with
  | sql =>
    change "NOT " ++ (Sql.operand e (Sql.ofExpr types e)).render = _
    rw [Sql.operand]
    cases e.isNot with
    | true =>
      change "NOT " ++ ("(" ++ Target.sql.generate types e ++ ")") = _
      simp [notPieces, Piece.filled, Piece.fill, ← String.append_assoc]
    | false =>
      change "NOT " ++ Target.sql.generate types e = _
      simp [notPieces, Piece.filled, Piece.fill]
  | script => exact Script.render_eq_filled (.not (Script.ofExpr types e))

theorem generate_negate (e : Expr) : target.generate types (.unary m .negate e) =
    if (target.generate types e).toList.head? = some '-' then
      "-" ++ target.generate types (.group m e)
    else "-" ++ target.generate types e := by
  cases target with
  | sql =>
    change (Sql.negated (Sql.ofExpr types e)).render = _
    rw [Sql.negated, apply_ite Sql.render]
    rfl
  | script =>
    change (Script.negated (Script.ofExpr types e)).render = _
    rw [Script.negated, apply_ite Script.render]
    rfl

def choicePieces : Target → List Piece
  | .sql => ["CASE WHEN ", 0, " THEN ", 1, " ELSE ", 2, " END"]
  | .script => ["(", 0, " ? ", 1, " : ", 2, ")"]

theorem generate_conditional (c y n : Expr) : target.generate types (.conditional m c y n) =
    Piece.filled (choicePieces target)
      [target.generate types c, target.generate types y, target.generate types n] := by
  cases target with
  | sql =>
    exact Sql.render_eq_filled
      (.choose (Sql.ofExpr types c) (Sql.ofExpr types y) (Sql.ofExpr types n))
  | script =>
    exact Script.render_eq_filled
      (.choose (Script.ofExpr types c) (Script.ofExpr types y) (Script.ofExpr types n))

def template : Target → Builtin → Template
  | .sql => Builtin.sql
  | .script => Builtin.script

theorem generate_call (name : String) (args : List Expr) :
    target.generate types (.call m name args) =
      Piece.filled
        (((Builtin.find? name).elim (.plain (Template.call name)) (template target)).pieces
          args.length) (args.map (target.generate types)) := by
  cases target with
  | sql =>
    rw [Target.generate, Sql.ofExpr, Sql.ofExprs_eq_map, Sql.render_eq_filled, Sql.layout,
      Sql.parts, List.length_map, List.map_map]
    rfl
  | script =>
    rw [Target.generate, Script.ofExpr, Script.ofExprs_eq_map, Script.render_eq_filled,
      Script.layout, Script.parts, List.length_map, List.map_map]
    rfl

theorem generate_sequence (items : List Expr) : target.generate types (.sequence m items) =
    "; ".intercalate (items.map (target.generate types)) := by
  cases target with
  | sql =>
    change "; ".intercalate (Sql.renderAll (Sql.ofExprs types items)) = _
    rw [Sql.renderAll_eq_map, Sql.ofExprs_eq_map, List.map_map]
    rfl
  | script =>
    change "; ".intercalate (Script.renderAll (Script.ofExprs types items)) = _
    rw [Script.renderAll_eq_map, Script.ofExprs_eq_map, List.map_map]
    rfl

variable {target types m} {ι : Type} {P : (ι → String) → Prop} {g c y n : ι → Expr}
  (hP : Compositional target P)
include hP

theorem Compositional.group (h : P fun i => target.generate types (g i)) :
    P fun i => target.generate types (.group m (g i)) := by
  have hscan : scansWell target ["(", 0, ")"] = true := by cases target <;> rfl
  simp only [generate_group]
  exact hP.filled hscan (List.forall_mem_singleton.2 h)

theorem Compositional.not {b : Bool} (hb : ∀ i, (g i).isNot = b)
    (h : P fun i => target.generate types (g i)) :
    P fun i => target.generate types (.unary m .not (g i)) := by
  have hscan : scansWell target (notPieces target b) = true := by cases target <;> cases b <;> rfl
  simp only [generate_not, hb]
  exact hP.filled hscan (List.forall_mem_singleton.2 h)

theorem Compositional.conditional (hc : P fun i => target.generate types (c i))
    (hy : P fun i => target.generate types (y i)) (hn : P fun i => target.generate types (n i)) :
    P fun i => target.generate types (.conditional m (c i) (y i) (n i)) := by
  have hscan : scansWell target (choicePieces target) = true := by cases target <;> rfl
  have hargs : ∀ x ∈ [fun i => target.generate types (c i), fun i => target.generate types (y i),
      fun i => target.generate types (n i)], P x := by simp [hc, hy, hn]
  simp only [generate_conditional]
  exact hP.filled hscan hargs

end Formulas

end Output

namespace Sql
open Output
variable {ι : Type} {P : (ι → String) → Prop} {F G : ι → Sql} (hP : Compositional .sql P)
include hP

theorem compose_operand (e : Expr) (h : P fun i => (F i).render) :
    P fun i => (operand e (F i)).render := by
  unfold operand
  split
  · exact hP.around (T := Sql) h (fun _ => ⟨rfl, rfl⟩) rfl
  · exact h

theorem compose_castText (e : Expr) (h : P fun i => (F i).render) :
    P fun i => (castText e (F i)).render := by
  unfold castText
  split
  · have hgroup := hP.around (F := fun i => group (F i)) h (fun _ => ⟨rfl, rfl⟩) rfl
    exact hP.around (T := Sql) hgroup (fun _ => ⟨rfl, rfl⟩) rfl
  · exact hP.around (T := Sql) h (fun _ => ⟨rfl, rfl⟩) rfl

theorem compose_ofBinary {types : TypeTable} (op : BinaryOp) (type : ValueType)
    (left right : Expr) (hl : P fun i => (F i).render) (hr : P fun i => (G i).render) :
    P fun i => (ofBinary types op type left right (F i) (G i)).render := by
  have hoperator : scansWell .sql [0, " ", operator op, " ", 1] = true := by cases op <;> rfl
  have htest (negated : Bool) :
      scansWell .sql [0, .text (if negated then " IS NOT NULL" else " IS NULL")] = true := by
    cases negated <;> rfl
  have hleft := compose_operand hP left hl
  have hright := compose_operand hP right hr
  have hleftText := compose_castText hP left hl
  have hrightText := compose_castText hP right hr
  dsimp only [ofBinary]
  split_ifs
  · exact hP.between (T := Sql) hleftText hrightText (fun _ => ⟨rfl, rfl⟩) rfl
  · exact hP.around (T := Sql) hright (fun _ => ⟨rfl, rfl⟩) (htest _)
  · exact hP.around (T := Sql) hleft (fun _ => ⟨rfl, rfl⟩) (htest _)
  · exact hP.between (T := Sql) hleftText hrightText (fun _ => ⟨rfl, rfl⟩) hoperator
  · exact hP.between (T := Sql) hleft hright (fun _ => ⟨rfl, rfl⟩) hoperator
  · exact hP.between (T := Sql) hl hr (fun _ => ⟨rfl, rfl⟩) rfl
  · exact hP.between (T := Sql) hleft hright (fun _ => ⟨rfl, rfl⟩) hoperator

end Sql

namespace Script
open Output
variable {ι : Type} {P : (ι → String) → Prop} {F G : ι → Script} (hP : Compositional .script P)
include hP

theorem compose_interpolated (types : TypeTable) (e : Expr) (h : P fun i => (F i).render) :
    P fun i => (interpolated types e (F i)).render := by
  unfold interpolated
  split
  · exact hP.around (T := Script) h (fun _ => ⟨rfl, rfl⟩) rfl
  · exact h

theorem compose_instant (h : P fun i => (F i).render) : P fun i => (instant (F i)).render :=
  hP.around (T := Script) h (fun _ => ⟨rfl, rfl⟩) rfl

theorem compose_isoText (h : P fun i => (F i).render) : P fun i => (isoText (F i)).render :=
  hP.around (T := Script) h (fun _ => ⟨rfl, rfl⟩) rfl

theorem compose_instantOf (e : Expr) (h : P fun i => (F i).render) :
    P fun i => (instantOf e (F i)).render := by
  unfold instantOf
  split
  · exact compose_instant hP (hP.constant (closed_scriptQuote _))
  · exact compose_instant hP h

theorem compose_ofBinary {types : TypeTable} (op : BinaryOp) (type : ValueType)
    (left right : Expr) (hl : P fun i => (F i).render) (hr : P fun i => (G i).render) :
    P fun i => (ofBinary types op type left right (F i) (G i)).render := by
  have hoperator : scansWell .script [0, " ", operator op, " ", 1] = true := by cases op <;> rfl
  have htest (negated : Bool) :
      scansWell .script [0, .text (if negated then " != null" else " == null")] = true := by
    cases negated <;> rfl
  have hleft := compose_instantOf hP left hl
  have hright := compose_instantOf hP right hr
  have hleftText := compose_interpolated hP types left hl
  have hrightText := compose_interpolated hP types right hr
  have hstring {K : ι → Script} (h : P fun i => (K i).render) :
      P fun i => (stringOf (K i)).render :=
    hP.around (T := Script) h (fun _ => ⟨rfl, rfl⟩) rfl
  have hmillis {K : ι → Script} (h : P fun i => (K i).render) :
      P fun i => (millis (K i)).render :=
    hP.around (T := Script) h (fun _ => ⟨rfl, rfl⟩) rfl
  dsimp only [ofBinary]
  split_ifs
  · exact hP.between (T := Script) hleftText hrightText (fun _ => ⟨rfl, rfl⟩) rfl
  · exact hP.around (T := Script) hr (fun _ => ⟨rfl, rfl⟩) (htest _)
  · exact hP.around (T := Script) hl (fun _ => ⟨rfl, rfl⟩) (htest _)
  · exact hP.between (T := Script) (hstring hl) (hstring hr) (fun _ => ⟨rfl, rfl⟩) hoperator
  · exact hP.between (T := Script) (compose_isoText hP hleft) (compose_isoText hP hright)
      (fun _ => ⟨rfl, rfl⟩) hoperator
  · exact hP.between (T := Script) hl hr (fun _ => ⟨rfl, rfl⟩) hoperator
  · exact hP.between (T := Script) (hmillis hleft) (hmillis hright) (fun _ => ⟨rfl, rfl⟩) hoperator
  · exact hP.between (T := Script) hl hr (fun _ => ⟨rfl, rfl⟩) rfl
  · exact hP.between (T := Script) hl hr (fun _ => ⟨rfl, rfl⟩) hoperator

end Script

/-- What is asked about the operands is asked about `left` and `right`. -/
theorem Output.Compositional.binary {ι : Type} {target : Target} {P : (ι → String) → Prop}
    (hP : Compositional target P) {types : TypeTable} {m : Mark} (op : BinaryOp)
    {l r : ι → Expr} {left right : Expr} (hleft : ∀ i, Expr.Alike (l i) left)
    (hright : ∀ i, Expr.Alike (r i) right) (hl : P fun i => target.generate types (l i))
    (hr : P fun i => target.generate types (r i)) :
    P fun i => target.generate types (.binary m op (l i) (r i)) := by
  cases target with
  | sql =>
    have htext (i : ι) : Target.sql.generate types (.binary m op (l i) (r i)) =
        (Sql.ofBinary types op (types.typeOf (.binary m op left right)) left right
          (Sql.ofExpr types (l i)) (Sql.ofExpr types (r i))).render :=
      congrArg Sql.render (Sql.ofBinary_congr (hleft i) (hright i) _ _)
    simp only [htext]
    exact Sql.compose_ofBinary hP op _ left right hl hr
  | script =>
    have htext (i : ι) : Target.script.generate types (.binary m op (l i) (r i)) =
        (Script.ofBinary types op (types.typeOf (.binary m op left right)) left right
          (Script.ofExpr types (l i)) (Script.ofExpr types (r i))).render :=
      congrArg Script.render (Script.ofBinary_congr (hleft i) (hright i) _ _)
    simp only [htext]
    exact Script.compose_ofBinary hP op _ left right hl hr

end FieldFormula
