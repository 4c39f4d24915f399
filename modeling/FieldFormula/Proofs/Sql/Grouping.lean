import FieldFormula.Proofs.Reading.Operand
import FieldFormula.Proofs.Typing.Rules

/-!
What the SQL of a formula is read as. Every node of the formula has its form by the types of the
node and its operands (`tree`), with no parentheses at all. Main statement: the SQL of a formula is
read as that tree, whatever parentheses it has (`read_sql`).
-/
namespace FieldFormula.Sql
open Reading

def literalTree : Literal → Tree
  | .text s => .text .single s
  | .number d => .number d
  | .boolean b => .constant b
  | .date s => .suffix (.cast "timestamp") (.text .single s)
  | .null => .null

def textTree (t : Tree) : Tree := .suffix (.cast "text") t
def concatTree (a b : Tree) : Tree := .apply (.name "CONCAT") (.link .comma a b)

/-- The operation `op` of type `type` on operands of types `l` and `r`. Text is joined, equality
with a null is a test of the other operand, and equality of values of different types is that of
their texts. -/
def binaryTree (op : BinaryOp) (type l r : ValueType) (a b : Tree) : Tree :=
  if op = .add ∧ type = .string then concatTree (textTree a) (textTree b)
  else if op.isEquality then
    if l = .null then .suffix (.isNull (op == .notEqual)) b
    else if r = .null then .suffix (.isNull (op == .notEqual)) a
    else if l ≠ r then .link (.binary op) (textTree a) (textTree b)
    else .link (.binary op) a b
  else if op = .concat then concatTree a b
  else .link (.binary op) a b

def tree (types : TypeTable) : Expr → Tree
  | .literal _ value => literalTree value
  | .field m name =>
    .apply (.name "COALESCE") (.link .comma (.index (.name "$$VARIABLES") (.text .single name))
      (zeroTree (types.typeOf (.field m name))))
  | .binary m op left right =>
    binaryTree op (types.typeOf (.binary m op left right)) (types.typeOf left)
      (types.typeOf right) (tree types left) (tree types right)
  | .unary _ .negate e => .sign .minus (tree types e)
  | .unary _ .not e => .sign .not (tree types e)
  | .group _ e => tree types e
  | .conditional _ c y n => .branch (tree types c) (tree types y) (tree types n)
  | .call _ _ _ | .sequence _ _ => .null

/-- The level of the SQL of an expression. A `NOT` binds less tightly than the operations that take
it as an operand. -/
def levelOf : Expr → Nat
  | .binary _ op _ _ => rank .sql op.strength
  | .unary _ .not _ => 4
  | .unary _ .negate _ => 10
  | _ => 11

theorem rank_le_levelOf {e : Expr} (h : e.isNot = false) : rank .sql e.strength ≤ levelOf e := by
  cases e with
  | binary m op l r => exact Nat.le_refl _
  | unary m op e =>
    cases op with
    | negate => exact rank_le_ten _ _
    | not => cases h
  | _ => exact Nat.le_succ_of_le (rank_le_ten _ _)

theorem two_le_levelOf (e : Expr) : 2 ≤ levelOf e := by
  cases e with
  | binary m op l r => exact two_le_rank .sql op.strength
  | unary m op e => cases op <;> exact Nat.le_of_ble_eq_true rfl
  | _ => exact Nat.le_of_ble_eq_true rfl

theorem two_le_reachOf (e : Expr) : 2 ≤ reachOf .sql e :=
  Nat.le_trans (two_le_rank _ _) (rank_le_reachOf e)

section
variable {sql left right : Sql} {a b m : Tree} {e : Expr} {level reach : Nat}

theorem operand_group (h : Denotes .sql sql.render m) : Operand .sql (group sql).render m 13 13 :=
  h.group

theorem operand_asText (h : Operand .sql sql.render m 11 reach) :
    Operand .sql (asText sql).render (textTree m) 11 11 := by
  have hrender : (asText sql).render = sql.render ++ "::" ++ "text" := by
    rw [String.append_assoc]
    rfl
  rw [hrender]
  exact h.cast rfl

theorem operand_concat (hl : Operand .sql left.render a 2 2)
    (hr : Operand .sql right.render b 2 2) :
    Operand .sql (concat left right).render (concatTree a b) 12 12 := by
  have hname : Operand .sql "CONCAT" (.name "CONCAT") 12 13 :=
    (operand_name rfl).mono (Nat.le_succ 12) (Nat.le_refl 13)
  have hrender : (concat left right).render =
      "CONCAT" ++ "(" ++ left.render ++ ", " ++ right.render ++ ")" := rfl
  have hcall := hname.apply (hl.comma hr)
  rw [hrender]
  simp only [String.append_assoc] at hcall ⊢
  exact hcall

theorem binary_mem_links {op : BinaryOp} (h : op ≠ .concat) : .binary op ∈ links .sql := by
  cases op with
  | concat => exact absurd rfl h
  | _ => decide

theorem operand_operand (h : Operand .sql sql.render m (levelOf e) (reachOf .sql e)) :
    Operand .sql (operand e sql).render m (rank .sql e.strength) (rank .sql e.strength) := by
  unfold operand
  by_cases hnot : e.isNot = true
  · rw [if_pos hnot]
    have hten := rank_le_ten .sql e.strength
    exact (operand_group h.denotes).mono (by omega) (by omega)
  · rw [if_neg hnot]
    exact h.mono (rank_le_levelOf (Bool.eq_false_iff.2 hnot)) (rank_le_reachOf e)

theorem operand_castText (h : Operand .sql sql.render m (levelOf e) (reachOf .sql e)) :
    Operand .sql (castText e sql).render (textTree m) 11 11 := by
  unfold castText
  by_cases hop : e.isOperation = true
  · rw [if_pos hop]
    exact operand_asText ((operand_group h.denotes).mono (by omega) (Nat.le_refl 13))
  · rw [if_neg hop]
    have hlevel : levelOf e = 11 := by
      cases e with
      | binary _ _ _ _ | unary _ _ _ => exact absurd rfl hop
      | _ => rfl
    rw [hlevel] at h
    exact operand_asText h

theorem operand_isNull {op : BinaryOp} (h : Operand .sql sql.render m (levelOf e) (reachOf .sql e))
    (hop : op.isComparison = true) (he : op.strength < e.strength) (negated : Bool) :
    Operand .sql (isNull (operand e sql) negated).render (.suffix (.isNull negated) m)
      (rank .sql op.strength) (rank .sql op.strength) := by
  have hthree : op.strength = 3 := beq_iff_eq.1 hop
  rw [hthree] at he ⊢
  have hoperand := (operand_operand h).mono (rank_mono (Nat.le_of_lt he)) (Nat.le_refl _)
  exact hoperand.isNull negated

theorem operand_ofBinary {types : TypeTable} {op : BinaryOp} {type : ValueType} {l r : Expr}
    {mark : Mark} (hl : Operand .sql left.render a (levelOf l) (reachOf .sql l))
    (hr : Operand .sql right.render b (levelOf r) (reachOf .sql r))
    (hobeys : (Expr.binary mark op l r).Obeys) :
    Operand .sql (ofBinary types op type l r left right).render
      (binaryTree op type (types.typeOf l) (types.typeOf r) a b) (rank .sql op.strength)
      (rank .sql op.strength) := by
  obtain ⟨hleft, hcomparison, hright⟩ := hobeys
  have hten := rank_le_ten .sql op.strength
  have hplain (hop : .binary op ∈ links .sql) :=
    (operand_operand hl).binary (operand_operand hr) hop hleft hcomparison hright
  simp only [ofBinary, binaryTree]
  split_ifs with hjoin hequal hnull hnull' htypes hop
  · have hjoined := operand_concat ((operand_castText hl).mono (by decide) (by decide))
      ((operand_castText hr).mono (by decide) (by decide))
    exact hjoined.mono (by omega) (by omega)
  · exact operand_isNull hr (isComparison_of_isEquality hequal) hright _
  · have hc := isComparison_of_isEquality hequal
    exact operand_isNull hl hc (hcomparison hc) _
  · exact ((operand_castText hl).mono (by decide) (by decide)).comparison
      ((operand_castText hr).mono (by decide) (by decide)) (isComparison_of_isEquality hequal)
  · exact hplain (mem_links_of_isComparison (isComparison_of_isEquality hequal))
  · have hjoined := operand_concat (hl.mono (two_le_levelOf l) (two_le_reachOf l))
      (hr.mono (two_le_levelOf r) (two_le_reachOf r))
    exact hjoined.mono (by omega) (by omega)
  · exact hplain (binary_mem_links hop)

theorem operand_ofLiteral {value : Literal} {mark : Mark}
    (h : (Expr.literal mark value).isPlain = true) :
    Operand .sql (ofLiteral value).render (literalTree value) 11 11 := by
  have htext (s : String) : Operand .sql (quote s) (.text .single s) 13 13 :=
    operand_text .single s fun _ => rfl
  cases value with
  | text s => exact (htext s).mono (by decide) (by decide)
  | number d =>
    have hsign : d.negative = false := by simpa [Expr.isPlain] using h
    exact (operand_number hsign).mono (by decide) (by decide)
  | boolean b => exact (operand_constant b).mono (by decide) (by decide)
  | null => exact operand_null.mono (by decide) (by decide)
  | date s =>
    have hrender : (timestamp s).render = quote s ++ "::" ++ "timestamp" := by
      rw [String.append_assoc]
      rfl
    rw [ofLiteral, hrender]
    exact ((htext s).mono (by decide) (Nat.le_refl 13)).cast rfl

theorem operand_zero (type : ValueType) : Operand .sql (zero type) (zeroTree type) 13 13 := by
  cases type with
  | number => exact operand_number (d := .zero) rfl
  | string => exact operand_text .single "" fun _ => rfl
  | boolean => exact operand_constant false
  | date | null => exact operand_null

theorem operand_field (name : String) (type : ValueType) :
    Operand .sql (field name (zero type)).render
      (.apply (.name "COALESCE") (.link .comma (.index (.name "$$VARIABLES") (.text .single name))
        (zeroTree type))) 11 11 := by
  have htext : Operand .sql (quote name) (.text .single name) 13 13 :=
    operand_text .single name fun _ => rfl
  have hfunction : Operand .sql "COALESCE" (.name "COALESCE") 12 13 :=
    (operand_name rfl).mono (by decide) (Nat.le_refl 13)
  have hvariables : Operand .sql "$$VARIABLES" (.name "$$VARIABLES") 12 13 :=
    (operand_name rfl).mono (by decide) (Nat.le_refl 13)
  have hvalue : Operand .sql ("$$VARIABLES" ++ "[" ++ quote name ++ "]")
      (.index (.name "$$VARIABLES") (.text .single name)) 2 2 :=
    (hvariables.index htext).mono (by decide) (by decide)
  have hcall := hfunction.apply (hvalue.comma ((operand_zero type).mono (by decide) (by decide)))
  have hopen : "COALESCE($$VARIABLES[" = "COALESCE" ++ "(" ++ "$$VARIABLES" ++ "[" := rfl
  have hclose : "], " = "]" ++ ", " := rfl
  have hrender : (field name (zero type)).render =
      "COALESCE($$VARIABLES[" ++ quote name ++ "], " ++ zero type ++ ")" := rfl
  rw [hrender, hopen, hclose]
  simp only [String.append_assoc] at hcall ⊢
  exact hcall.mono (by decide) (by decide)

theorem operand_negated (h : Operand .sql sql.render m 10 11) :
    Operand .sql (negated sql).render (.sign .minus m) 10 11 := by
  have hrender : (negated sql).render = "-" ++
      if sql.render.toList.head? = some '-' then "(" ++ sql.render ++ ")" else sql.render := by
    unfold negated
    split <;> rfl
  rw [hrender]
  exact h.negated.mono (Nat.le_refl 10) (by decide)

theorem operand_not (h : Operand .sql sql.render m 10 10) :
    Operand .sql (not sql).render (.sign .not m) 4 11 := by
  have hsign : Operand .sql ("NOT " ++ sql.render) (.sign .not m) 4 13 :=
    h.sign .not (by decide) (by decide) fun hop => nomatch hop
  exact hsign.mono (Nat.le_refl 4) (by decide)

end

/-- A sign does not stand before `NOT`, which is of another type. -/
theorem isNot_eq_false {schema : Schema} {e : Expr} {m : Mark} {t : ValueType} {s s' : TypeTable}
    (h : Typing.resolveNode schema (.unary m .negate e) s = .ok (.known t) s') :
    e.isNot = false := by
  obtain ⟨a, s₁, he, ha, -⟩ := Typing.unary_eq_known.1 h
  match e with
  | .unary _ .not _ =>
    obtain ⟨_, _, _, _, rfl, _⟩ := Typing.unary_eq_known.1 he
    rcases ha with ha | ha <;> cases ha
  | .unary _ .negate _ | .literal _ _ | .field _ _ | .binary _ _ _ _ | .group _ _
  | .conditional _ _ _ _ | .call _ _ _ | .sequence _ _ => rfl

theorem operand_ofExpr {schema : Schema} (types : TypeTable) {e : Expr}
    (hplain : e.All fun n => n.isPlain = true) (hobeys : e.All Expr.Obeys)
    (htyped : ∃ t s s', Typing.resolveNode schema e s = .ok (.known t) s') :
    Operand .sql (ofExpr types e).render (tree types e) (levelOf e) (reachOf .sql e) := by
  induction e with
  | literal m value => exact operand_ofLiteral (Expr.all_literal.1 hplain)
  | field m name => exact operand_field name _
  | binary m op l r ihl ihr =>
    rw [Expr.all_binary] at hplain hobeys
    obtain ⟨t, s, s', htyped⟩ := htyped
    obtain ⟨a, s₁, b, s₂, hl, hr, -⟩ := Typing.binary_eq_known.1 htyped
    exact operand_ofBinary (ihl hplain.1 hobeys.1 ⟨a, s, s₁, hl⟩)
      (ihr hplain.2.1 hobeys.2.1 ⟨b, s₁, s₂, hr⟩) hobeys.2.2
  | unary m op e ih =>
    rw [Expr.all_unary] at hplain hobeys
    obtain ⟨t, s, s', htyped⟩ := htyped
    obtain ⟨a, s₁, he, -⟩ := Typing.unary_eq_known.1 htyped
    have hoperand := ih hplain.1 hobeys.1 ⟨a, s, s₁, he⟩
    have hstrength : e.strength = 8 := hobeys.2
    cases op with
    | negate =>
      have hlevel := rank_le_levelOf (isNot_eq_false htyped)
      rw [hstrength] at hlevel
      rw [reachOf_of_strength hstrength] at hoperand
      exact operand_negated (hoperand.mono hlevel (Nat.le_refl 11))
    | not =>
      have hsingle := operand_operand hoperand
      rw [hstrength] at hsingle
      exact operand_not hsingle
  | group m e ih =>
    rw [Expr.all_group] at hplain hobeys
    obtain ⟨t, s, s', htyped⟩ := htyped
    obtain ⟨s₁, he, -⟩ := Typing.group_eq_known.1 htyped
    have hinner := ih hplain.1 hobeys.1 ⟨t, s, s₁, he⟩
    exact (operand_group hinner.denotes).mono (Nat.le_add_right 11 2) (Nat.le_add_right 11 2)
  | conditional m c y n ihc ihy ihn =>
    rw [Expr.all_conditional] at hplain hobeys
    obtain ⟨t, s, s', htyped⟩ := htyped
    obtain ⟨a, s₁, b, s₂, d, s₃, hc, hy, hn, -⟩ := Typing.conditional_eq_known.1 htyped
    have hcondition := ihc hplain.1 hobeys.1 ⟨a, s, s₁, hc⟩
    have hyes := ihy hplain.2.1 hobeys.2.1 ⟨b, s₁, s₂, hy⟩
    have hno := ihn hplain.2.2.1 hobeys.2.2.1 ⟨d, s₂, s₃, hn⟩
    exact (hcondition.branch hyes hno).mono (Nat.le_add_right 11 2) (Nat.le_add_right 11 2)
  | call m name args ih => cases (Expr.all_call.1 hplain).2
  | sequence m items ih => cases (Expr.all_sequence.1 hplain).2

theorem read_sql {schema : Schema} {e : Expr} {type : ValueType} {types : TypeTable}
    (hplain : e.All fun n => n.isPlain = true) (hobeys : e.All Expr.Obeys)
    (htyped : Typing.infer schema e = .ok (type, types)) :
    ∃ t, Reading.read .sql (Target.sql.generate types e) = some t ∧ t.Graded .sql ∧
      t.ungrouped = tree types e := by
  have hresolved := Typing.infer_eq_ok.1 htyped
  have hoperand := operand_ofExpr types hplain hobeys ⟨type, .empty, types, hresolved⟩
  obtain ⟨t, hread, hmeaning, hgraded, -⟩ := hoperand.read
  exact ⟨t, hread, hgraded, hmeaning⟩

/-- `!b == (1 - -a ^ 2 < 3) || b != null` -/
theorem read_sql_mixed :
    let number (id : Nat) (n : Fin 10) : Expr := .literal ⟨id, 0⟩ (.number (.ofDigit n))
    let schema : Schema := ⟨[("a", ⟨"a", .number⟩), ("b", ⟨"b", .boolean⟩)], by decide⟩
    let e : Expr := .binary ⟨15, 0⟩ .or
      (.binary ⟨11, 0⟩ .equal (.unary ⟨1, 0⟩ .not (.field ⟨0, 0⟩ "b"))
        (.group ⟨10, 0⟩ (.binary ⟨9, 0⟩ .less
          (.binary ⟨7, 0⟩ .subtract (number 2 1)
            (.binary ⟨6, 0⟩ .power (.unary ⟨4, 0⟩ .negate (.field ⟨3, 0⟩ "a")) (number 5 2)))
          (number 8 3))))
      (.binary ⟨14, 0⟩ .notEqual (.field ⟨12, 0⟩ "b") (.literal ⟨13, 0⟩ .null))
    let value (name : String) (zero : Tree) : Tree := .apply (.name "COALESCE")
      (.link .comma (.index (.name "$$VARIABLES") (.text .single name)) zero)
    let digit (n : Fin 10) : Tree := .number (.ofDigit n)
    (e.All fun n => n.isPlain = true) ∧ e.All Expr.Obeys ∧
    ∃ types, Typing.infer schema e = .ok (.boolean, types) ∧
      ∃ t, Reading.read .sql (Target.sql.generate types e) = some t ∧ t.Graded .sql ∧ t.ungrouped =
        .link (.binary .or)
          (.link (.binary .equal) (.sign .not (value "b" (.constant false)))
            (.link (.binary .less)
              (.link (.binary .subtract) (digit 1)
                (.link (.binary .power) (.sign .minus (value "a" (digit 0))) (digit 2)))
              (digit 3)))
          (.suffix (.isNull true) (value "b" (.constant false))) := by
  intro number schema e value digit
  have hplain : e.All fun n => n.isPlain = true := by decide +kernel
  have hobeys : e.All Expr.Obeys := by decide +kernel
  refine ⟨hplain, hobeys, _, rfl, ?_⟩
  exact read_sql hplain hobeys (show Typing.infer schema e = .ok (.boolean, _) from rfl)

end FieldFormula.Sql
