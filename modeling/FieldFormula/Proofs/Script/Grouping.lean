import FieldFormula.Proofs.Reading.Operand

/-!
What the script of a formula is read as. Every node of the formula has its form by the types of the
node and its operands (`tree`), with no parentheses at all. Main statement: the script of a formula
is read as that tree, whatever parentheses it has, and reading it finds no `??` beside a bare `&&`
or `||` (`read_script`).
-/
namespace FieldFormula.Script
open Reading

def instantTree (method : String) (date : Tree) : Tree :=
  .suffix .invoke (.suffix (.member method) (.apply (.suffix (.member "fromISO") (.name "DateTime"))
    (.link .comma date (.object "zone" (.text .single "utc")))))

def literalTree : Literal → Tree
  | .text s => .text .double s
  | .number d => .number d
  | .boolean b => .constant b
  | .date s => instantTree "toString" (.text .double s)
  | .null => .null

def dateTree (e : Expr) (t : Tree) : Tree :=
  match e with
  | .literal _ (.date s) => .text .double s
  | _ => t

def stringTree (t : Tree) : Tree := .apply (.name "String") t
def powerTree (a b : Tree) : Tree :=
  .apply (.suffix (.member "pow") (.name "Math")) (.link .comma a b)

/-- An interpolated value that may be null is replaced by empty text. -/
def holeTree (types : TypeTable) (e : Expr) (t : Tree) : Tree :=
  if nullable types e then .link .orElse t (.text .single "") else t

/-- The operation `op` of type `type` on the expressions `left` and `right`. Text is interpolated,
equality with a null is a test of the other operand, dates are compared as instants, and equality of
values of different types is that of their texts. -/
def binaryTree (types : TypeTable) (op : BinaryOp) (type : ValueType) (left right : Expr)
    (a b : Tree) : Tree :=
  let l := types.typeOf left
  let r := types.typeOf right
  if op = .concat ∨ op = .add ∧ type = .string then
    .template (holeTree types left a) (holeTree types right b)
  else if op.isEquality then
    if l = .null then .link (.loose (op == .notEqual)) b .null
    else if r = .null then .link (.loose (op == .notEqual)) a .null
    else if l ≠ r then .link (.binary op) (stringTree a) (stringTree b)
    else if l = .date then
      .link (.binary op) (instantTree "toString" (dateTree left a))
        (instantTree "toString" (dateTree right b))
    else .link (.binary op) a b
  else if op.isOrder ∧ (l = .date ∨ r = .date) then
    .link (.binary op) (instantTree "toMillis" (dateTree left a))
      (instantTree "toMillis" (dateTree right b))
  else if op = .power then powerTree a b
  else .link (.binary op) a b

def tree (types : TypeTable) : Expr → Tree
  | .literal _ value => literalTree value
  | .field m name =>
    .link .orElse (.index (.name "$$VARIABLES") (.text .single name))
      (zeroTree (types.typeOf (.field m name)))
  | .binary m op left right =>
    binaryTree types op (types.typeOf (.binary m op left right)) left right (tree types left)
      (tree types right)
  | .unary _ .negate e => .sign .minus (tree types e)
  | .unary _ .not e => .sign .not (tree types e)
  | .group _ e => tree types e
  | .conditional _ c y n => .choose (tree types c) (tree types y) (tree types n)
  | .call _ _ _ | .sequence _ _ => .null

section
variable {script left right : Script} {a b m : Tree} {e : Expr} {level reach : Nat}

theorem operand_quote (s : String) : Operand .script (quote s) (.text .double s) 13 13 :=
  operand_text .double s fun h => nomatch h

theorem operand_instant {x : Script} (method : String)
    (hx : x.render = (instant script).render ++ ("." ++ method ++ "()"))
    (hm : isName .script method = true) (h : Operand .script script.render m 2 2) :
    Operand .script x.render (instantTree method m) 12 12 := by
  have hfunction : Operand .script ("DateTime" ++ "." ++ "fromISO")
      (.suffix (.member "fromISO") (.name "DateTime")) 12 12 := operand_member rfl rfl
  have hutc : Operand .script "'utc'" (.text .single "utc") 13 13 :=
    operand_text .single "utc" fun _ => rfl
  have hzone : Operand .script ("\x7b " ++ "zone" ++ ": " ++ "'utc'" ++ "\x7d")
      (.object "zone" (.text .single "utc")) 2 2 :=
    (hutc.object rfl).mono (by decide) (by decide)
  have hcall := hfunction.method (h.comma hzone) hm
  have hopen : "DateTime.fromISO(" = "DateTime" ++ "." ++ "fromISO" ++ "(" := rfl
  have hclose : ", \x7b zone: 'utc'\x7d)" =
      ", " ++ ("\x7b " ++ "zone" ++ ": " ++ "'utc'" ++ "\x7d") ++ ")" := rfl
  have hrender : (instant script).render =
      "DateTime.fromISO(" ++ script.render ++ ", \x7b zone: 'utc'\x7d)" := rfl
  rw [hx, hrender, hopen, hclose]
  simp only [String.append_assoc] at hcall ⊢
  exact hcall

theorem operand_instantOf {x : Script} (method : String)
    (hx : x.render = (instantOf e script).render ++ ("." ++ method ++ "()"))
    (hm : isName .script method = true) (h : Operand .script script.render m 2 2) :
    Operand .script x.render (instantTree method (dateTree e m)) 12 12 := by
  match e with
  | .literal _ (.date s) =>
    have htext : Operand .script (text s).render (.text .double s) 2 2 :=
      (operand_quote s).mono (by decide) (by decide)
    exact operand_instant method hx hm htext
  | .literal _ (.text _) | .literal _ (.number _) | .literal _ (.boolean _) | .literal _ .null
  | .field _ _ | .binary _ _ _ _ | .unary _ _ _ | .group _ _ | .conditional _ _ _ _ | .call _ _ _
  | .sequence _ _ => exact operand_instant method hx hm h

theorem operand_isoText (h : Operand .script script.render m 2 2) :
    Operand .script (isoText (instantOf e script)).render (instantTree "toString" (dateTree e m)) 12
      12 :=
  operand_instantOf "toString" rfl rfl h

theorem operand_millis (h : Operand .script script.render m 2 2) :
    Operand .script (millis (instantOf e script)).render (instantTree "toMillis" (dateTree e m)) 12
      12 :=
  operand_instantOf "toMillis" rfl rfl h

theorem operand_stringOf (h : Operand .script script.render m level reach) :
    Operand .script (stringOf script).render (stringTree m) 12 12 := by
  have hname : Operand .script "String" (.name "String") 12 13 :=
    (operand_name rfl).mono (by decide) (Nat.le_refl 13)
  have hopen : "String(" = "String" ++ "(" := rfl
  have hrender : (stringOf script).render = "String(" ++ script.render ++ ")" := rfl
  rw [hrender, hopen]
  exact hname.apply h.denotes

theorem operand_power (hl : Operand .script left.render a 2 2)
    (hr : Operand .script right.render b 2 2) :
    Operand .script (power left right).render (powerTree a b) 12 12 := by
  have hfunction : Operand .script ("Math" ++ "." ++ "pow")
      (.suffix (.member "pow") (.name "Math")) 12 12 := operand_member rfl rfl
  have hopen : "Math.pow(" = "Math" ++ "." ++ "pow" ++ "(" := rfl
  have hrender : (power left right).render =
      "Math.pow(" ++ left.render ++ ", " ++ right.render ++ ")" := rfl
  have hcall := hfunction.apply (hl.comma hr)
  rw [hrender, hopen]
  simp only [String.append_assoc] at hcall ⊢
  exact hcall

theorem five_le_rank_of_nullable {types : TypeTable} (h : nullable types e = true) :
    5 ≤ rank .script e.strength := by
  have hrank : 5 ≤ rank .script 8 := by decide
  cases e with
  | binary _ _ _ _ | unary _ _ _ | sequence _ _ => cases h
  | _ => exact hrank

theorem denotes_interpolated {types : TypeTable} (h : Operand .script script.render m level reach)
    (hlevel : nullable types e = true → 5 ≤ level) :
    Denotes .script (interpolated types e script).render (holeTree types e m) := by
  unfold interpolated holeTree
  by_cases hnull : nullable types e = true
  · rw [if_pos hnull, if_pos hnull]
    have hempty : Operand .script "''" (.text .single "") 5 5 :=
      (operand_text .single "" fun _ => rfl).mono (by decide) (by decide)
    have hrender : (orEmpty script).render = script.render ++ " ?? " ++ "''" := by
      rw [String.append_assoc]
      rfl
    rw [hrender]
    exact (h.mono (hlevel hnull) (Nat.le_refl _)).orElse hempty
  · rw [if_neg hnull, if_neg hnull]
    exact h.denotes

theorem render_isNull (x : Script) (negated : Bool) :
    (isNull x negated).render = x.render ++ (Link.loose negated).spelling .script ++ "null" := by
  have hrender : (isNull x negated).render =
      x.render ++ (if negated then " != null" else " == null") := rfl
  have hspelling : (if negated then " != null" else " == null") =
      (Link.loose negated).spelling .script ++ "null" := by
    cases negated <;> rfl
  rw [hrender, hspelling, String.append_assoc]

theorem operand_isNull {op : BinaryOp} {i : Nat}
    (h : Operand .script script.render m (rank .script i) reach) (hop : op.isComparison = true)
    (hi : op.strength < i) (negated : Bool) :
    Operand .script (isNull script negated).render (.link (.loose negated) m .null)
      (rank .script op.strength) (rank .script op.strength) := by
  have hthree : op.strength = 3 := beq_iff_eq.1 hop
  rw [hthree] at hi ⊢
  have hnull : Operand .script "null" .null 13 13 := operand_null
  have hlinks : .loose negated ∈ links .script := by cases negated <;> decide
  have hlevel : rank .script 3 ≤ rank .script i := rank_mono (Nat.le_of_lt hi)
  have htest := h.link hnull hlinks (by simp) hlevel (Nat.le_add_right 5 8) (Nat.le_add_right 6 7)
  rw [render_isNull]
  exact htest

theorem binary_mem_links {op : BinaryOp} (hc : op ≠ .concat) (hp : op ≠ .power) :
    .binary op ∈ links .script := by
  cases op with
  | concat => exact absurd rfl hc
  | power => exact absurd rfl hp
  | _ => decide

theorem operand_ofBinary {types : TypeTable} {op : BinaryOp} {type : ValueType} {l r : Expr}
    {mark : Mark}
    (hl : Operand .script left.render a (rank .script l.strength) (rank .script l.strength))
    (hr : Operand .script right.render b (rank .script r.strength) (rank .script r.strength))
    (hobeys : (Expr.binary mark op l r).Obeys) :
    Operand .script (ofBinary types op type l r left right).render
      (binaryTree types op type l r a b) (rank .script op.strength) (rank .script op.strength) := by
  obtain ⟨hleft, hcomparison, hright⟩ := hobeys
  have hten := rank_le_ten .script op.strength
  have hpair {x : Script} {u : Tree} {i : Nat}
      (h : Operand .script x.render u (rank .script i) (rank .script i)) :
      Operand .script x.render u 2 2 := h.mono (two_le_rank _ _) (two_le_rank _ _)
  -- calls bind more tightly than any operator
  have hcalls {x y : Script} {u v : Tree} (hc : op.isComparison = true)
      (hx : Operand .script x.render u 12 12) (hy : Operand .script y.render v 12 12) :
      Operand .script (binary op x y).render (.link (.binary op) u v) (rank .script op.strength)
        (rank .script op.strength) :=
    (hx.mono (by decide) (by decide)).comparison (hy.mono (by decide) (by decide)) hc
  simp only [ofBinary, binaryTree]
  split_ifs with hjoin hequal hnull hnull' htypes hdate horder hpower
  · have htemplate : Operand .script
        (interpolate (interpolated types l left) (interpolated types r right)).render
        (.template (holeTree types l a) (holeTree types r b)) 13 13 :=
      (denotes_interpolated hl five_le_rank_of_nullable).template
        (denotes_interpolated hr five_le_rank_of_nullable)
    exact htemplate.mono (by omega) (by omega)
  · exact operand_isNull hr (isComparison_of_isEquality hequal) hright _
  · have hc := isComparison_of_isEquality hequal
    exact operand_isNull hl hc (hcomparison hc) _
  · exact hcalls (isComparison_of_isEquality hequal) (operand_stringOf hl) (operand_stringOf hr)
  · exact hcalls (isComparison_of_isEquality hequal) (operand_isoText (hpair hl))
      (operand_isoText (hpair hr))
  · exact hl.binary hr (mem_links_of_isComparison (isComparison_of_isEquality hequal)) hleft
      hcomparison hright
  · have hc : op.isComparison = true := (Bool.and_eq_true_iff.1 horder.1).1
    exact hcalls hc (operand_millis (hpair hl)) (operand_millis (hpair hr))
  · exact (operand_power (hpair hl) (hpair hr)).mono (by omega) (by omega)
  · have hlinks := binary_mem_links (fun h => hjoin (.inl h)) hpower
    exact hl.binary hr hlinks hleft hcomparison hright

theorem operand_ofLiteral {value : Literal} {mark : Mark}
    (h : (Expr.literal mark value).isPlain = true) :
    Operand .script (ofLiteral value).render (literalTree value) 11 11 := by
  cases value with
  | text s => exact (operand_quote s).mono (by decide) (by decide)
  | number d =>
    have hsign : d.negative = false := by simpa [Expr.isPlain] using h
    exact (operand_number hsign).mono (by decide) (by decide)
  | boolean b => exact (operand_constant b).mono (by decide) (by decide)
  | null => exact operand_null.mono (by decide) (by decide)
  | date s =>
    have htext : Operand .script (text s).render (.text .double s) 2 2 :=
      (operand_quote s).mono (by decide) (by decide)
    exact (operand_instant "toString" rfl rfl htext).mono (by decide) (by decide)

theorem operand_zero (type : ValueType) : Operand .script (zero type) (zeroTree type) 13 13 := by
  cases type with
  | number => exact operand_number (d := .zero) rfl
  | string => exact operand_text .single "" fun _ => rfl
  | boolean => exact operand_constant false
  | date | null => exact operand_null

theorem operand_field (name : String) (type : ValueType) :
    Operand .script (field name (zero type)).render
      (.link .orElse (.index (.name "$$VARIABLES") (.text .single name)) (zeroTree type)) 11
      11 := by
  have htext : Operand .script (quoteKey name) (.text .single name) 13 13 :=
    operand_text .single name fun _ => rfl
  have hvariables : Operand .script "$$VARIABLES" (.name "$$VARIABLES") 12 13 :=
    (operand_name rfl).mono (by decide) (Nat.le_refl 13)
  have hvalue : Operand .script ("$$VARIABLES" ++ "[" ++ quoteKey name ++ "]")
      (.index (.name "$$VARIABLES") (.text .single name)) 5 5 :=
    (hvariables.index htext).mono (by decide) (by decide)
  have hgroup := (hvalue.orElse ((operand_zero type).mono (by decide) (by decide))).group
  have hopen : "($$VARIABLES[" = "(" ++ "$$VARIABLES" ++ "[" := rfl
  have hclose : "] ?? " = "]" ++ " ?? " := rfl
  have hrender : (field name (zero type)).render =
      "($$VARIABLES[" ++ quoteKey name ++ "] ?? " ++ zero type ++ ")" := rfl
  rw [hrender, hopen, hclose]
  simp only [String.append_assoc] at hgroup ⊢
  exact hgroup.mono (by decide) (by decide)

theorem operand_negated (h : Operand .script script.render m 10 11) :
    Operand .script (negated script).render (.sign .minus m) 10 11 := by
  have hrender : (negated script).render = "-" ++
      if script.render.toList.head? = some '-' then "(" ++ script.render ++ ")"
      else script.render := by
    unfold negated
    split <;> rfl
  rw [hrender]
  exact h.negated.mono (Nat.le_refl 10) (by decide)

theorem operand_not (h : Operand .script script.render m 10 11) :
    Operand .script (not script).render (.sign .not m) 10 11 := by
  have hsign : Operand .script ("!" ++ script.render) (.sign .not m) 10 13 :=
    h.sign .not (by decide) (by decide) fun hop => nomatch hop
  exact hsign.mono (Nat.le_refl 10) (by decide)

end

theorem operand_ofExpr (types : TypeTable) {e : Expr}
    (hplain : e.All fun n => n.isPlain = true) (hobeys : e.All Expr.Obeys) :
    Operand .script (ofExpr types e).render (tree types e) (rank .script e.strength)
      (reachOf .script e) := by
  have hprimary : rank .script 8 ≤ 11 := by decide
  induction e with
  | literal m value =>
    exact (operand_ofLiteral (Expr.all_literal.1 hplain)).mono hprimary (Nat.le_refl 11)
  | field m name => exact (operand_field name _).mono hprimary (Nat.le_refl 11)
  | binary m op l r ihl ihr =>
    rw [Expr.all_binary] at hplain hobeys
    have hl := (ihl hplain.1 hobeys.1).mono (Nat.le_refl _) (rank_le_reachOf l)
    have hr := (ihr hplain.2.1 hobeys.2.1).mono (Nat.le_refl _) (rank_le_reachOf r)
    exact operand_ofBinary hl hr hobeys.2.2
  | unary m op e ih =>
    rw [Expr.all_unary] at hplain hobeys
    have hstrength : e.strength = 8 := hobeys.2
    have hoperand := ih hplain.1 hobeys.1
    rw [hstrength, reachOf_of_strength hstrength] at hoperand
    cases op with
    | negate => exact operand_negated hoperand
    | not => exact operand_not hoperand
  | group m e ih =>
    rw [Expr.all_group] at hplain hobeys
    exact (ih hplain.1 hobeys.1).denotes.group.mono (Nat.le_add_right 10 3) (Nat.le_add_right 11 2)
  | conditional m c y n ihc ihy ihn =>
    rw [Expr.all_conditional] at hplain hobeys
    have hthree (i : Nat) : rank .script 0 ≤ rank .script i := rank_mono (Nat.zero_le i)
    have hcondition := (ihc hplain.1 hobeys.1).mono (hthree _) (Nat.le_refl _)
    have hyes := ihy hplain.2.1 hobeys.2.1
    have hno := (ihn hplain.2.2.1 hobeys.2.2.1).mono (hthree _)
      (Nat.le_trans (hthree _) (rank_le_reachOf n))
    have hrender : (ofExpr types (.conditional m c y n)).render =
        "(" ++ (ofExpr types c).render ++ " ? " ++ (ofExpr types y).render ++ " : " ++
          (ofExpr types n).render ++ ")" := rfl
    have hchoose := (hcondition.choose hyes hno).group
    rw [hrender]
    simp only [String.append_assoc] at hchoose ⊢
    exact hchoose.mono (Nat.le_add_right 10 3) (Nat.le_add_right 11 2)
  | call m name args ih => cases (Expr.all_call.1 hplain).2
  | sequence m items ih => cases (Expr.all_sequence.1 hplain).2

/-- The types may be any, also such as no typing of the formula gives. -/
theorem read_script (types : TypeTable) {e : Expr}
    (hplain : e.All fun n => n.isPlain = true) (hobeys : e.All Expr.Obeys) :
    ∃ t, Reading.read .script (Target.script.generate types e) = some t ∧
      t.ungrouped = tree types e ∧ t.Graded .script ∧ t.sheltered false = true ∧
      t.unmixed = true :=
  (operand_ofExpr types hplain hobeys).read

/-- `!b && d > 2024-01-01 || d & "x" == "x"` -/
theorem read_script_dates :
    let e : Expr := .binary ⟨10, 0⟩ .or
      (.binary ⟨5, 0⟩ .and (.unary ⟨1, 0⟩ .not (.field ⟨0, 0⟩ "b"))
        (.binary ⟨4, 0⟩ .greater (.field ⟨2, 0⟩ "d") (.literal ⟨3, 0⟩ (.date "2024-01-01"))))
      (.binary ⟨9, 0⟩ .equal
        (.binary ⟨8, 0⟩ .concat (.field ⟨6, 0⟩ "d") (.literal ⟨7, 0⟩ (.text "x")))
        (.literal ⟨11, 0⟩ (.text "x")))
    let types : TypeTable := ⟨[(0, .boolean), (1, .boolean), (2, .date), (3, .date), (4, .boolean),
      (5, .boolean), (6, .date), (7, .string), (8, .string), (9, .boolean), (10, .boolean),
      (11, .string)]⟩
    let value (name : String) (zero : Tree) : Tree :=
      .link .orElse (.index (.name "$$VARIABLES") (.text .single name)) zero
    (e.All fun n => n.isPlain = true) ∧ e.All Expr.Obeys ∧
    ∃ t, Reading.read .script (Target.script.generate types e) = some t ∧
      t.ungrouped =
        .link (.binary .or)
          (.link (.binary .and) (.sign .not (value "b" (.constant false)))
            (.link (.binary .greater) (instantTree "toMillis" (value "d" .null))
              (instantTree "toMillis" (.text .double "2024-01-01"))))
          (.link (.binary .equal)
            (.template (.link .orElse (value "d" .null) (.text .single "")) (.text .double "x"))
            (.text .double "x")) ∧
      t.Graded .script ∧ t.sheltered false = true ∧ t.unmixed = true := by
  intro e types value
  have hplain : e.All fun n => n.isPlain = true := by decide +kernel
  have hobeys : e.All Expr.Obeys := by decide +kernel
  exact ⟨hplain, hobeys, read_script types hplain hobeys⟩

end FieldFormula.Script
