import FieldFormula.Proofs.Reading.Regrouping
import FieldFormula.Proofs.Script.Grouping

/-!
Evaluation of scripts. A text is evaluated by the tree it is read as, where parentheses have done
their work. `&&`, `||`, `??` and `?` give one of their operands as it is; every other operator makes
a new value. Numbers and what is done with them are left to the host. A tree `Evaluates` if it has a
value whatever the fields hold; one lemma for each form of a tree says so, given its parts do.
-/
namespace FieldFormula

def Reading.Link.isLogical : Reading.Link → Bool
  | .binary .and | .binary .or => true
  | _ => false

namespace Script
open Reading

/-- Values of scripts, with the numbers of the host. A variable that is not there is `undefined`. -/
inductive Value (N : Type) where
  | undefined
  | null
  | boolean (value : Bool)
  | number (value : N)
  | text (value : String)
  deriving DecidableEq, Repr

def Value.isNullish {N : Type} : Value N → Bool
  | undefined | null => true
  | _ => false

structure Host (N : Type) where
  numeral : Decimal → N
  isTrue : N → Bool
  numberText : N → String
  toNumber : Value N → N
  negate : N → N
  arithmetic : BinaryOp → N → N → N
  compares : BinaryOp → Value N → Value N → Bool
  alike : Value N → Value N → Bool
  isoText : Value N → String
  millis : Value N → N

namespace Host
variable {N : Type} (host : Host N)

def truthy : Value N → Bool
  | .undefined | .null => false
  | .boolean b => b
  | .number n => host.isTrue n
  | .text s => s != ""

def textOf : Value N → String
  | .undefined => "undefined"
  | .null => "null"
  | .boolean b => boolText b
  | .number n => host.numberText n
  | .text s => s

def operate : BinaryOp → Value N → Value N → Value N
  | .add, .text s, b => .text (s ++ host.textOf b)
  | .add, a, .text s => .text (host.textOf a ++ s)
  | op, a, b =>
    if op.isComparison then .boolean (host.compares op a b)
    else .number (host.arithmetic op (host.toNumber a) (host.toNumber b))

def decides : Link → Value N → Bool
  | .binary .and, a => !host.truthy a
  | .binary .or, a => host.truthy a
  | .orElse, a => !a.isNullish
  | _, _ => false

def combine : Link → Value N → Value N → Value N
  | .binary .and, _, b | .binary .or, _, b | .orElse, _, b | .comma, _, b => b
  | .binary op, a, b => host.operate op a b
  | .loose negated, a, b =>
    .boolean ((if b.isNullish then a.isNullish else host.alike a b) != negated)

def dateMethod (method : String) (date : Value N) : Option (Value N) :=
  if method = "toString" then some (.text (host.isoText date))
  else if method = "toMillis" then some (.number (host.millis date))
  else none

end Host

/-- The value of a script, if it asks for nothing but the functions that formulas without calls are
written with. -/
def value {N : Type} (host : Host N) (vars : String → Value N) : Tree → Option (Value N)
  | .text _ s => some (.text s)
  | .number d => some (.number (host.numeral d))
  | .constant b => some (.boolean b)
  | .null => some .null
  | .group t => value host vars t
  | .sign .minus t =>
    (value host vars t).map fun v => .number (host.negate (host.toNumber v))
  | .sign .not t => (value host vars t).map fun v => .boolean (!host.truthy v)
  | .link op l r => (value host vars l).bind fun a =>
    if host.decides op a then some a else (value host vars r).map (host.combine op a)
  | .template l r => (value host vars l).bind fun a =>
    (value host vars r).map fun b => .text (host.textOf a ++ host.textOf b)
  | .choose c y n => (value host vars c).bind fun v =>
    if host.truthy v then value host vars y else value host vars n
  | .index (.name "$$VARIABLES") (.text _ key) => some (vars key)
  | .apply (.name "String") t => (value host vars t).map fun v => .text (host.textOf v)
  | .apply (.suffix (.member "pow") (.name "Math")) (.link .comma l r) =>
    (value host vars l).bind fun a => (value host vars r).map fun b =>
      .number (host.arithmetic .power (host.toNumber a) (host.toNumber b))
  | .suffix .invoke (.suffix (.member method)
      (.apply (.suffix (.member "fromISO") (.name "DateTime")) (.link .comma date _))) =>
    (value host vars date).bind (host.dateMethod method)
  | _ => none

attribute [local simp] value

def reading (types : TypeTable) (e : Expr) : Option Tree :=
  (Reading.read .script (Target.script.generate types e)).map Tree.ungrouped

def outcome {N : Type} (host : Host N) (vars : String → Value N) (types : TypeTable) (e : Expr) :
    Option (Value N) :=
  (reading types e).bind (value host vars)

theorem reading_of_operand {types : TypeTable} {e : Expr} {t : Tree} {level reach : Nat}
    (h : Operand .script (ofExpr types e).render t level reach) : reading types e = some t := by
  obtain ⟨tree, hread, hungrouped, -⟩ := h.read
  have htext : Target.script.generate types e = (ofExpr types e).render := rfl
  rw [reading, htext, hread, ← hungrouped]
  rfl

section
variable {N : Type} {host : Host N} {vars : String → Value N} {a b c : Tree} {v w : Value N}

theorem value_link (op : Link) (ha : value host vars a = some v) (hb : value host vars b = some w) :
    value host vars (.link op a b) =
      some (if host.decides op v then v else host.combine op v w) := by
  rw [value, ha, hb, Option.bind_some, Option.map_some, apply_ite some]

theorem value_choose (ha : value host vars a = some v) :
    value host vars (.choose a b c) =
      if host.truthy v then value host vars b else value host vars c := by
  rw [value, ha, Option.bind_some]

theorem isNullish_operate (op : BinaryOp) (v w : Value N) :
    (host.operate op v w).isNullish = false := by
  unfold Host.operate
  split
  · rfl
  · rfl
  · split <;> rfl

theorem combine_of_isLogical {op : Link} (h : op.isLogical = true) (v w : Value N) :
    host.combine op v w = w := by
  cases op with
  | binary op => cases op <;> first | rfl | cases h
  | _ => cases h

theorem isNullish_link {op : Link} (hop : op.isBare = true) (hlogical : op.isLogical = false)
    (h : value host vars (.link op a b) = some v) : v.isNullish = false := by
  rw [value] at h
  obtain ⟨x, -, h⟩ := Option.bind_eq_some_iff.1 h
  have hdecides : host.decides op x = false := by
    cases op with
    | binary op => cases op <;> first | rfl | cases hlogical
    | orElse => cases hop
    | _ => rfl
  rw [hdecides] at h
  obtain ⟨y, -, rfl⟩ := Option.map_eq_some_iff.1 h
  cases op with
  | binary op =>
    have hoperate : host.combine (.binary op) x y = host.operate op x y := by
      cases op <;> first | rfl | cases hlogical
    rw [hoperate]
    exact isNullish_operate op x y
  | loose negated => rfl
  | orElse | comma => cases hop

def shown (host : Host N) (types : TypeTable) (e : Expr) (v : Value N) : String :=
  if nullable types e && v.isNullish then "" else host.textOf v

theorem exists_hole (types : TypeTable) (e : Expr) (ha : value host vars a = some v) :
    ∃ u, value host vars (holeTree types e a) = some u ∧ host.textOf u = shown host types e v := by
  unfold holeTree shown
  cases nullable types e with
  | false => exact ⟨v, ha, rfl⟩
  | true =>
    rw [if_pos rfl, value_link _ ha rfl, Host.decides, Bool.true_and]
    cases v.isNullish with
    | false => exact ⟨v, rfl, rfl⟩
    | true => exact ⟨_, rfl, rfl⟩

theorem value_template (types : TypeTable) (l r : Expr) (ha : value host vars a = some v)
    (hb : value host vars b = some w) :
    value host vars (.template (holeTree types l a) (holeTree types r b)) =
      some (.text (shown host types l v ++ shown host types r w)) := by
  obtain ⟨x, hx, hxtext⟩ := exists_hole types l ha
  obtain ⟨y, hy, hytext⟩ := exists_hole types r hb
  rw [value, hx, hy, ← hxtext, ← hytext]
  rfl

/-- A field that is missing counts as the zero of its type. -/
theorem exists_field (host : Host N) (vars : String → Value N) (name : String) (type : ValueType) :
    ∃ v, value host vars (.link .orElse (.index (.name "$$VARIABLES") (.text .single name))
        (zeroTree type)) = some v ∧ v ≠ .undefined ∧ (v = .null → mayBeNull type = true) := by
  have hvariable : value host vars (.index (.name "$$VARIABLES") (.text .single name)) =
      some (vars name) := rfl
  obtain ⟨z, hz, hdefined, hnull⟩ : ∃ z, value host vars (zeroTree type) = some z ∧
      z ≠ .undefined ∧ (z = .null → mayBeNull type = true) := by
    cases type <;> exact ⟨_, rfl, by simp, by simp [mayBeNull]⟩
  rw [value_link _ hvariable hz]
  cases hname : vars name with
  | undefined | null => exact ⟨z, rfl, hdefined, hnull⟩
  | boolean b => exact ⟨.boolean b, rfl, by simp, by simp⟩
  | number n => exact ⟨.number n, rfl, by simp, by simp⟩
  | text s => exact ⟨.text s, rfl, by simp, by simp⟩

end

def Evaluates (t : Tree) : Prop :=
  ∀ (N : Type) (host : Host N) (vars : String → Value N),
    ∃ v, value host vars t = some v ∧ v ≠ .undefined

section
variable {a b c : Tree}

theorem evaluates_literal (literal : Literal) : Evaluates (literalTree literal) := by
  intro N host vars
  cases literal <;> exact ⟨_, rfl, by simp⟩

theorem evaluates_field (name : String) (type : ValueType) :
    Evaluates (.link .orElse (.index (.name "$$VARIABLES") (.text .single name))
      (zeroTree type)) := by
  intro N host vars
  obtain ⟨v, hv, hdefined, -⟩ := exists_field host vars name type
  exact ⟨v, hv, hdefined⟩

theorem Evaluates.link {op : Link} (hop : op.isBare = true) (ha : Evaluates a)
    (hb : Evaluates b) : Evaluates (.link op a b) := by
  intro N host vars
  obtain ⟨v, hv, hvdefined⟩ := ha N host vars
  obtain ⟨w, hw, hwdefined⟩ := hb N host vars
  by_cases hlogical : op.isLogical = true
  · refine ⟨_, value_link op hv hw, ?_⟩
    rw [combine_of_isLogical hlogical]
    split
    · exact hvdefined
    · exact hwdefined
  · refine ⟨_, value_link op hv hw, ?_⟩
    have hnullish := isNullish_link hop (Bool.not_eq_true _ ▸ hlogical) (value_link op hv hw)
    intro hundefined
    rw [hundefined] at hnullish
    cases hnullish

theorem Evaluates.choose (ha : Evaluates a) (hb : Evaluates b) (hc : Evaluates c) :
    Evaluates (.choose a b c) := by
  intro N host vars
  obtain ⟨v, hv, -⟩ := ha N host vars
  rw [value_choose hv]
  split
  · exact hb N host vars
  · exact hc N host vars

theorem Evaluates.instantTree {method : String}
    (hmethod : method = "toString" ∨ method = "toMillis") (ha : Evaluates a) :
    Evaluates (instantTree method a) := by
  intro N host vars
  obtain ⟨v, hv, -⟩ := ha N host vars
  rw [Script.instantTree, value, hv]
  rcases hmethod with rfl | rfl <;> exact ⟨_, rfl, by simp⟩

theorem Evaluates.dateTree (e : Expr) (ha : Evaluates a) : Evaluates (dateTree e a) := by
  unfold Script.dateTree
  split
  · exact fun N host vars => ⟨_, rfl, by simp⟩
  · exact ha

theorem Evaluates.stringTree (ha : Evaluates a) : Evaluates (stringTree a) := by
  intro N host vars
  obtain ⟨v, hv, -⟩ := ha N host vars
  rw [Script.stringTree, value, hv]
  exact ⟨_, rfl, by simp⟩

end

end Script

end FieldFormula
