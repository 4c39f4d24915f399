import FieldFormula.Builtin.Registry
import FieldFormula.Expr

/-!
The grammar of formulas, read off the tree. A node obeys the table of precedence when its operands
bind tightly enough to stand there without parentheses; `kinds` writes a tree down as tokens, with
parentheses only where the tree has a group.
-/
namespace FieldFormula

namespace Expr

@[elab_as_elim, induction_eliminator]
theorem induct {motive : Expr → Prop}
    (literal : ∀ m value, motive (.literal m value))
    (field : ∀ m name, motive (.field m name))
    (binary : ∀ m op left right, motive left → motive right → motive (.binary m op left right))
    (unary : ∀ m op operand, motive operand → motive (.unary m op operand))
    (group : ∀ m inner, motive inner → motive (.group m inner))
    (conditional : ∀ m condition yes no, motive condition → motive yes → motive no →
      motive (.conditional m condition yes no))
    (call : ∀ m name args, (∀ e ∈ args, motive e) → motive (.call m name args))
    (sequence : ∀ m items, (∀ e ∈ items, motive e) → motive (.sequence m items))
    (e : Expr) : motive e :=
  @Expr.rec motive (fun es => ∀ e ∈ es, motive e) literal field binary unary group conditional
    call sequence (fun _ h => absurd h List.not_mem_nil)
    (fun _ _ first others => List.forall_mem_cons.2 ⟨first, others⟩) e

attribute [local simp] nodes

theorem nodesOf_eq_flatMap (es : List Expr) : nodesOf es = es.flatMap nodes := by
  induction es with
  | nil => rfl
  | cons e es ih => rw [nodesOf, ih, List.flatMap_cons]

theorem mem_nodes_self (e : Expr) : e ∈ e.nodes := by
  cases e <;> simp

def All (P : Expr → Prop) (e : Expr) : Prop := ∀ n ∈ e.nodes, P n

instance {P : Expr → Prop} [DecidablePred P] : DecidablePred (All P) :=
  fun e => inferInstanceAs (Decidable (∀ n ∈ e.nodes, P n))

section All
variable {P Q : Expr → Prop} {m : Mark}

theorem All.root {e : Expr} (h : e.All P) : P e := h e e.mem_nodes_self

theorem All.imp {e : Expr} (h : ∀ n, P n → Q n) (he : e.All P) : e.All Q :=
  fun n hn => h n (he n hn)

theorem all_and {e : Expr} : e.All (fun n => P n ∧ Q n) ↔ e.All P ∧ e.All Q := by
  simp only [All, imp_and, forall_and]

@[simp] theorem all_literal {value : Literal} : (literal m value).All P ↔ P (literal m value) := by
  simp [All]

@[simp] theorem all_field {name : String} : (field m name).All P ↔ P (field m name) := by
  simp [All]

@[simp] theorem all_binary {op : BinaryOp} {l r : Expr} :
    (binary m op l r).All P ↔ l.All P ∧ r.All P ∧ P (binary m op l r) := by
  simp [All, or_imp, forall_and]

@[simp] theorem all_unary {op : UnaryOp} {e : Expr} :
    (unary m op e).All P ↔ e.All P ∧ P (unary m op e) := by
  simp [All, or_imp, forall_and]

@[simp] theorem all_group {e : Expr} : (group m e).All P ↔ e.All P ∧ P (group m e) := by
  simp [All, or_imp, forall_and]

@[simp] theorem all_conditional {c y n : Expr} :
    (conditional m c y n).All P ↔ c.All P ∧ y.All P ∧ n.All P ∧ P (conditional m c y n) := by
  simp [All, or_imp, forall_and]

@[simp] theorem all_call {name : String} {args : List Expr} :
    (call m name args).All P ↔ (∀ e ∈ args, e.All P) ∧ P (call m name args) := by
  simp only [All, nodes, nodesOf_eq_flatMap, List.forall_mem_append, List.forall_mem_flatMap,
    List.forall_mem_singleton]

@[simp] theorem all_sequence {items : List Expr} :
    (sequence m items).All P ↔ (∀ e ∈ items, e.All P) ∧ P (sequence m items) := by
  simp only [All, nodes, nodesOf_eq_flatMap, List.forall_mem_append, List.forall_mem_flatMap,
    List.forall_mem_singleton]

theorem All.below {e : Expr} (h : e.All P) : e.All (All P) := by
  induction e with
  | literal _ _ | field _ _ => simpa using h
  | binary m op l r ihl ihr =>
    obtain ⟨hl, hr, -⟩ := all_binary.1 h
    exact all_binary.2 ⟨ihl hl, ihr hr, h⟩
  | unary m op e ih => exact all_unary.2 ⟨ih (all_unary.1 h).1, h⟩
  | group m e ih => exact all_group.2 ⟨ih (all_group.1 h).1, h⟩
  | conditional m c y n ihc ihy ihn =>
    obtain ⟨hc, hy, hn, -⟩ := all_conditional.1 h
    exact all_conditional.2 ⟨ihc hc, ihy hy, ihn hn, h⟩
  | call m name args ih =>
    exact all_call.2 ⟨fun e he => ih e he ((all_call.1 h).1 e he), h⟩
  | sequence m items ih =>
    exact all_sequence.2 ⟨fun e he => ih e he ((all_sequence.1 h).1 e he), h⟩

end All

def strength : Expr → Nat
  | binary _ op _ _ => op.strength
  | _ => 8

@[simp] theorem strength_binary (m : Mark) (op : BinaryOp) (left right : Expr) :
    (binary m op left right).strength = op.strength := rfl

def isComparison : Expr → Bool
  | binary _ op _ _ => op.isComparison
  | _ => false

/-- The node takes its operands as the table of precedence wants: left to right, comparisons not
one after another, and a sign or `!` only before what is no binary operation. -/
def Obeys : Expr → Prop
  | binary _ op left right =>
    op.strength ≤ left.strength ∧ (op.isComparison = true → op.strength < left.strength) ∧
      op.strength < right.strength
  | unary _ _ operand => operand.strength = 8
  | _ => True

def JoinsComparison : Expr → Prop
  | binary _ op _ right => op.strength < 3 ∧ right.isComparison = true
  | _ => False

/-- A comparison that goes on behind an `&&` or `||` as if the comparison there were complete. -/
def Chained : Expr → Prop
  | binary _ op left right =>
    op.isComparison = true ∧ left.JoinsComparison ∧ op.strength < right.strength
  | _ => False

/-- Calls are of built-in functions by their own name, with a number of arguments they accept, and
no sequence stands within an expression. -/
def Placed : Expr → Prop
  | call _ name args => ∃ f ∈ Builtin.all, f.name = name ∧ f.arity.accepts args.length = true
  | sequence _ _ => False
  | _ => True

def isPlain : Expr → Bool
  | literal _ (.number d) => !d.negative
  | call _ _ _ | sequence _ _ => false
  | _ => true

instance : DecidablePred Obeys
  | binary _ _ _ _ => inferInstanceAs (Decidable (_ ∧ _ ∧ _))
  | unary _ _ _ => inferInstanceAs (Decidable (_ = _))
  | literal _ _ | field _ _ | group _ _ | conditional _ _ _ _ | call _ _ _ | sequence _ _ =>
    isTrue trivial

instance : DecidablePred Placed
  | call _ _ _ => inferInstanceAs (Decidable (∃ f ∈ Builtin.all, _ ∧ _))
  | sequence _ _ => isFalse not_false
  | literal _ _ | field _ _ | binary _ _ _ _ | unary _ _ _ | group _ _ | conditional _ _ _ _ =>
    isTrue trivial

mutual

def kinds : Expr → List Token.Kind
  | literal _ value => [.literal value]
  | field _ name => [.field name]
  | binary _ op left right => left.kinds ++ .operator op :: right.kinds
  | unary _ .negate operand => .operator .subtract :: operand.kinds
  | unary _ .not operand => .bang :: operand.kinds
  | group _ inner => .leftParen :: (inner.kinds ++ [.rightParen])
  | conditional _ c y n =>
    .conditional :: .leftParen ::
      (c.kinds ++ .comma :: (y.kinds ++ .comma :: (n.kinds ++ [.rightParen])))
  | call _ name args => .identifier name :: .leftParen :: (kindsOf .comma args ++ [.rightParen])
  | sequence _ items => kindsOf .semicolon items

def kindsOf (separator : Token.Kind) : List Expr → List Token.Kind
  | [] => []
  | [e] => e.kinds
  | e :: next :: es => e.kinds ++ separator :: kindsOf separator (next :: es)

end

theorem kindsOf_cons {separator : Token.Kind} {e : Expr} {es : List Expr} (h : es ≠ []) :
    kindsOf separator (e :: es) = e.kinds ++ separator :: kindsOf separator es := by
  cases es with
  | nil => exact absurd rfl h
  | cons next es => rw [kindsOf]

mutual

def shape : Expr → Expr
  | literal _ value => literal ⟨0, 0⟩ value
  | field _ name => field ⟨0, 0⟩ name
  | binary _ op left right => binary ⟨0, 0⟩ op left.shape right.shape
  | unary _ op operand => unary ⟨0, 0⟩ op operand.shape
  | group _ inner => group ⟨0, 0⟩ inner.shape
  | conditional _ c y n => conditional ⟨0, 0⟩ c.shape y.shape n.shape
  | call _ name args => call ⟨0, 0⟩ name (shapes args)
  | sequence _ items => sequence ⟨0, 0⟩ (shapes items)

def shapes : List Expr → List Expr
  | [] => []
  | e :: es => e.shape :: shapes es

end

def statements : Expr → List Expr
  | sequence _ items => items
  | e => [e]

theorem statements_of_placed {e : Expr} (h : e.Placed) : e.statements = [e] := by
  cases e with
  | sequence _ _ => exact absurd h not_false
  | _ => rfl

end Expr

end FieldFormula
