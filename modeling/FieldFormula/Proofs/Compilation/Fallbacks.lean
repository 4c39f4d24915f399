import FieldFormula.Proofs.Parser.Precedence
import FieldFormula.Proofs.Parser.Printing
import FieldFormula.Proofs.Typing.Marks

/-!
The branches that answer for calls of unknown functions, for arguments that are missing and for
nodes without a type are never taken. Main statement: what a parser gives calls built-in functions
with all the arguments that their templates ask for, and once it is typed its text depends on no
type that is not recorded (`fallbacks_unreached`).
-/
namespace FieldFormula

def Piece.InBounds (count : Nat) : Piece → Prop
  | text _ => True
  | arg index => index < count
  | args first _ => first ≤ count

def Template.InBounds (t : Template) (count : Nat) : Prop :=
  ∀ piece ∈ t.pieces count, piece.InBounds count

/-- The call is of a built-in function by its own name, and its templates take no argument that is
missing. -/
def Expr.Served : Expr → Prop
  | call _ name args => ∃ f, Builtin.find? name = some f ∧ f.name = name ∧
      f.arity.accepts args.length = true ∧ f.sql.InBounds args.length ∧
      f.script.InBounds args.length
  | _ => True

def Piece.needs : Piece → Nat
  | text _ => 0
  | arg index => index + 1
  | args first _ => first

def Arity.least : Arity → Nat
  | exact count => count
  | range min _ => min

def Template.suits (least : Nat) : Template → Bool
  | plain pieces => pieces.all (·.needs ≤ least)
  | optional index absent present =>
    absent.all (·.needs ≤ least) && present.all (·.needs ≤ max least (index + 1))

section Bounds
variable {count least : Nat}

theorem Piece.inBounds_iff (piece : Piece) : piece.InBounds count ↔ piece.needs ≤ count := by
  cases piece with
  | text s => simp [InBounds, needs]
  | arg index => exact Nat.lt_iff_add_one_le
  | args first separator => exact Iff.rfl

theorem inBounds_of_all {pieces : List Piece} (h : pieces.all (·.needs ≤ least) = true)
    (hle : least ≤ count) : ∀ piece ∈ pieces, piece.InBounds count := by
  intro piece hpiece
  have hneeds : piece.needs ≤ least := of_decide_eq_true (List.all_eq_true.1 h piece hpiece)
  exact piece.inBounds_iff.2 (Nat.le_trans hneeds hle)

theorem Template.inBounds_of_suits {t : Template} (h : t.suits least = true)
    (hle : least ≤ count) : t.InBounds count := by
  cases t with
  | plain pieces => exact inBounds_of_all h hle
  | optional index absent present =>
    obtain ⟨habsent, hpresent⟩ := Bool.and_eq_true_iff.1 h
    rw [InBounds, pieces]
    by_cases hindex : index < count
    · rw [if_pos hindex]
      exact inBounds_of_all hpresent (Nat.max_le.2 ⟨hle, hindex⟩)
    · rw [if_neg hindex]
      exact inBounds_of_all habsent hle

theorem Arity.least_le {arity : Arity} (h : arity.accepts count = true) : arity.least ≤ count := by
  cases arity with
  | exact n => exact Nat.le_of_eq (beq_iff_eq.1 h).symm
  | range min max => exact of_decide_eq_true (Bool.and_eq_true_iff.1 h).1

theorem builtins_suit : Builtin.all.all (fun f => f.sql.suits f.arity.least &&
    f.script.suits f.arity.least) = true := by
  decide +kernel

theorem Builtin.inBounds {f : Builtin} (hf : f ∈ Builtin.all) (h : f.arity.accepts count = true) :
    f.sql.InBounds count ∧ f.script.InBounds count := by
  have hle := Arity.least_le h
  obtain ⟨hsql, hscript⟩ := Bool.and_eq_true_iff.1 (List.all_eq_true.1 builtins_suit f hf)
  exact ⟨Template.inBounds_of_suits hsql hle, Template.inBounds_of_suits hscript hle⟩

end Bounds

section Nodes
variable {e : Expr}

theorem Expr.Placed.served (h : e.Placed) : e.Served := by
  cases e with
  | call m name args =>
    obtain ⟨f, hf, rfl, haccepts⟩ := h
    obtain ⟨hsql, hscript⟩ := Builtin.inBounds hf haccepts
    exact ⟨f, Builtin.find?_of_upper hf (Builtin.upper_name hf), rfl, haccepts, hsql, hscript⟩
  | sequence m items => exact h.elim
  | _ => trivial

theorem served_of_statements (h : ∀ s ∈ e.statements, s.All Expr.Placed) : e.All Expr.Served := by
  have hserved : ∀ s ∈ e.statements, s.All Expr.Served :=
    fun s hs => (h s hs).imp fun _ => Expr.Placed.served
  cases e with
  | sequence m items => exact Expr.all_sequence.2 ⟨hserved, trivial⟩
  | _ => exact hserved _ (List.mem_singleton_self _)

theorem generate_congr {types other : TypeTable}
    (h : e.All fun n => other.get? n.id = types.get? n.id) (target : Target) :
    target.generate other e = target.generate types e := by
  have hkeeps : e.All (Expr.Keeps (fun m => m) types other) := by
    refine h.imp fun n hn => ?_
    rw [Expr.Keeps, n.remark_id, TypeTable.typeOf, TypeTable.typeOf, hn]
  have htext := generate_remark hkeeps target
  rwa [e.remark_id] at htext

end Nodes

/-- Whatever a table with further entries says of numbers without a type, where the table of the
formula would answer null, the text is the same. -/
theorem fallbacks_unreached (limit : Nat) (source : String) (e : Expr)
    (h : parse limit source = .ok e) :
    e.All Expr.Served ∧ ∀ schema t types, Typing.infer schema e = .ok (t, types) →
      (e.All fun n => ∃ u, types.get? n.id = some u) ∧
      ∀ other : TypeTable, (∀ id u, types.get? id = some u → other.get? id = some u) →
        ∀ target : Target, target.generate other e = target.generate types e := by
  refine ⟨served_of_statements (Parser.yields_of_parse h).placed, fun schema t types ht => ?_⟩
  have hrecorded : e.All fun n => ∃ u, types.get? n.id = some u :=
    fun n hn => Option.isSome_iff_exists.1 (Typing.isSome_of_infer ht hn)
  refine ⟨hrecorded, fun other hother target => generate_congr (fun n hn => ?_) target⟩
  obtain ⟨u, hu⟩ := hrecorded n hn
  rw [hu, hother n.id u hu]

theorem fallbacks_unreached_optional :
    let source := "IF(\x7b\x7bQty\x7d\x7d > 1, round(2.5, 1), ROUND(0.5)) & JOIN('-', NULL)"
    let schema : Schema := ⟨[("Qty", ⟨"q1", .number⟩)], by decide⟩
    ∃ e t types, parse 64 source = .ok e ∧ Typing.infer schema e = .ok (t, types) ∧
      e.All Expr.Served ∧ (e.All fun n => ∃ u, types.get? n.id = some u) ∧
      Target.script.generate ⟨types.entries ++ [(99, .date)]⟩ e =
        Target.script.generate types e := by
  intro source schema
  obtain ⟨e, he, htyped⟩ := Parser.exists_ok (x := parse 64 source)
    (P := fun e => (Typing.infer schema e).toOption.isSome = true) (by decide +kernel)
  cases hinfer : Typing.infer schema e with
  | error err =>
    rw [hinfer] at htyped
    cases htyped
  | ok x =>
    obtain ⟨hserved, htext⟩ := fallbacks_unreached 64 source e he
    obtain ⟨hrecorded, hsame⟩ := htext schema x.1 x.2 hinfer
    refine ⟨e, x.1, x.2, he, hinfer, hserved, hrecorded, hsame _ (fun id u hu => ?_) .script⟩
    rw [TypeTable.get?, List.lookup_append]
    exact Option.or_eq_some_iff.2 (.inl hu)

end FieldFormula
