import FieldFormula.Proofs.Logic.Variants
import FieldFormula.Proofs.Parser.Printing

/-!
Logical formulas from their tokens to the value of their text. They are typed as truth values node
by node, so every step up to the text succeeds. Main statement: the text has the truth of the
formula for its value, whatever the leaves are, exactly when `AND` joins no bare disjunction
(`evaluate_generate_iff`).
-/
namespace FieldFormula

namespace TypeTable
variable {table table' : TypeTable}

def Keeps (table table' : TypeTable) : Prop :=
  ∀ n : Expr, table.typeOf n = .boolean → table'.typeOf n = .boolean

theorem Keeps.trans {last : TypeTable} (h : table.Keeps table') (h' : table'.Keeps last) :
    table.Keeps last := fun n hn => h' n (h n hn)

theorem Keeps.all {e : Expr} (h : table.Keeps table')
    (he : e.All fun n => table.typeOf n = .boolean) : e.All fun n => table'.typeOf n = .boolean :=
  Expr.All.imp h he

theorem typeOf_record (table : TypeTable) (id : Nat) (t : ValueType) (n : Expr) :
    (table.record id t).typeOf n = if n.id = id then t else table.typeOf n := by
  rw [typeOf, get?, record, List.lookup_cons]
  by_cases h : n.id = id
  · simp [h]
  · rw [beq_eq_false_iff_ne.2 h, if_neg h, typeOf, get?]

theorem keeps_record (table : TypeTable) (id : Nat) : table.Keeps (table.record id .boolean) := by
  intro n hn
  rw [typeOf_record, hn, ite_self]

theorem typeOf_record_self (table : TypeTable) (e : Expr) :
    (table.record e.id .boolean).typeOf e = .boolean := by
  rw [typeOf_record, if_pos rfl]

end TypeTable

namespace Typing
variable {schema : Schema} {e : Expr}

theorem bind_ok {α β : Type} {x : TypeM α} {f : α → TypeM β} {a : α} {s s' : TypeTable}
    (h : x s = .ok a s') : (x >>= f) s = f a s' := by
  change EStateM.bind x f s = f a s'
  rw [EStateM.bind, h]

def Resolves (schema : Schema) (e : Expr) : Prop :=
  ∀ table, ∃ table', resolveNode schema e table = .ok (.known .boolean) table' ∧
    table.Keeps table' ∧ e.All fun n => table'.typeOf n = .boolean

theorem resolveItems_ok {es : List Expr} (h : ∀ e ∈ es, Resolves schema e) (last : ValueType)
    (table : TypeTable) : ∃ t table', resolveItems schema last es table = .ok t table' ∧
      table.Keeps table' ∧ ∀ e ∈ es, e.All fun n => table'.typeOf n = .boolean := by
  induction es generalizing last table with
  | nil => exact ⟨last, table, rfl, fun _ hn => hn, by simp⟩
  | cons e es ih =>
    obtain ⟨he, hes⟩ := List.forall_mem_cons.1 h
    obtain ⟨middle, hnode, hkeeps, hall⟩ := he table
    obtain ⟨t, table', hitems, hkeeps', hall'⟩ := ih hes .boolean middle
    refine ⟨t, table', ?_, hkeeps.trans hkeeps', List.forall_mem_cons.2 ⟨hkeeps'.all hall, hall'⟩⟩
    rw [resolveItems, bind_ok hnode]
    exact hitems

theorem resolves (h : e.Logical schema) : Resolves schema e := by
  induction e with
  | literal m value =>
    obtain ⟨b, rfl⟩ := Expr.all_literal.1 h
    intro table
    exact ⟨table.record m.id .boolean, rfl, table.keeps_record m.id,
      Expr.all_literal.2 (table.typeOf_record_self _)⟩
  | field m name =>
    obtain ⟨f, hf, htype⟩ := Option.map_eq_some_iff.1 (Expr.all_field.1 h)
    intro table
    refine ⟨table.record m.id .boolean, ?_, table.keeps_record m.id,
      Expr.all_field.2 (table.typeOf_record_self _)⟩
    have hnode : resolveNode schema (.field m name) = conclude m (.known f.type) := by
      rw [resolveNode, hf]
    rw [hnode, htype]
    rfl
  | binary m op l r ihl ihr =>
    obtain ⟨hl, hr, hop⟩ := Expr.all_binary.1 h
    intro table
    obtain ⟨middle, hleft, hkl, hal⟩ := ihl hl table
    obtain ⟨last, hright, hkr, har⟩ := ihr hr middle
    have hk := last.keeps_record m.id
    refine ⟨last.record m.id .boolean, ?_, (hkl.trans hkr).trans hk, Expr.all_binary.2
      ⟨hk.all (hkr.all hal), hk.all har, last.typeOf_record_self _⟩⟩
    rw [resolveNode, bind_ok hleft, bind_ok hright]
    rcases hop with rfl | rfl <;> rfl
  | unary m op e ih =>
    obtain ⟨he, rfl⟩ := Expr.all_unary.1 h
    intro table
    obtain ⟨last, hnode, hkeeps, hall⟩ := ih he table
    have hk := last.keeps_record m.id
    refine ⟨last.record m.id .boolean, ?_, hkeeps.trans hk,
      Expr.all_unary.2 ⟨hk.all hall, last.typeOf_record_self _⟩⟩
    rw [resolveNode, bind_ok hnode]
    rfl
  | group m e ih =>
    intro table
    obtain ⟨last, hnode, hkeeps, hall⟩ := ih (Expr.all_group.1 h).1 table
    have hk := last.keeps_record m.id
    refine ⟨last.record m.id .boolean, ?_, hkeeps.trans hk,
      Expr.all_group.2 ⟨hk.all hall, last.typeOf_record_self _⟩⟩
    rw [resolveNode, bind_ok hnode]
    rfl
  | call m name args ih =>
    obtain ⟨hargs, hname⟩ := Expr.all_call.1 h
    have hreturns : (Builtin.find? name).elim .null Builtin.returns = .boolean := by
      have hall : ∀ name ∈ ["AND", "OR", "NOT"],
          (Builtin.find? name).elim .null Builtin.returns = .boolean := by decide +kernel
      exact hall name (by simpa [Expr.IsLogical] using hname)
    intro table
    obtain ⟨t, last, hitems, hkeeps, hall⟩ :=
      resolveItems_ok (fun a ha => ih a ha (hargs a ha)) .null table
    have hk := last.keeps_record m.id
    refine ⟨last.record m.id .boolean, ?_, hkeeps.trans hk,
      Expr.all_call.2 ⟨fun a ha => hk.all (hall a ha), last.typeOf_record_self _⟩⟩
    rw [resolveNode, bind_ok hitems, hreturns]
    rfl
  | conditional _ _ _ _ _ _ _ | sequence _ _ _ => exact absurd h.root not_false

theorem infer_logical (h : e.Logical schema) : ∃ table, infer schema e = .ok (.boolean, table) ∧
    e.All fun n => table.typeOf n = .boolean := by
  obtain ⟨table, hnode, -, hall⟩ := resolves h .empty
  refine ⟨table, ?_, hall⟩
  have hresolve : resolve schema e .empty = .ok .boolean table := by
    rw [resolve, bind_ok hnode]
    rfl
  rw [infer, hresolve]

end Typing

namespace Logic
variable {schema : Schema} {e : Expr}

theorem formed_of_parse {limit : Nat} {tokens : List Token} (h : parseTokens limit tokens = .ok e)
    (hl : e.Logical schema) : e.Formed schema := by
  obtain ⟨items, q, hs, -, hitems⟩ := Parser.parseTokens_eq_ok_iff.1 h
  rcases hitems with rfl | ⟨-, rfl⟩
  · obtain ⟨hobeys, hplaced⟩ := Expr.all_and.1 (hs.yielded e (List.mem_singleton_self e))
    refine ⟨hl, Expr.All.imp ?_ (Expr.all_and.2 ⟨hobeys, hl⟩), hplaced⟩
    rintro n ⟨ho | hchained, hlogical⟩
    · exact ho
    · cases n with
      | binary m op l r => rcases hlogical with rfl | rfl <;> exact absurd hchained.1 (by decide)
      | _ => exact absurd hchained not_false
  · exact absurd hl.root not_false

theorem printable_of_formed (h : e.Formed schema) : e.Printable := by
  cases e with
  | sequence m items => exact absurd h.logical.root not_false
  | _ => exact ⟨h.obeys, h.placed⟩

theorem evaluate_generate (h : e.Formed schema) (target : Target) :
    ∃ table, Typing.infer schema e = .ok (.boolean, table) ∧
      ∀ env, evaluate target env (target.generate table e) = some (e.value target env) := by
  obtain ⟨table, hinfer, hall⟩ := Typing.infer_logical h.logical
  obtain ⟨hgraded, hunmixed, hof, -⟩ := h.wellFormed target
  refine ⟨table, hinfer, fun env => ?_⟩
  rw [generate_eq_text h.logical h.placed hall, evaluate_text hof hgraded hunmixed, Expr.value]

theorem exists_misread_parse {e : Expr} (h : e.Formed schema) (hmis : e.Misread) :
    ∃ limit tokens e', parseTokens limit tokens = .ok e' ∧ e'.outline = e.outline ∧
      e'.Logical schema ∧ ∀ target env, e'.value target env ≠ some (e'.truth env) := by
  obtain ⟨v, ho, hl, hwrong⟩ := hmis
  have hprint := printable_of_formed (h.of_outline ho hl schema)
  have hfaces : (Parser.ofTokens v.charge (v.kinds.map fun kind => ⟨kind, "", 0⟩)).Faces
      (v.kinds ++ [.eof]) v.charge :=
    Parser.faces_ofTokens (.inl (by rw [List.map_map]; exact List.map_id _)) hprint.canonical
      (Nat.le_refl _)
  obtain ⟨e', hparse, hshape⟩ := Parser.parse_of_faces hprint hfaces
  refine ⟨_, _, e', hparse, ?_, ?_, fun target env => ?_⟩
  · rw [← Expr.outline_shape, hshape, Expr.outline_shape, ho]
  · rw [Expr.Logical, ← Expr.all_shape (Expr.isLogical_shape schema), hshape,
      Expr.all_shape (Expr.isLogical_shape schema)]
    exact hl.of_empty schema
  · rw [Expr.value, ← Expr.term_shape, hshape, Expr.term_shape, ← Expr.truth_shape env e', hshape,
      Expr.truth_shape]
    have hvalue := hwrong target env
    rw [Expr.value] at hvalue
    simp [hvalue]

/-- In either target, the texts of all formulas that differ from a logical formula only in their
leaves have the truth of the formula for their value, exactly when no call of `AND` in it joins a
bare disjunction to other arguments. -/
theorem evaluate_generate_iff {limit : Nat} {tokens : List Token}
    (h : parseTokens limit tokens = .ok e) (hl : e.Logical schema) (target : Target) :
    (∀ limit' tokens' e', parseTokens limit' tokens' = .ok e' → e'.outline = e.outline →
      e'.Logical schema → ∃ table, Typing.infer schema e' = .ok (.boolean, table) ∧
        ∀ env, evaluate target env (target.generate table e') = some (some (e'.truth env))) ↔
    e.All Expr.KeepsGrouping := by
  have hform := formed_of_parse h hl
  constructor
  · intro hall
    refine Classical.byContradiction fun hk => ?_
    obtain ⟨limit', tokens', e', hparse, hout, hlogical, hwrong⟩ :=
      exists_misread_parse hform (Expr.exists_wrong_variant hform hk)
    -- that formula is typed and has a text like any other, but not the value it should have
    obtain ⟨table, hinfer, hvalue⟩ := hall limit' tokens' e' hparse hout hlogical
    obtain ⟨table', hinfer', hvalue'⟩ := evaluate_generate (formed_of_parse hparse hlogical) target
    obtain rfl : table = table' := (Prod.mk.inj (Except.ok.inj (hinfer.symm.trans hinfer'))).2
    have hsame := (hvalue' fun _ => none).symm.trans (hvalue fun _ => none)
    exact hwrong target _ (Option.some.inj hsame)
  · intro hk limit' tokens' e' hparse hout hlogical
    have hform' := formed_of_parse hparse hlogical
    have hk' : e'.All Expr.KeepsGrouping := by
      rwa [← Expr.all_outline Expr.keepsGrouping_outline, hout,
        Expr.all_outline Expr.keepsGrouping_outline]
    obtain ⟨table, hinfer, hvalue⟩ := evaluate_generate hform' target
    refine ⟨table, hinfer, fun env => ?_⟩
    rw [hvalue, Expr.value_eq_truth hform' hk']

/-- `AND([a], ([b] || [a])) && !OR([b], NOT([a])) || true` -/
theorem evaluate_generate_nested :
    let schema : Schema := ⟨[("a", ⟨"a", .boolean⟩), ("b", ⟨"b", .boolean⟩)], by decide⟩
    ∃ e, parseTokens 64 (([.identifier "AND", .leftParen, .field "a", .comma, .leftParen,
      .field "b", .operator .or, .field "a", .rightParen, .rightParen, .operator .and, .bang,
      .identifier "OR", .leftParen, .field "b", .comma, .identifier "NOT", .leftParen, .field "a",
      .rightParen, .rightParen, .operator .or, .literal (.boolean true)] : List Token.Kind).map
        fun kind => ⟨kind, "", 0⟩) = .ok e ∧ e.Logical schema ∧
      ∀ target : Target, ∃ table, Typing.infer schema e = .ok (.boolean, table) ∧
        ∀ env, evaluate target env (target.generate table e) = some (some (e.truth env)) := by
  intro schema
  refine (Parser.exists_ok (P := fun e => e.Logical schema ∧ e.All Expr.KeepsGrouping) ?_).imp
    fun e ⟨hparse, hl, hk⟩ => ⟨hparse, hl, fun target =>
      (evaluate_generate_iff hparse hl target).2 hk _ _ e hparse rfl hl⟩
  decide +kernel

/-- The texts `(true || false && false)` and `(true OR false AND false)` are true, and the formula
is false. -/
theorem and_loses_grouping :
    ∃ e, parse 64 "AND(true || false, false)" = .ok e ∧
      (e.Logical .empty ∧ e.truth (fun _ => none) = false) ∧
      ∀ target, ∃ text, compile .empty 64 target "AND(true || false, false)" = .ok text ∧
        evaluate target (fun _ => none) text = some (some true) := by
  have hparse : ∃ e, parse 64 "AND(true || false, false)" = .ok e ∧
      (e.Logical .empty ∧ e.truth (fun _ => none) = false) :=
    Parser.exists_ok (by decide +kernel)
  refine hparse.imp fun e he => ⟨he.1, he.2, fun target => ?_⟩
  cases target <;> exact Parser.exists_ok (by decide +kernel)

end Logic

end FieldFormula
