import FieldFormula.Compilation
import FieldFormula.Proofs.Parser.Numbering
import FieldFormula.Proofs.Parser.Precedence
import FieldFormula.Proofs.Parser.Printing
import FieldFormula.Proofs.Schema.Rendering
import FieldFormula.Proofs.Typing.Rules

/-!
Equality with a null is written as a test of the other operand alone. The operand that is left out
is chosen by its type, so the type `null` must not stand for a value that is there. Main statement:
where no field is declared null, the nodes of type `null` are those that denote null whatever the
fields hold, and a null test leaves out only such an operand (`null_tests_leave_out_nulls`).
-/
namespace FieldFormula

/-- What literals, operators and functions of formulas stand for. Conditionals choose a branch and
sequences give their last item in any case. -/
structure Meaning (V : Type) where
  null : V
  literal : Literal → V
  holds : V → Bool
  unary : UnaryOp → V → V
  binary : BinaryOp → V → V → V
  call : String → List V → V
  literal_null : literal .null = null
  call_blank : call "BLANK" [] = null

/-- The meaning that only tells whether there is a value. -/
def Meaning.presence : Meaning Bool where
  null := false
  literal value := value != .null
  holds := id
  unary _ _ := true
  binary _ _ _ := true
  call name args := name != "BLANK" || !args.isEmpty
  literal_null := rfl
  call_blank := rfl

namespace Expr

section Denotation
variable {V : Type} (M : Meaning V) (fields : String → V)

mutual

def denote : Expr → V
  | literal _ value => M.literal value
  | field _ name => fields name
  | binary _ op left right => M.binary op left.denote right.denote
  | unary _ op operand => M.unary op operand.denote
  | group _ inner => inner.denote
  | conditional _ c y n => if M.holds c.denote then y.denote else n.denote
  | call _ name args => M.call name (denoteAll args)
  | sequence _ items => (denoteAll items).getLastD M.null

def denoteAll : List Expr → List V
  | [] => []
  | e :: es => e.denote :: denoteAll es

end

theorem denoteAll_eq_map (es : List Expr) : denoteAll M fields es = es.map (denote M fields) :=
  eq_map_of_cons rfl (fun _ _ => rfl) es

end Denotation

def DenotesNull (e : Expr) : Prop :=
  ∀ (V : Type) (M : Meaning V) (fields : String → V), e.denote M fields = M.null

inductive AlwaysNull : Expr → Prop where
  | literal {m : Mark} : AlwaysNull (literal m .null)
  | blank {m : Mark} : AlwaysNull (call m "BLANK" [])
  | group {m : Mark} {inner : Expr} : AlwaysNull inner → AlwaysNull (group m inner)
  | conditional {m : Mark} {c y n : Expr} :
      AlwaysNull y → AlwaysNull n → AlwaysNull (conditional m c y n)
  | sequence {m : Mark} {items : List Expr} {last : Expr} :
      items.getLast? = some last → AlwaysNull last → AlwaysNull (sequence m items)

section AlwaysNull
variable {m : Mark}

theorem alwaysNull_literal {value : Literal} : (literal m value).AlwaysNull ↔ value = .null := by
  constructor
  · intro h
    cases h
    rfl
  · rintro rfl
    exact .literal

theorem alwaysNull_group {inner : Expr} : (group m inner).AlwaysNull ↔ inner.AlwaysNull := by
  constructor
  · intro h
    cases h with
    | group h => exact h
  · exact .group

theorem alwaysNull_conditional {c y n : Expr} :
    (conditional m c y n).AlwaysNull ↔ y.AlwaysNull ∧ n.AlwaysNull := by
  constructor
  · intro h
    cases h with
    | conditional hy hn => exact ⟨hy, hn⟩
  · exact fun h => .conditional h.1 h.2

theorem alwaysNull_call {name : String} {args : List Expr} :
    (call m name args).AlwaysNull ↔ name = "BLANK" ∧ args = [] := by
  constructor
  · intro h
    cases h
    exact ⟨rfl, rfl⟩
  · rintro ⟨rfl, rfl⟩
    exact .blank

theorem alwaysNull_sequence {items : List Expr} {last : Expr} (hlast : items.getLast? = some last) :
    (sequence m items).AlwaysNull ↔ last.AlwaysNull := by
  constructor
  · intro h
    cases h with
    | sequence hlast' h =>
      rw [hlast] at hlast'
      cases hlast'
      exact h
  · exact .sequence hlast

end AlwaysNull

theorem AlwaysNull.denotesNull {e : Expr} (h : e.AlwaysNull) : e.DenotesNull := by
  intro V M fields
  induction h with
  | literal => exact M.literal_null
  | blank => exact M.call_blank
  | group _ ih => exact ih
  | conditional _ _ ihy ihn => rw [denote, ihy, ihn, ite_self]
  | sequence hlast _ ih =>
    rw [denote, denoteAll_eq_map, List.getLastD_eq_getLast?, List.getLast?_map, hlast]
    exact ih

def Stated : Expr → Prop
  | sequence _ items => items ≠ []
  | e => e.Placed

theorem Placed.stated {e : Expr} (h : e.Placed) : e.Stated := by
  cases e with
  | sequence m items => exact h.elim
  | _ => exact h

theorem denote_presence {e : Expr} (hnull : e.All fun n => ¬ n.AlwaysNull)
    (hstated : e.All Stated) : e.denote .presence (fun _ => true) = true := by
  induction e with
  | literal m value =>
    have hvalue : value ≠ .null := fun h => hnull.root (alwaysNull_literal.2 h)
    exact bne_iff_ne.2 hvalue
  | field _ _ | binary _ _ _ _ _ _ | unary _ _ _ _ => rfl
  | group m inner ih => exact ih (all_group.1 hnull).1 (all_group.1 hstated).1
  | conditional m c y n _ ihy ihn =>
    obtain ⟨-, hy, hn, -⟩ := all_conditional.1 hnull
    obtain ⟨-, hy', hn', -⟩ := all_conditional.1 hstated
    rw [denote, ihy hy hy', ihn hn hn', ite_self]
  | call m name args _ =>
    have hblank : ¬ (name = "BLANK" ∧ args = []) := fun h => hnull.root (alwaysNull_call.2 h)
    rw [denote, denoteAll_eq_map]
    simpa [Meaning.presence, ← Decidable.not_and_iff_or_not] using hblank
  | sequence m items ih =>
    have hlast := List.getLast?_eq_some_getLast hstated.root
    have hmem := List.getLast_mem hstated.root
    rw [denote, denoteAll_eq_map, List.getLastD_eq_getLast?, List.getLast?_map, hlast]
    exact ih _ hmem ((all_sequence.1 hnull).1 _ hmem) ((all_sequence.1 hstated).1 _ hmem)

/-- What holds neither a null nor a `BLANK()` is a value under some meaning. -/
theorem not_denotesNull {e : Expr} (hnull : e.All fun n => ¬ n.AlwaysNull)
    (hstated : e.All Stated) : ¬ e.DenotesNull := by
  intro h
  have hvalue := denote_presence hnull hstated
  rw [h Bool .presence] at hvalue
  cases hvalue

end Expr

namespace Parser
variable {e : Expr}

theorem Statements.ne_nil {p q : Parser} {es : List Expr} (h : Statements p es q) : es ≠ [] := by
  cases h <;> simp

theorem Yields.statements_ne_nil (h : Yields e) : e.statements ≠ [] := by
  cases e with
  | sequence m items =>
    obtain ⟨p, q, hexpression | hformula⟩ := h
    · have hplaced := (Expr.all_and.1 (run_of_expression hexpression).graded.1).2
      exact hplaced.root.elim
    · obtain ⟨items', r, hstatements, -, ⟨rfl, -⟩ | ⟨-, hsequence, -⟩⟩ := run_of_formula hformula
      · have hplaced := (Expr.all_and.1 (hstatements.yielded _ (List.mem_singleton_self _))).2
        exact hplaced.root.elim
      · cases hsequence
        exact hstatements.ne_nil
  | _ => exact List.cons_ne_nil _ _

theorem Yields.stated (h : Yields e) : e.All Expr.Stated := by
  have hplaced : ∀ s ∈ e.statements, s.All Expr.Stated :=
    fun s hs => (h.placed s hs).imp fun _ => Expr.Placed.stated
  cases e with
  | sequence m items => exact Expr.all_sequence.2 ⟨hplaced, h.statements_ne_nil⟩
  | _ => exact hplaced _ (List.mem_singleton_self _)

theorem Yields.nodup (h : Yields e) : (e.nodes.map Expr.id).Nodup := by
  obtain ⟨p, q, hexpression | hformula⟩ := h
  · exact (numbered_of_expression hexpression).nodup
  · exact (numbered_of_formula hformula).nodup

end Parser

def Schema.NullFree (schema : Schema) : Prop :=
  ∀ name field, schema.get? name = some field → field.type ≠ .null

section Types

theorem ValueType.Unify.eq_null_iff {a b u : ValueType} (h : a.Unify b u) :
    u = .null ↔ a = .null ∧ b = .null := by
  rcases h with ⟨rfl, rfl⟩ | ⟨rfl, rfl⟩ | ⟨rfl, rfl⟩ <;> simp

theorem BinaryOp.Gives.ne_null {constant : Bool} {op : BinaryOp} {l r t : ValueType}
    (h : op.Gives constant l r t) : t ≠ .null := by
  cases h <;> simp

theorem Literal.type_eq_null_iff {value : Literal} : value.type = .null ↔ value = .null := by
  cases value <;> simp [Literal.type]

/-- `BLANK` alone gives a null, and it takes no arguments. -/
theorem Builtin.returns_eq_null_iff {f : Builtin} (hf : f ∈ Builtin.all) {count : Nat}
    (hcount : f.arity.accepts count = true) :
    f.returns = .null ↔ f.name = "BLANK" ∧ count = 0 := by
  have hall : Builtin.all.all (fun f => decide (f.returns = .null ↔ f.name = "BLANK") &&
      decide (f.name = "BLANK" → f.arity = .exact 0)) = true := by decide +kernel
  obtain ⟨hreturns, harity⟩ := (Bool.and_eq_true _ _).mp (List.all_eq_true.1 hall f hf)
  rw [of_decide_eq_true hreturns]
  refine ⟨fun hname => ⟨hname, ?_⟩, And.left⟩
  rw [of_decide_eq_true harity hname] at hcount
  exact eq_of_beq hcount

theorem type_eq_null_iff {schema : Schema} (hschema : schema.NullFree) {τ : Nat → ValueType}
    {e : Expr} (hfollows : e.All (Typing.Follows schema τ)) (hstated : e.All Expr.Stated) :
    τ e.id = .null ↔ e.AlwaysNull := by
  induction e with
  | literal m value =>
    have htype : τ m.id = value.type := hfollows.root
    change τ m.id = .null ↔ _
    rw [htype, Literal.type_eq_null_iff, Expr.alwaysNull_literal]
  | field m name =>
    have hfield : (schema.get? name).map Field.type = some (τ m.id) := hfollows.root
    obtain ⟨field, hget, htype⟩ := Option.map_eq_some_iff.1 hfield
    constructor
    · exact fun hnull => absurd (htype.trans hnull) (hschema name field hget)
    · intro h
      cases h
  | binary m op l r _ _ =>
    have hgives := (Expr.all_binary.1 hfollows).2.2
    constructor
    · exact fun hnull => absurd hnull (BinaryOp.Gives.ne_null hgives)
    · intro h
      cases h
  | unary m op operand _ =>
    have htype : τ m.id = op.type := hfollows.root.2
    constructor
    · intro hnull
      have hop : op.type = .null := htype.symm.trans hnull
      cases op <;> cases hop
    · intro h
      cases h
  | group m inner ih =>
    have htype : τ m.id = τ inner.id := hfollows.root
    change τ m.id = .null ↔ _
    rw [htype, Expr.alwaysNull_group]
    exact ih (Expr.all_group.1 hfollows).1 (Expr.all_group.1 hstated).1
  | conditional m c y n _ ihy ihn =>
    obtain ⟨-, hfy, hfn, -, hunify⟩ := Expr.all_conditional.1 hfollows
    obtain ⟨-, hsy, hsn, -⟩ := Expr.all_conditional.1 hstated
    change τ m.id = .null ↔ _
    rw [hunify.eq_null_iff, ihy hfy hsy, ihn hfn hsn, Expr.alwaysNull_conditional]
  | call m name args _ =>
    obtain ⟨f, hf, rfl, hcount⟩ := hstated.root
    have htype : τ m.id = (Builtin.find? f.name).elim .null Builtin.returns := hfollows.root
    rw [Builtin.find?_of_upper hf (Builtin.upper_name hf)] at htype
    change τ m.id = .null ↔ _
    rw [htype, Option.elim_some, Builtin.returns_eq_null_iff hf hcount, List.length_eq_zero_iff,
      Expr.alwaysNull_call]
  | sequence m items ih =>
    have hlast := List.getLast?_eq_some_getLast hstated.root
    have hmem := List.mem_of_getLast? hlast
    have htype : τ m.id = (items.getLast?.map fun e => τ e.id).getD .null := hfollows.root
    change τ m.id = .null ↔ _
    rw [htype, hlast, Option.map_some, Option.getD_some, Expr.alwaysNull_sequence hlast]
    exact ih _ hmem ((Expr.all_sequence.1 hfollows).1 _ hmem)
      ((Expr.all_sequence.1 hstated).1 _ hmem)

end Types

/-- The node is an equality of which one operand is `dropped`, and what is tested is the text of the
other operand. -/
def TestsOther {α : Type} (text : Expr → α) (dropped : Expr → Prop) (n : Expr) (tested : α)
    (negated : Bool) : Prop :=
  ∃ m op l r, n = .binary m op l r ∧ op.isEquality = true ∧ negated = (op == .notEqual) ∧
    (dropped l ∧ tested = text r ∨ dropped r ∧ tested = text l)

theorem TestsOther.imp {α : Type} {text : Expr → α} {P Q : Expr → Prop} {n : Expr} {tested : α}
    {negated : Bool} (h : TestsOther text P n tested negated) (hPQ : n.All fun e => P e → Q e) :
    TestsOther text Q n tested negated := by
  obtain ⟨m, op, l, r, rfl, hop, hnegated, hdropped⟩ := h
  obtain ⟨hl, hr, -⟩ := Expr.all_binary.1 hPQ
  refine ⟨m, op, l, r, rfl, hop, hnegated, ?_⟩
  exact hdropped.imp (fun h => ⟨hl.root h.1, h.2⟩) fun h => ⟨hr.root h.1, h.2⟩

section Generators
variable {types : TypeTable} {n : Expr} {negated : Bool}

theorem testsOther_of_test {α : Type} {text : Expr → α} {test : α → Bool → α}
    (hinj : ∀ {x y b c}, test x b = test y c → x = y ∧ b = c) {m : Mark} {op : BinaryOp}
    (hop : op.isEquality = true) {l r : Expr} {tested other : α}
    (hother : other ≠ test tested negated)
    (h : (if types.typeOf l = .null then test (text r) (op == .notEqual)
      else if types.typeOf r = .null then test (text l) (op == .notEqual) else other) =
        test tested negated) :
    TestsOther text (fun e => types.typeOf e = .null) (.binary m op l r) tested negated := by
  refine ⟨m, op, l, r, rfl, hop, ?_⟩
  by_cases hl : types.typeOf l = .null
  · rw [if_pos hl] at h
    obtain ⟨rfl, rfl⟩ := hinj h
    exact ⟨rfl, .inl ⟨hl, rfl⟩⟩
  · rw [if_neg hl] at h
    by_cases hr : types.typeOf r = .null
    · rw [if_pos hr] at h
      obtain ⟨rfl, rfl⟩ := hinj h
      exact ⟨rfl, .inr ⟨hr, rfl⟩⟩
    · rw [if_neg hr] at h
      exact absurd h hother

theorem Sql.testsOther {tested : Sql} (h : Sql.ofExpr types n = .isNull tested negated) :
    TestsOther (fun e => Sql.operand e (Sql.ofExpr types e)) (fun e => types.typeOf e = .null) n
      tested negated := by
  cases n with
  | literal m value => cases value <;> cases h
  | field _ _ | group _ _ | conditional _ _ _ _ | call _ _ _ | sequence _ _ => cases h
  | unary m op e =>
    cases op with
    | negate =>
      rw [Sql.ofExpr, Sql.negated] at h
      split at h <;> cases h
    | not => cases h
  | binary m op l r =>
    rw [Sql.ofExpr, Sql.ofBinary] at h
    by_cases hop : op.isEquality = true
    · have hadd : op ≠ .add := by
        rintro rfl
        cases hop
      simp only [hadd, false_and, if_false, hop, if_true] at h
      refine testsOther_of_test Sql.isNull.inj hop ?_ h
      split <;> simp
    · rw [Bool.not_eq_true] at hop
      simp only [hop, Bool.false_eq_true, if_false] at h
      split at h
      · cases h
      · split at h <;> cases h

theorem Script.testsOther {tested : Script} (h : Script.ofExpr types n = .isNull tested negated) :
    TestsOther (Script.ofExpr types) (fun e => types.typeOf e = .null) n tested negated := by
  cases n with
  | literal m value => cases value <;> cases h
  | field _ _ | group _ _ | conditional _ _ _ _ | call _ _ _ | sequence _ _ => cases h
  | unary m op e =>
    cases op with
    | negate =>
      rw [Script.ofExpr, Script.negated] at h
      split at h <;> cases h
    | not => cases h
  | binary m op l r =>
    rw [Script.ofExpr, Script.ofBinary] at h
    by_cases hop : op.isEquality = true
    · have htext : ¬(op = .concat ∨ op = .add ∧ types.typeOf (.binary m op l r) = .string) := by
        rintro (rfl | ⟨rfl, -⟩) <;> cases hop
      simp only [htext, if_false, hop, if_true] at h
      refine testsOther_of_test Script.isNull.inj hop ?_ h
      split
      · simp
      · split <;> simp
    · rw [Bool.not_eq_true] at hop
      simp only [hop, Bool.false_eq_true, if_false] at h
      split at h
      · cases h
      · split at h
        · cases h
        · split at h <;> cases h

end Generators

section Declarations

theorem ValueType.ne_null_of_ofJson? {json : Json} {t : ValueType}
    (h : ValueType.ofJson? json = some t) : t ≠ .null := by
  have hname (name : String) (hname : ValueType.ofName? name = some t) : t ≠ .null := by
    have hmem := List.mem_of_find?_eq_some hname
    rintro rfl
    simp at hmem
  unfold ValueType.ofJson? at h
  split at h
  · obtain ⟨name, -, hof⟩ := Option.bind_eq_some_iff.1 h
    exact hname name hof
  · obtain ⟨name, -, hof⟩ := Option.bind_eq_some_iff.1 h
    exact hname name hof
  · cases h

theorem Field.ne_null_of_ofParts? {id type : Json} {field : Field}
    (h : Field.ofParts? id type = some field) : field.type ≠ .null := by
  unfold Field.ofParts? at h
  split at h
  · obtain ⟨t, ht, hfield⟩ := Option.bind_eq_some_iff.1 h
    cases hfield
    exact ValueType.ne_null_of_ofJson? ht
  · cases h

theorem Field.ne_null_of_ofJson? {json : Json} {field : Field}
    (h : Field.ofJson? json = some field) : field.type ≠ .null := by
  unfold Field.ofJson? at h
  split at h
  · exact Field.ne_null_of_ofParts? h
  · obtain ⟨members, -, h⟩ := Option.bind_eq_some_iff.1 h
    obtain ⟨id, -, h⟩ := Option.bind_eq_some_iff.1 h
    obtain ⟨type, -, h⟩ := Option.bind_eq_some_iff.1 h
    exact Field.ne_null_of_ofParts? h
  · cases h

theorem Schema.NullFree.insert {schema : Schema} (h : schema.NullFree) (name : String)
    {field : Field} (hfield : field.type ≠ .null) : (schema.insert name field).NullFree := by
  intro other found hfound
  rw [Schema.get?_insert] at hfound
  split at hfound
  · cases hfound
    exact hfield
  · exact h other found hfound

theorem Schema.NullFree.insertAll {members : List (Option String × Json)} {schema result : Schema}
    (h : schema.NullFree) (hresult : members.foldlM Schema.insertJson? schema = some result) :
    result.NullFree := by
  induction members generalizing schema with
  | nil =>
    cases hresult
    exact h
  | cons member members ih =>
    rw [List.foldlM_cons] at hresult
    obtain ⟨next, hnext, hrest⟩ := Option.bind_eq_some_iff.1 hresult
    obtain ⟨name, -, hnext⟩ := Option.bind_eq_some_iff.1 hnext
    obtain ⟨field, hfield, hnext⟩ := Option.bind_eq_some_iff.1 hnext
    cases hnext
    exact ih (h.insert name (Field.ne_null_of_ofJson? hfield)) hrest

theorem Schema.nullFree_of_parse? {text : String} {schema : Schema}
    (h : Schema.parse? text = some schema) : schema.NullFree := by
  obtain ⟨json, -, h⟩ := Option.bind_eq_some_iff.1 h
  unfold Schema.ofJson? at h
  split at h
  · have hempty : Schema.empty.NullFree := by
      intro name field hfield
      cases hfield
    exact hempty.insertAll h
  · cases h

end Declarations

theorem null_tests_leave_out_nulls {schema : Schema} (hschema : schema.NullFree) {e : Expr}
    (he : Parser.Yields e) {t : ValueType} {types : TypeTable}
    (h : Typing.infer schema e = .ok (t, types)) :
    (e.All fun n => types.typeOf n = .null ↔ n.AlwaysNull) ∧
    (e.All fun n => ∀ negated,
      (∀ tested, Sql.ofExpr types n = .isNull tested negated →
        TestsOther (fun e => Sql.operand e (Sql.ofExpr types e)) Expr.DenotesNull n tested
          negated) ∧
      (∀ tested, Script.ofExpr types n = .isNull tested negated →
        TestsOther (Script.ofExpr types) Expr.DenotesNull n tested negated)) ∧
    ∀ text schema', Schema.parse? text = some schema' → schema'.NullFree := by
  obtain ⟨τ, hfollows, htypes⟩ := Typing.follows_of_infer he.nodup h
  have hnull : e.All fun n => types.typeOf n = .null ↔ n.AlwaysNull := by
    intro n hn
    rw [htypes n hn]
    exact type_eq_null_iff hschema (hfollows.below n hn) (he.stated.below n hn)
  have hdenotes : e.All fun n => types.typeOf n = .null → n.DenotesNull :=
    hnull.imp fun n hn htype => (hn.1 htype).denotesNull
  refine ⟨hnull, fun n hn negated => ⟨?_, ?_⟩, fun _ _ => Schema.nullFree_of_parse?⟩
  · exact fun tested htested => (Sql.testsOther htested).imp (hdenotes.below n hn)
  · exact fun tested htested => (Script.testsOther htested).imp (hdenotes.below n hn)

/-- `IF([a] > 1, null, (BLANK())) != [a]` is a test of `[a]` alone. -/
theorem null_tests_leave_out_conditional :
    let text := "\x7b\"a\": [\"a1\", \"number\"]\x7d"
    let source := "IF(\x7b\x7ba\x7d\x7d > 1, null, (BLANK())) != \x7b\x7ba\x7d\x7d"
    ∃ schema e types, Schema.parse? text = some schema ∧ schema.NullFree ∧
      parse 64 source = .ok e ∧ Typing.infer schema e = .ok (.boolean, types) ∧
      Target.script.generate types e = "($$VARIABLES['a'] ?? 0) != null" ∧
      (e.All fun n => types.typeOf n = .null ↔ n.AlwaysNull) ∧
      e.All fun n => ∀ tested, Script.ofExpr types n = .isNull tested true →
        TestsOther (Script.ofExpr types) Expr.DenotesNull n tested true := by
  intro text source
  have htext : Schema.parse? text = some (Schema.empty.insert "a" ⟨"a1", .number⟩) := by
    decide +kernel
  have hschema := Schema.nullFree_of_parse? htext
  obtain ⟨e, he, ⟨t, types⟩, hx, rfl, hscript⟩ := Parser.exists_ok (x := parse 64 source)
    (P := fun e => ∃ x ∈ (Typing.infer (Schema.empty.insert "a" ⟨"a1", .number⟩) e).toOption,
      x.1 = .boolean ∧ Target.script.generate x.2 e = "($$VARIABLES['a'] ?? 0) != null")
    (by decide +kernel)
  have hinfer := Parser.eq_ok_of_mem_toOption hx
  obtain ⟨hnull, htests, -⟩ :=
    null_tests_leave_out_nulls hschema (Parser.yields_of_parse he) hinfer
  exact ⟨_, e, types, htext, hschema, he, hinfer, hscript, hnull,
    fun n hn => (htests n hn true).2⟩

end FieldFormula
