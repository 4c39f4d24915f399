import FieldFormula.Proofs.Compilation.Locations

/-!
What of a schema matters to a formula. Main statement: type, text and errors are the same under any
two schemas that agree on the types of the fields that the formula mentions
(`result_depends_on_mentioned_types`).
-/
namespace FieldFormula

def Schema.type? (schema : Schema) (name : String) : Option ValueType :=
  (schema.get? name).map Field.type

def Mentions (source name : String) : Prop :=
  ∃ ts, tokenize source = .ok ts ∧ ∃ t ∈ ts, t.kind = .field name

theorem Mentions.kind_mem {source name : String} {ts : List Token} (h : Mentions source name)
    (hts : tokenize source = .ok ts) : .field name ∈ ts.map Token.kind := by
  obtain ⟨us, hus, t, ht, hkind⟩ := h
  obtain rfl : ts = us := Except.ok.inj (hts.symm.trans hus)
  exact List.mem_map.2 ⟨t, ht, hkind⟩

def Expr.DeclaredAlike (F G : Schema) : Expr → Prop
  | field _ name => F.type? name = G.type? name
  | _ => True

namespace Typing
variable {F G : Schema}

theorem resolveItems_congr {es : List Expr}
    (h : ∀ e ∈ es, resolveNode F e = resolveNode G e) (last : ValueType) :
    resolveItems F last es = resolveItems G last es := by
  induction es generalizing last with
  | nil => rfl
  | cons e es ih =>
    obtain ⟨he, hes⟩ := List.forall_mem_cons.1 h
    rw [resolveItems, resolveItems, he]
    simp only [ih hes]

theorem resolveField_congr {m : Mark} {name : String} (h : F.type? name = G.type? name) :
    resolveNode F (.field m name) = resolveNode G (.field m name) := by
  rw [resolveNode, resolveNode]
  unfold Schema.type? at h
  cases hF : F.get? name with
  | none =>
    rw [hF, Option.map_none, eq_comm, Option.map_eq_none_iff] at h
    rw [h]
  | some field =>
    rw [hF, Option.map_some, eq_comm, Option.map_eq_some_iff] at h
    obtain ⟨other, hG, htype⟩ := h
    rw [hG]
    simp only [htype]

theorem resolveNode_congr {e : Expr} (h : e.All (Expr.DeclaredAlike F G)) :
    resolveNode F e = resolveNode G e := by
  induction e with
  | literal m value => rw [resolveNode, resolveNode]
  | field m name => exact resolveField_congr h.root
  | binary m op left right ihl ihr =>
    obtain ⟨hl, hr, -⟩ := Expr.all_binary.1 h
    rw [resolveNode, resolveNode, ihl hl, ihr hr]
  | unary m op operand ih =>
    rw [resolveNode, resolveNode, ih (Expr.all_unary.1 h).1]
  | group m inner ih =>
    rw [resolveNode, resolveNode, ih (Expr.all_group.1 h).1]
  | conditional m c y n ihc ihy ihn =>
    obtain ⟨hc, hy, hn, -⟩ := Expr.all_conditional.1 h
    rw [resolveNode, resolveNode, ihc hc, ihy hy, ihn hn]
  | call m name args ih =>
    obtain ⟨hargs, -⟩ := Expr.all_call.1 h
    rw [resolveNode, resolveNode, resolveItems_congr fun e he => ih e he (hargs e he)]
  | sequence m items ih =>
    obtain ⟨hitems, -⟩ := Expr.all_sequence.1 h
    rw [resolveNode, resolveNode, resolveItems_congr fun e he => ih e he (hitems e he)]

theorem infer_congr {e : Expr} (h : e.All (Expr.DeclaredAlike F G)) : infer F e = infer G e := by
  rw [infer, infer, resolve, resolve, resolveNode_congr h]

end Typing

section
variable {F G : Schema} {source : String} {limit : Nat} {ts : List Token}

theorem declaredAlike_of_parseTokens {e : Expr} (hts : tokenize source = .ok ts)
    (he : parseTokens limit ts = .ok e)
    (h : ∀ name, Mentions source name → F.type? name = G.type? name) :
    e.All (Expr.DeclaredAlike F G) := by
  intro n hn
  cases n with
  | field m name =>
    obtain ⟨i, t, ht, -, hkind⟩ := own_of_parseTokens (getLast?_of_tokenize hts) he hn
    have hcanonical : t.kind.canonical = (TypeError.Cause.unknownField name).kind := hkind _ rfl
    exact h name ⟨ts, hts, t, List.mem_of_getElem? ht, kind_of_canonical hcanonical⟩
  | _ => trivial

theorem analyze_congr (h : ∀ name, Mentions source name → F.type? name = G.type? name) :
    analyze F limit source = analyze G limit source := by
  unfold analyze
  cases hts : tokenize source with
  | error err => rfl
  | ok ts =>
    dsimp only
    unfold analyzeTokens
    cases he : parseTokens limit ts with
    | error err => rfl
    | ok e =>
      dsimp only
      rw [Typing.infer_congr (declaredAlike_of_parseTokens hts he h)]

end

theorem result_depends_on_mentioned_types (F G : Schema) (limit : Nat) (target : Target)
    (source : String) (h : ∀ name, Mentions source name → F.type? name = G.type? name) :
    check F limit source = check G limit source ∧
      compile F limit target source = compile G limit target source := by
  rw [check_eq_map, check_eq_map, compile_eq_map, compile_eq_map, analyze_congr h]
  exact ⟨rfl, rfl⟩

/-- The name in the string is no field, so the schemas may declare it differently; neither declares
the last field of the second formula. -/
theorem result_depends_on_mentioned_types_renumbered :
    let F : Schema := ⟨[("Qty", ⟨"q1", .number⟩), ("Name", ⟨"n1", .string⟩)], by decide⟩
    let G : Schema :=
      ⟨[("Name", ⟨"n2", .date⟩), ("Qty", ⟨"q2", .number⟩), ("Due", ⟨"d", .date⟩)], by decide⟩
    let source := "\x7b\x7bQty\x7d\x7d + 1 & '\x7b\x7bName\x7d\x7d'"
    let failing := "\x7b\x7bQty\x7d\x7d + 1 == '\x7b\x7bName\x7d\x7d' & \x7b\x7bSum\x7d\x7d"
    let text := "CONCAT(COALESCE($$VARIABLES['Qty'], 0) + 1, '\x7b\x7bName\x7d\x7d')"
    F.type? "Name" ≠ G.type? "Name" ∧
      (∀ name, Mentions source name → F.type? name = G.type? name) ∧
      check F 64 source = .ok .string ∧ check G 64 source = .ok .string ∧
      compile F 64 .sql source = .ok text ∧ compile G 64 .sql source = .ok text ∧
      (∀ name, Mentions failing name → F.type? name = G.type? name) ∧
      check G 64 failing = .error (.type ⟨.unknownField "Sum", 28⟩) := by
  intro F G source failing text
  have hsource : tokenize source = .ok [⟨.field "Qty", "\x7b\x7bQty\x7d\x7d", 0⟩,
      ⟨.operator .add, "+", 8⟩, ⟨.literal (.number (.ofDigit 1)), "1", 10⟩,
      ⟨.operator .concat, "&", 12⟩,
      ⟨.literal (.text "\x7b\x7bName\x7d\x7d"), "'\x7b\x7bName\x7d\x7d'", 14⟩, ⟨.eof, "", 24⟩] := by
    decide +kernel
  have hfailing : tokenize failing = .ok [⟨.field "Qty", "\x7b\x7bQty\x7d\x7d", 0⟩,
      ⟨.operator .add, "+", 8⟩, ⟨.literal (.number (.ofDigit 1)), "1", 10⟩,
      ⟨.operator .equal, "==", 12⟩,
      ⟨.literal (.text "\x7b\x7bName\x7d\x7d"), "'\x7b\x7bName\x7d\x7d'", 15⟩,
      ⟨.operator .concat, "&", 26⟩, ⟨.field "Sum", "\x7b\x7bSum\x7d\x7d", 28⟩, ⟨.eof, "", 35⟩] := by
    decide +kernel
  have halike : ∀ name, Mentions source name → F.type? name = G.type? name := by
    intro name h
    obtain rfl : name = "Qty" := by simpa using h.kind_mem hsource
    rfl
  have halike' : ∀ name, Mentions failing name → F.type? name = G.type? name := by
    intro name h
    obtain rfl | rfl : name = "Qty" ∨ name = "Sum" := by simpa using h.kind_mem hfailing
    · rfl
    · rfl
  have hcheck : check F 64 source = .ok .string := by decide +kernel
  have hcompile : compile F 64 .sql source = .ok text := by decide +kernel
  have herror : check F 64 failing = .error (.type ⟨.unknownField "Sum", 28⟩) := by decide +kernel
  obtain ⟨hcheck', hcompile'⟩ := result_depends_on_mentioned_types F G 64 .sql source halike
  obtain ⟨herror', -⟩ := result_depends_on_mentioned_types F G 64 .sql failing halike'
  exact ⟨by decide, halike, hcheck, hcheck'.symm.trans hcheck, hcompile,
    hcompile'.symm.trans hcompile, halike', herror'.symm.trans herror⟩

end FieldFormula
