import FieldFormula.Compilation
import FieldFormula.Proofs.Token.Coverage

/-!
The stages of compilation taken apart. The type and the text of a formula are read off one
analysis, so whatever makes one of them fail makes the other fail (`check_eq_map`,
`compile_eq_map`), and the analysis knows the source only by its tokens (`analyze_of_tokenize`).
-/
namespace FieldFormula

def analyzeTokens (schema : Schema) (limit : Nat) (ts : List Token) :
    Except CompileError (Expr × ValueType × TypeTable) :=
  match parseTokens limit ts with
  | .error err => .error (.parse err)
  | .ok e =>
    match Typing.infer schema e with
    | .error err => .error (.type err)
    | .ok x => .ok (e, x)

def analyze (schema : Schema) (limit : Nat) (source : String) :
    Except CompileError (Expr × ValueType × TypeTable) :=
  match tokenize source with
  | .error err => .error (.lex err)
  | .ok ts => analyzeTokens schema limit ts

section
variable {schema : Schema} {limit : Nat} {source : String} {ts : List Token}

theorem getLast?_of_tokenize (h : tokenize source = .ok ts) :
    ts.getLast?.map Token.kind = some .eof := by
  obtain ⟨init, rfl, -⟩ := (Scanner.scanned_of_tokens h).eof_last
  simp

theorem analyze_of_tokenize (h : tokenize source = .ok ts) :
    analyze schema limit source = analyzeTokens schema limit ts := by
  rw [analyze, h]

theorem parse_typed_eq_map {α : Type} (schema : Schema) (limit : Nat) (source : String)
    (f : Expr → ValueType × TypeTable → α) :
    (do let e ← parse limit source
        let x ← (Typing.infer schema e).mapError CompileError.type
        return f e x) = (analyze schema limit source).map fun x => f x.1 x.2 := by
  rw [parse, analyze]
  cases tokenize source with
  | error err => rfl
  | ok ts =>
    change ((parseTokens limit ts).mapError CompileError.parse >>= _) =
      (analyzeTokens schema limit ts).map _
    rw [analyzeTokens]
    cases parseTokens limit ts with
    | error err => rfl
    | ok e =>
      change ((Typing.infer schema e).mapError CompileError.type >>= _) = _
      dsimp only
      cases Typing.infer schema e with
      | error err => rfl
      | ok x => rfl

theorem check_eq_map (schema : Schema) (limit : Nat) (source : String) :
    check schema limit source = (analyze schema limit source).map fun x => x.2.1 :=
  parse_typed_eq_map schema limit source fun _ x => x.1

theorem compile_eq_map (schema : Schema) (limit : Nat) (target : Target) (source : String) :
    compile schema limit target source =
      (analyze schema limit source).map fun x => target.generate x.2.2 x.1 :=
  parse_typed_eq_map schema limit source fun e x => target.generate x.2 e

theorem analyzeTokens_eq_ok {e : Expr} {x : ValueType × TypeTable} :
    analyzeTokens schema limit ts = .ok (e, x) ↔
      parseTokens limit ts = .ok e ∧ Typing.infer schema e = .ok x := by
  rw [analyzeTokens]
  constructor
  · intro h
    split at h
    · cases h
    · split at h
      · cases h
      · rename_i hx
        cases h
        exact ⟨‹_›, hx⟩
  · rintro ⟨he, hx⟩
    rw [he]
    dsimp only
    rw [hx]

theorem analyzeTokens_eq_error {err : CompileError} :
    analyzeTokens schema limit ts = .error err ↔
      (∃ e, parseTokens limit ts = .error e ∧ err = .parse e) ∨
      ∃ e e', parseTokens limit ts = .ok e ∧ Typing.infer schema e = .error e' ∧
        err = .type e' := by
  rw [analyzeTokens]
  constructor
  · intro h
    split at h
    · cases h
      exact .inl ⟨_, ‹_›, rfl⟩
    · split at h
      · rename_i hx
        cases h
        exact .inr ⟨_, _, ‹_›, hx, rfl⟩
      · cases h
  · rintro (⟨e, he, rfl⟩ | ⟨e, e', he, hx, rfl⟩)
    · rw [he]
    · rw [he]
      dsimp only
      rw [hx]

end

end FieldFormula
