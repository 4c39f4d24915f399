import FieldFormula.Proofs.Compilation.Stages
import FieldFormula.Proofs.Parser.Invariants
import FieldFormula.Proofs.Token.Faults
import FieldFormula.Proofs.Typing.Entries
import Mathlib.Data.List.Flatten

/-!
Where errors of compilation are reported. Main statement: a lexical error is shown by the source at
its position, and every other error has the position of a token that can be blamed for it
(`errors_located`).
-/
namespace FieldFormula

def TypeError.OnToken (ts : List Token) (e : TypeError) : Prop :=
  ∃ t ∈ ts, t.position = e.position ∧ t.kind = e.cause.kind

namespace CompileError

/-- The position of the error is a true location in the source. -/
def Located (source : String) : CompileError → Prop
  | lex e => e.Shown source.toList
  | parse e => ∃ ts, tokenize source = .ok ts ∧ e.BlamedOn ts
  | type e => ∃ ts, tokenize source = .ok ts ∧ e.OnToken ts

end CompileError

section
variable {schema : Schema} {limit : Nat} {source : String} {ts : List Token}

theorem blamed_of_parseTokens {err : ParseError} (hlast : ts.getLast?.map Token.kind = some .eof)
    (h : parseTokens limit ts = .error err) : err.BlamedOn ts := by
  have hsubset : (Parser.ofTokens limit ts).remaining ⊆ ts := by
    rw [Parser.remaining_ofTokens_of_eof hlast]
    exact List.Subset.refl ts
  unfold parseTokens at h
  split at h
  · cases h
  · rename_i err' q hq
    cases h
    exact (Parser.accountable_formula ts _ hsubset).2 _ q hq

theorem own_of_parseTokens {e : Expr} (hlast : ts.getLast?.map Token.kind = some .eof)
    (h : parseTokens limit ts = .ok e) {n : Expr} (hn : n ∈ e.nodes) : ∃ i, Own ts (i, n) := by
  obtain ⟨items, q, hs, -, hitems⟩ := Parser.parseTokens_eq_ok_iff.1 h
  have hstands : (Parser.ofTokens limit ts).Stands ts 0 :=
    (Parser.remaining_ofTokens_of_eof hlast).symm
  have hplaces := hs.located (Parser.closed_ofTokens limit ts) hstands
  have hitem : ∀ n ∈ Expr.nodesOf items, ∃ i, Own ts (i, n) := by
    intro n hn
    rw [← Expr.map_snd_placesOf (fun e _ i => e.map_snd_places i) 0, List.mem_map] at hn
    obtain ⟨⟨i, n⟩, hx, rfl⟩ := hn
    exact ⟨i, hplaces _ hx⟩
  rcases hitems with rfl | ⟨-, rfl⟩
  · exact hitem n (List.mem_append_left _ hn)
  · rcases List.mem_append.1 hn with hn | hn
    · exact hitem n hn
    · refine ⟨0, ?_⟩
      rw [List.mem_singleton.1 hn]
      refine Parser.own_current hstands ?_ (fun kind hkind => nomatch hkind)
      cases ts with
      | nil => cases hlast
      | cons t ts => rfl

/-- No type error is blamed on a name, and every other kind of token is written in one way only. -/
theorem kind_of_canonical {kind : Token.Kind} {cause : TypeError.Cause}
    (h : kind.canonical = cause.kind) : kind = cause.kind := by
  cases kind with
  | identifier name =>
    cases cause with
    | unknownField _ => cases h
    | mismatch culprit =>
      cases culprit with
      | unary op => cases op <;> cases h
      | _ => cases h
  | _ => exact h

theorem onToken_of_infer {e : Expr} {err : TypeError}
    (hlast : ts.getLast?.map Token.kind = some .eof) (he : parseTokens limit ts = .ok e)
    (h : Typing.infer schema e = .error err) : err.OnToken ts := by
  obtain ⟨n, hn, hposition, hkind⟩ := Typing.blamed_of_infer h
  obtain ⟨i, t, ht, hown, hcanonical⟩ := own_of_parseTokens hlast he hn
  refine ⟨t, List.mem_of_getElem? ht, hown.symm.trans hposition, ?_⟩
  exact kind_of_canonical (hcanonical _ hkind)

theorem located_of_analyze {err : CompileError} (h : analyze schema limit source = .error err) :
    err.Located source := by
  unfold analyze at h
  split at h
  · cases h
    exact tokenize_error_shown ‹_›
  · rename_i ts hts
    have hlast := getLast?_of_tokenize hts
    obtain ⟨e, he, rfl⟩ | ⟨e, e', he, hx, rfl⟩ := analyzeTokens_eq_error.1 h
    · exact ⟨ts, hts, blamed_of_parseTokens hlast he⟩
    · exact ⟨ts, hts, onToken_of_infer hlast he hx⟩

end

/-- Whatever fails, the position that is reported shows the cause: the characters of a lexical
error, the name of a call that is unknown or has a wrong number of arguments, the operator, `IF` or
field of a type error, and some token for every other error. -/
theorem errors_located (schema : Schema) (limit : Nat) (target : Target) (source : String)
    (err : CompileError)
    (h : check schema limit source = .error err ∨ compile schema limit target source = .error err) :
    err.Located source := by
  rw [check_eq_map, compile_eq_map] at h
  rcases h with h | h
  · exact located_of_analyze (eq_error_of_map h)
  · exact located_of_analyze (eq_error_of_map h)

theorem errors_located_arity :
    let source := "\x7b\x7bQty\x7d\x7d & '\n' &\u00a0aBs(1, -2) + ABS('x')"
    let err : CompileError := .parse ⟨.wrongArity "ABS" (.exact 1) 2, 16⟩
    compile .empty 64 .script source = .error err ∧ err.Located source := by
  intro source err
  have herr : compile .empty 64 .script source = .error err := by
    decide +kernel
  exact ⟨herr, errors_located .empty 64 .script source err (.inr herr)⟩

end FieldFormula
