import FieldFormula.Proofs.Compilation.Locations
import FieldFormula.Proofs.Parser.Alignment

/-!
The layout of a source has no meaning, and neither has the case of its names. Main statement: when
the tokens of a source are written down again, with other blanks between them and other cases, both
sources have the same type and texts, or the same error at the same token (`layout_irrelevant`).
-/
namespace FieldFormula

inductive CompileError.Alike : CompileError → CompileError → Prop where
  | parse {e e' : ParseError} : e.cause.Alike e'.cause → Alike (.parse e) (.parse e')
  | type {e e' : TypeError} : e.cause = e'.cause → Alike (.type e) (.type e')

def SameToken (ts us : List Token) (position position' : Nat) : Prop :=
  ∃ (i : Nat) (t u : Token), ts[i]? = some t ∧ us[i]? = some u ∧ position = t.position ∧
    position' = u.position

/-- The answers for two sources with the tokens `ts` and `us`: the same value, or errors of one
variant at the same token. -/
def Corresponds {α : Type} (ts us : List Token) :
    Except CompileError α → Except CompileError α → Prop
  | .ok a, .ok b => a = b
  | .error err, .error err' => err.Alike err' ∧ SameToken ts us err.position err'.position
  | _, _ => False

def placeOf (ts us : List Token) (position : Nat) : Nat :=
  (((ts.map Token.position).zip (us.map Token.position)).lookup position).getD 0

section
variable {ts us : List Token}

theorem abreast_placeOf (h : List.Forall₂ (fun t u => t.kind.Alike u.kind) ts us)
    (hnodup : (ts.map Token.position).Nodup) : Parser.Abreast (placeOf ts us) ts us := by
  induction h with
  | nil => exact .nil
  | @cons t u ts us hkind _ ih =>
    obtain ⟨hne, hnodup⟩ := List.nodup_cons.1 hnodup
    refine .cons ⟨hkind, ?_⟩ ?_
    · simp [placeOf]
    · have hothers : ∀ v ∈ ts,
          placeOf (t :: ts) (u :: us) v.position = placeOf ts us v.position := by
        intro v hv
        have hkey : (v.position == t.position) = false :=
          beq_false_of_ne fun heq => hne (heq ▸ List.mem_map_of_mem hv)
        simp [placeOf, List.lookup_cons, hkey]
      refine ((List.forall₂_and_left ts us).2 ⟨hothers, ih hnodup⟩).imp ?_
      rintro v w ⟨heq, hlike, hposition⟩
      exact ⟨hlike, hposition.trans heq.symm⟩

theorem sameToken_of_mem {place : Nat → Nat} (h : Parser.Abreast place ts us) {t : Token}
    (ht : t ∈ ts) : SameToken ts us t.position (place t.position) := by
  induction h with
  | nil => cases ht
  | @cons first u ts us hfirst _ ih =>
    rcases List.mem_cons.1 ht with rfl | ht
    · exact ⟨0, t, u, rfl, rfl, rfl, hfirst.2.symm⟩
    · obtain ⟨i, v, w, hv, hw, hposition⟩ := ih ht
      exact ⟨i + 1, v, w, hv, hw, hposition⟩

variable {schema : Schema} {limit : Nat} {place : Nat → Nat}

theorem beside_ofTokens (limit : Nat) (h : Parser.Abreast place ts us)
    (hts : ts.getLast?.map Token.kind = some .eof) (hus : us.getLast?.map Token.kind = some .eof) :
    Parser.Beside ⟨0, place⟩ (Parser.Abreast place) (.ofTokens limit ts) (.ofTokens limit us) := by
  refine ⟨?_, ?_, ?_, ?_, Parser.closed_ofTokens limit ts, Parser.closed_ofTokens limit us⟩
  · rwa [Parser.remaining_ofTokens_of_eof hts, Parser.remaining_ofTokens_of_eof hus]
  all_goals cases h <;> rfl

theorem parse_abreast (limit : Nat) (h : Parser.Abreast place ts us)
    (hts : ts.getLast?.map Token.kind = some .eof) (hus : us.getLast?.map Token.kind = some .eof) :
    (∃ e, parseTokens limit ts = .ok e ∧
      parseTokens limit us = .ok (e.remark (Shift.mark ⟨0, place⟩))) ∨
    ∃ err err', parseTokens limit ts = .error err ∧ parseTokens limit us = .error err' ∧
      err.Moves place err' := by
  have horigin : (Parser.ofTokens limit us).origin = place (Parser.ofTokens limit ts).origin := by
    cases h with
    | nil => cases hts
    | cons hfirst _ => exact hfirst.2
  have hagree := Parser.agree_formula (beside_ofTokens limit h hts hus) horigin
  unfold parseTokens
  generalize Parser.formula (.ofTokens limit ts) = x at hagree ⊢
  generalize Parser.formula (.ofTokens limit us) = x' at hagree ⊢
  cases hagree with
  | ok hremark _ => exact .inl ⟨_, rfl, congrArg Except.ok hremark⟩
  | error herr => exact .inr ⟨_, _, rfl, rfl, herr⟩

theorem infer_remark (schema : Schema) (place : Nat → Nat) (e : Expr) :
    (∃ t types types', Typing.infer schema e = .ok (t, types) ∧
      Typing.infer schema (e.remark (Shift.mark ⟨0, place⟩)) = .ok (t, types') ∧
      ∀ target : Target, target.generate types' (e.remark (Shift.mark ⟨0, place⟩)) =
        target.generate types e) ∨
    ∃ err, Typing.infer schema e = .error err ∧
      Typing.infer schema (e.remark (Shift.mark ⟨0, place⟩)) =
        .error (Shift.typeError ⟨0, place⟩ err) := by
  cases hinfer : Typing.infer schema e with
  | ok x =>
    obtain ⟨t, types⟩ := x
    obtain ⟨types', hresolve, hentries⟩ :=
      Typing.resolve_remark_of_infer hinfer ⟨0, place⟩ .empty
    refine .inl ⟨t, types, types', rfl, Typing.infer_eq_ok_iff_resolve.2 hresolve, fun target => ?_⟩
    have hfirst : types'.entries = [] ++
        (Shift.entries ⟨0, place⟩ types.entries ++ TypeTable.empty.entries) := hentries
    exact generate_remark (Typing.keeps_among hinfer hfirst fun _ _ => List.not_mem_nil) target
  | error err =>
    exact .inr ⟨err, rfl, Typing.infer_eq_error_iff_resolve.2
      (Typing.resolve_remark_of_infer_error hinfer ⟨0, place⟩ .empty)⟩

theorem analyze_abreast (schema : Schema) (limit : Nat) (h : Parser.Abreast place ts us)
    (hts : ts.getLast?.map Token.kind = some .eof) (hus : us.getLast?.map Token.kind = some .eof) :
    (∃ e e' t types types', analyzeTokens schema limit ts = .ok (e, t, types) ∧
      analyzeTokens schema limit us = .ok (e', t, types') ∧
      ∀ target : Target, target.generate types' e' = target.generate types e) ∨
    ∃ err err', analyzeTokens schema limit ts = .error err ∧
      analyzeTokens schema limit us = .error err' ∧ err.Alike err' ∧
      SameToken ts us err.position err'.position := by
  rcases parse_abreast limit h hts hus with ⟨e, he, he'⟩ | ⟨err, err', herr, herr', hcause, hplace⟩
  · rcases infer_remark schema place e with ⟨t, types, types', hx, hx', htexts⟩ | ⟨err, hx, hx'⟩
    · exact .inl ⟨e, _, t, types, types', analyzeTokens_eq_ok.2 ⟨he, hx⟩,
        analyzeTokens_eq_ok.2 ⟨he', hx'⟩, htexts⟩
    · obtain ⟨t, ht, hposition, -⟩ := onToken_of_infer hts he hx
      have hsame := sameToken_of_mem h ht
      rw [hposition] at hsame
      exact .inr ⟨.type err, _, analyzeTokens_eq_error.2 (.inr ⟨e, err, he, hx, rfl⟩),
        analyzeTokens_eq_error.2 (.inr ⟨_, _, he', hx', rfl⟩), .type rfl, hsame⟩
  · obtain ⟨t, ht, hposition, -⟩ := blamed_of_parseTokens hts herr
    have hsame := sameToken_of_mem h ht
    rw [hposition, ← hplace] at hsame
    exact .inr ⟨.parse err, .parse err', analyzeTokens_eq_error.2 (.inl ⟨err, herr, rfl⟩),
      analyzeTokens_eq_error.2 (.inl ⟨err', herr', rfl⟩), .parse hcause, hsame⟩

end

/-- Neither blanks nor the case of names have a meaning. When the tokens of a source are written
down again, both sources have one type and one text in either target, or they fail with errors of
one variant, reported at the same token of either source. -/
theorem layout_irrelevant (source source' : String) (ts : List Token)
    (h : tokenize source = .ok ts) (hrelaid : Relaid ts source'.toList) :
    ∃ us, tokenize source' = .ok us ∧ ∀ schema limit,
      Corresponds ts us (check schema limit source) (check schema limit source') ∧
      ∀ target, Corresponds ts us (compile schema limit target source)
        (compile schema limit target source') := by
  obtain ⟨us, hscanned, hkinds⟩ := (tokenize_eq_ok_iff.1 h).relaid hrelaid 0
  have hus := tokenize_eq_ok_iff.2 hscanned
  have hscanned : Scanned 0 source.toList ts := Scanner.scanned_of_tokens h
  have habreast := abreast_placeOf hkinds hscanned.nodup_positions
  refine ⟨us, hus, fun schema limit => ?_⟩
  have hanalyze := analyze_abreast schema limit habreast (getLast?_of_tokenize h)
    (getLast?_of_tokenize hus)
  rw [← analyze_of_tokenize h, ← analyze_of_tokenize hus] at hanalyze
  simp only [check_eq_map, compile_eq_map]
  rcases hanalyze with ⟨e, e', t, types, types', hx, hx', htexts⟩ | ⟨err, err', hx, hx', hsame⟩
  · rw [hx, hx']
    exact ⟨rfl, fun target => (htexts target).symm⟩
  · rw [hx, hx']
    exact ⟨hsame, fun _ => hsame⟩

theorem layout_irrelevant_respelled :
    let source := "iF(1<2,tRim(' aB')&'X',nuLL)"
    let source' := "\n If\t( 1 < 2 ,\u3000TRIM ( ' aB' )\n\n& 'X' , NULL )"
    ∃ ts us, tokenize source = .ok ts ∧ Relaid ts source'.toList ∧ tokenize source' = .ok us ∧
      compile .empty 64 .sql source =
        .ok "CASE WHEN 1 < 2 THEN CONCAT(TRIM(' aB'), 'X') ELSE NULL END" ∧
      compile .empty 64 .sql source' = compile .empty 64 .sql source := by
  intro source source'
  let gaps := ["\n ", "\t", " ", " ", " ", " ", "\u3000", " ", " ", " ", "\n\n", " ", " ", " ", " ",
    ""]
  let words := ["If", "(", "1", "<", "2", ",", "TRIM", "(", "' aB'", ")", "&", "'X'", ",", "NULL",
    ")", ""]
  obtain ⟨ts, hts, hrelaid⟩ : ∃ ts, tokenize source = .ok ts ∧ Relaid ts source'.toList := by
    have hwords := Parser.exists_ok (x := tokenize source) (P := fun ts =>
      (gaps.map String.toList).length = ts.length ∧
        (∀ gap ∈ gaps.map String.toList, gap.all Text.isBlank = true) ∧
        (∀ gap ∈ (gaps.map String.toList).tail.dropLast, gap ≠ []) ∧
        List.Forall₂ Token.Respelled ts (words.map String.toList) ∧
        source'.toList =
          (List.zipWith (· ++ ·) (gaps.map String.toList) (words.map String.toList)).flatten)
      (by decide +kernel)
    obtain ⟨ts, hts, hwords⟩ := hwords
    exact ⟨ts, hts, _, _, hwords⟩
  obtain ⟨us, hus, hsame⟩ := layout_irrelevant source source' ts hts hrelaid
  have htext : compile .empty 64 .sql source =
      .ok "CASE WHEN 1 < 2 THEN CONCAT(TRIM(' aB'), 'X') ELSE NULL END" := by
    decide +kernel
  refine ⟨ts, us, hts, hrelaid, hus, htext, ?_⟩
  have hcompile := (hsame .empty 64).2 .sql
  rw [htext] at hcompile ⊢
  generalize compile .empty 64 .sql source' = answer at hcompile ⊢
  cases answer with
  | ok text => exact congrArg Except.ok hcompile.symm
  | error err => exact hcompile.elim

end FieldFormula
