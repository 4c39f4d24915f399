import FieldFormula.Proofs.Output.Composition
import FieldFormula.Proofs.Parser.Precedence
import FieldFormula.Proofs.Parser.Printing
import FieldFormula.Proofs.Reading.Scanning

/-!
Generated text is closed: literals and brackets end within it, it holds no comment, and its only
semicolons are those between statements. Main statements: the text of every expression that a parser
gives is scanned to its end in either target, whatever the types and whatever the strings, dates and
field names (`sealed_sql`, `sealed_script`).
-/
namespace FieldFormula
namespace Output

section Number
variable {target : Target} {c : Char} {cs : List Char}

theorem outside_digit (h : c.isDigit = true ∨ c = '.') :
    outside target c = (.plain, .nothing) := by
  have hquote : isQuote target c = false := by
    have hne : c ≠ '\'' ∧ c ≠ '"' ∧ c ≠ '\x60' := by
      refine ⟨?_, ?_, ?_⟩ <;> rintro rfl <;> exact absurd h (by decide)
    simp [isQuote, hne]
  unfold outside
  rw [hquote, if_neg (by decide)]
  split <;> first | rfl | exact absurd h (by decide)

theorem foldlM_digits (h : ∀ c ∈ cs, c.isDigit = true ∨ c = '.') :
    cs.foldlM (Scan.next target) .start = some .start := by
  induction cs with
  | nil => rfl
  | cons c cs ih =>
    obtain ⟨hc, hcs⟩ := List.forall_mem_cons.1 h
    have hnext : Scan.next target .start c = some .start := by
      rw [Scan.next, Scan.start, move, outside_digit hc]
      rfl
    rw [List.foldlM_cons, hnext]
    exact ih hcs

theorem closed_unsigned {d : Decimal} (h : d.negative = false) :
    Closed target d.toText ∧ d.toText.toList.head? ≠ some '-' := by
  obtain ⟨whole, fraction, hchars, hne, hwhole, hfraction, -, -⟩ := Decimal.toChars_eq h
  rw [List.all_eq_true] at hwhole hfraction
  have hdigits : ∀ c ∈ d.toChars, c.isDigit = true ∨ c = '.' := by
    rw [hchars]
    grind
  rw [Decimal.toText]
  refine ⟨⟨?_, ?_⟩, fun hminus => ?_⟩
  · rw [hchars]
    split <;> simp [hne]
  · rw [reach, scan, String.toList_ofList, foldlM_digits hdigits]
    rfl
  · rw [String.toList_ofList] at hminus
    exact absurd (hdigits '-' (List.mem_of_mem_head? hminus)) (by decide)

theorem closed_number (d : Decimal) : Closed target d.toText := by
  obtain ⟨hclosed, hhead⟩ := closed_unsigned (d := { d with negative := false }) rfl
  by_cases hsign : (d.negative && d.mantissa != 0) = true
  · have htext : d.toText = "-" ++ Decimal.toText { d with negative := false } := by
      rw [Decimal.toText, Decimal.toChars, if_pos hsign, String.ofList_cons]
      rfl
    rw [htext]
    exact hclosed.minus hhead
  · have htext : d.toText = Decimal.toText { d with negative := false } := by
      rw [Decimal.toText, Decimal.toChars, if_neg hsign]
      rfl
    rw [htext]
    exact hclosed

end Number

def variants : Template → List (List Piece)
  | .plain pieces => [pieces]
  | .optional _ absent present => [absent, present]

theorem pieces_mem_variants (t : Template) (count : Nat) : t.pieces count ∈ variants t := by
  cases t with
  | plain pieces => exact List.mem_singleton_self _
  | optional index absent present =>
    rw [Template.pieces]
    split <;> simp [variants]

theorem builtins_scan_well : [Target.sql, .script].all (fun target =>
    Builtin.all.all fun f => (variants (template target f)).all (scansWell target)) = true := by
  decide +kernel

theorem scansWell_builtin (target : Target) {f : Builtin} (hf : f ∈ Builtin.all) (count : Nat) :
    scansWell target ((template target f).pieces count) = true := by
  have htarget : target ∈ [Target.sql, .script] := by cases target <;> decide
  have hall := List.all_eq_true.1 (List.all_eq_true.1 builtins_scan_well target htarget) f hf
  exact List.all_eq_true.1 hall _ (pieces_mem_variants ..)

theorem closed_ofLiteral_sql (value : Literal) : Closed .sql (Sql.ofLiteral value).render := by
  cases value with
  | text s => exact closed_sqlQuote s
  | number d => exact closed_number d
  | boolean b => cases b <;> decide
  | date s =>
    have hpieces : scansWell .sql [0, "::timestamp"] = true := rfl
    rw [Sql.ofLiteral, Sql.render_eq_filled]
    exact .filled hpieces (List.forall_mem_singleton.2 (closed_sqlQuote s))
  | null => decide

theorem closed_ofLiteral_script (value : Literal) :
    Closed .script (Script.ofLiteral value).render := by
  cases value with
  | text s => exact closed_scriptQuote s
  | number d => exact closed_number d
  | boolean b => cases b <;> decide
  | date s =>
    have hP := compositional_closed .script
    have hinstant := Script.compose_instant (F := fun _ => .text s) hP (closed_scriptQuote s)
    exact Script.compose_isoText (F := fun _ => .instant (.text s)) hP hinstant
  | null => decide

section
variable {target : Target} {types : TypeTable} {m : Mark} {e : Expr}

theorem closed_field (name : String) : Closed target (target.generate types (.field m name)) := by
  cases target with
  | sql =>
    have hzero (t : ValueType) : Closed .sql (Sql.zero t) := by cases t <;> decide
    change Closed .sql (Sql.field name (Sql.zero _)).render
    rw [Sql.render_eq_filled]
    exact .filled rfl (by simp [Sql.parts, closed_sqlQuote, hzero])
  | script =>
    have hzero (t : ValueType) : Closed .script (Script.zero t) := by cases t <;> decide
    change Closed .script (Script.field name (Script.zero _)).render
    rw [Script.render_eq_filled]
    exact .filled rfl (by simp [Script.parts, closed_quoteKey, hzero])

theorem closed_negate (h : Closed target (target.generate types e)) :
    Closed target (target.generate types (.unary m .negate e)) := by
  have hgroup : Closed target (target.generate types (.group m e)) :=
    (compositional_closed target).group (g := fun _ => e) h
  rw [generate_negate]
  split
  · exact hgroup.minus (by simp [generate_group, Piece.filled, Piece.fill])
  · rename_i hhead
    exact h.minus hhead

end

theorem closed_generate (target : Target) (types : TypeTable) {e : Expr}
    (h : e.All Expr.Placed) : Closed target (target.generate types e) := by
  have hP := compositional_closed target
  induction e with
  | literal m value =>
    cases target with
    | sql => exact closed_ofLiteral_sql value
    | script => exact closed_ofLiteral_script value
  | field m name => exact closed_field name
  | binary m op left right ihl ihr =>
    simp only [Expr.all_binary] at h
    exact hP.binary (l := fun _ => left) (r := fun _ => right) op (fun _ => .refl left)
      (fun _ => .refl right) (ihl h.1) (ihr h.2.1)
  | unary m op inner ih =>
    simp only [Expr.all_unary] at h
    cases op with
    | negate => exact closed_negate (ih h.1)
    | not => exact hP.not (g := fun _ => inner) (fun _ => rfl) (ih h.1)
  | group m inner ih =>
    simp only [Expr.all_group] at h
    exact hP.group (g := fun _ => inner) (ih h.1)
  | conditional m condition yes no ihc ihy ihn =>
    simp only [Expr.all_conditional] at h
    exact hP.conditional (c := fun _ => condition) (y := fun _ => yes) (n := fun _ => no)
      (ihc h.1) (ihy h.2.1) (ihn h.2.2.1)
  | call m name args ih =>
    simp only [Expr.all_call] at h
    obtain ⟨hargs, f, hf, rfl, -⟩ := h
    have hfind := Builtin.find?_of_upper hf (Builtin.upper_name hf)
    rw [generate_call, hfind, Option.elim_some]
    refine .filled (scansWell_builtin target hf _) (List.forall_mem_map.2 fun e he => ?_)
    exact ih e he (hargs e he)
  | sequence m items ih => exact absurd h.root not_false

/-- Only the statements of a formula are told apart by semicolons. -/
theorem reach_generate (target : Target) (types : TypeTable) {e : Expr}
    (h : ∀ s ∈ e.statements, s.All Expr.Placed) :
    reach target .start (target.generate types e) =
      some ⟨.plain, [], e.statements.length - 1⟩ := by
  cases e with
  | sequence m items =>
    have hsep : reach target .start "; " = some ⟨.plain, [], 1⟩ := by cases target <;> rfl
    have hitems : ∀ x ∈ items.map (target.generate types), Closed target x :=
      List.forall_mem_map.2 fun s hs => closed_generate target types (h s hs)
    rw [generate_sequence, reach_intercalate hsep hitems rfl]
    simp [Scan.start, Expr.statements]
  | _ => exact (closed_generate target types (h _ (List.mem_singleton_self _))).reach

theorem sealed_sql {e : Expr} (h : Parser.Yields e) (types : TypeTable) :
    Sealed .sql (Target.sql.generate types e) (e.statements.length - 1) :=
  sealed_of_reach (reach_generate .sql types h.placed)

/-- A second minus sign, and the marks of comments, brackets and literals in a string and in the
name of a field -/
theorem sealed_sql_marks :
    ∃ e, parse 32 "- -1; \"it's -- /* ([;\" & \x7b\x7b;')]'--\x7d\x7d" = .ok e ∧
      e.statements.length = 2 ∧ ∀ types, Sealed .sql (Target.sql.generate types e) 1 := by
  refine (Parser.exists_ok (P := fun e => e.statements.length = 2) (by decide +kernel)).imp
    fun e he => ⟨he.1, he.2, fun types => ?_⟩
  have hsealed := sealed_sql (Parser.yields_of_parse he.1) types
  rwa [he.2] at hsealed

theorem sealed_script {e : Expr} (h : Parser.Yields e) (types : TypeTable) :
    Sealed .script (Target.script.generate types e) (e.statements.length - 1) :=
  sealed_of_reach (reach_generate .script types h.placed)

/-- Templates within templates, and the marks of literals and holes in a string and in the name of
a field -/
theorem sealed_script_templates :
    ∃ e, parse 32 "- -1; \"\x60$\x7b // \\\" \" & ('\n--' & \x7b\x7b\\'\x60$;\x7d\x7d)" = .ok e ∧
      e.statements.length = 2 ∧ ∀ types, Sealed .script (Target.script.generate types e) 1 := by
  refine (Parser.exists_ok (P := fun e => e.statements.length = 2) (by decide +kernel)).imp
    fun e he => ⟨he.1, he.2, fun types => ?_⟩
  have hsealed := sealed_script (Parser.yields_of_parse he.1) types
  rwa [he.2] at hsealed

end Output

end FieldFormula
