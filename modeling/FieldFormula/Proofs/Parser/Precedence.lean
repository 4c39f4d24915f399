import FieldFormula.Proofs.Expr.Comparison
import FieldFormula.Proofs.Parser.Consumption

/-!
What precedence a parsed expression has. A run stops at an operator too loose for it, or at a
comparison behind a comparison. The latter is what an enclosing `&&` or `||` goes on with, so
chained comparisons are the only nodes against the table. Main statement: a formula obeys the table
exactly when its tokens hold no two comparisons in a row (`obeys_iff_not_chains`).
-/
namespace FieldFormula

namespace Expr

def Yielded (n : Expr) : Prop := (n.Obeys ∨ n.Chained) ∧ n.Placed

end Expr

theorem BinaryOp.strength_le (op : BinaryOp) : op.strength ≤ 7 := by
  cases op <;> decide

namespace Parser

def Stops (least : Nat) (e : Expr) (kind : Token.Kind) : Prop := ∀ op, kind = .operator op →
  op.strength < least ∨ e.isComparison = true ∧ op.isComparison = true

/-- The operator behind `left` may take it as its left operand, or chains comparisons by that. -/
def Links (left : Expr) (kind : Token.Kind) : Prop := ∀ op, kind = .operator op →
  op.strength ≤ left.strength ∨ op.isComparison = true ∧ left.JoinsComparison

def Phrase.Graded (p q : Parser) : Phrase → Prop
  | binary least e =>
    e.All Expr.Yielded ∧ min least 8 ≤ e.strength ∧ Stops least e q.current.kind
  | chain least left _ compared e =>
    left.All Expr.Yielded → min least 8 ≤ left.strength → compared = left.isComparison →
    Links left p.current.kind →
    e.All Expr.Yielded ∧ min least 8 ≤ e.strength ∧ Stops least e q.current.kind
  | unary e | primary e | call _ _ e => e.All Expr.Yielded ∧ e.strength = 8
  | arguments es | argumentsFrom es => ∀ e ∈ es, e.All Expr.Yielded

theorem kind_of_strength {e : Expr} (h : e.strength = 8) : e.isComparison = false := by
  cases e with
  | binary _ op _ _ =>
    have hop := op.strength_le
    rw [Expr.strength_binary] at h
    omega
  | _ => rfl

theorem links_of_strength {e : Expr} (h : e.strength = 8) (kind : Token.Kind) : Links e kind :=
  fun op _ => .inl (by have := op.strength_le; omega)

/-- The operator `op` has just read `right`: what it makes of `left` and `right` is as every parsed
node, and the next operator links to it. -/
theorem link_yielded {left right : Expr} {op : BinaryOp} {kind : Token.Kind} {compared : Bool}
    (m : Mark) (hl : Links left (.operator op)) (hc : compared = left.isComparison)
    (hcmp : op.isComparison = true → compared = false)
    (hr : min (op.strength + 1) 8 ≤ right.strength) (hs : Stops (op.strength + 1) right kind) :
    (Expr.binary m op left right).Yielded ∧ Links (.binary m op left right) kind := by
  have hop := op.strength_le
  have hlt : op.strength < right.strength := by omega
  refine ⟨⟨?_, trivial⟩, fun next hnext => ?_⟩
  · rcases hl op rfl with hle | ⟨hcomp, hjoin⟩
    · refine .inl ⟨hle, fun hcomp => ?_, hlt⟩
      have hne : left.strength ≠ 3 := fun h => by
        rw [← Expr.isComparison_iff, ← hc, hcmp hcomp] at h
        cases h
      have hthree := Expr.comparison_iff.1 hcomp
      omega
    · exact .inr ⟨hcomp, hjoin, hlt⟩
  · rw [Expr.strength_binary]
    rcases hs next hnext with hle | ⟨hright, hcomp⟩
    · exact .inl (by omega)
    · have hthree := Expr.isComparison_iff.1 hright
      exact .inr ⟨hcomp, by omega, hright⟩

theorem Run.graded {p q : Parser} {s : Phrase} (h : Run p s q) : s.Graded p q := by
  induction h with
  | binary _ _ ih₁ ih₂ =>
    obtain ⟨hl, hs⟩ := ih₁
    exact ih₂ hl (by omega) (kind_of_strength hs).symm (links_of_strength hs _)
  | chainEnd hop =>
    intro hl hs hc _
    refine ⟨hl, hs, fun op hk => ?_⟩
    rw [← hc]
    exact infixOp?_eq_none_iff.1 hop op hk
  | @chainLink _ q _ _ _ _ _ _ _ op hop _ _ _ ih₁ ih₂ =>
    intro hl hs hc hlinks
    -- what stopped the right operand, a looser operator or a second comparison, is met next
    obtain ⟨hk, hle, hcmp⟩ := infixOp?_eq_some_iff.1 hop
    obtain ⟨hr, hrs, hstop⟩ := ih₁
    obtain ⟨hnode, hnext⟩ := link_yielded (q.markAt _) (hk ▸ hlinks) hc hcmp hrs hstop
    refine ih₂ (Expr.all_binary.2 ⟨hl, hr, hnode⟩) ?_ rfl hnext
    rw [Expr.strength_binary]
    omega
  | unaryPrimary _ _ ih => exact ih
  | unaryOperator _ _ _ ih =>
    obtain ⟨ho, hs⟩ := ih
    exact ⟨Expr.all_unary.2 ⟨ho, .inl hs, trivial⟩, rfl⟩
  | literal _ => exact ⟨Expr.all_literal.2 ⟨.inl trivial, trivial⟩, rfl⟩
  | field _ => exact ⟨Expr.all_field.2 ⟨.inl trivial, trivial⟩, rfl⟩
  | group _ _ _ _ ih => exact ⟨Expr.all_group.2 ⟨ih.1, .inl trivial, trivial⟩, rfl⟩
  | conditional _ _ _ _ _ _ _ _ _ ih₁ ih₂ ih₃ =>
    exact ⟨Expr.all_conditional.2 ⟨ih₁.1, ih₂.1, ih₃.1, .inl trivial, trivial⟩, rfl⟩
  | identifier _ _ ih => exact ih
  | call _ hf _ _ _ hn ih =>
    obtain ⟨hmem, -⟩ := Builtin.mem_of_find? hf
    exact ⟨Expr.all_call.2 ⟨ih, .inl trivial, _, hmem, rfl, hn⟩, rfl⟩
  | noArguments _ => exact fun e he => absurd he List.not_mem_nil
  | someArguments _ _ ih => exact ih
  | lastArgument _ _ ih => exact List.forall_mem_singleton.2 ih.1
  | nextArgument _ _ _ ih₁ ih₂ => exact List.forall_mem_cons.2 ⟨ih₁.1, ih₂⟩

theorem Statements.yielded {p q : Parser} {es : List Expr} (h : Statements p es q) :
    ∀ e ∈ es, e.All Expr.Yielded := by
  induction h with
  | last he _ => exact List.forall_mem_singleton.2 he.graded.1
  | closed he _ _ => exact List.forall_mem_singleton.2 he.graded.1
  | next he _ _ _ ih => exact List.forall_mem_cons.2 ⟨he.graded.1, ih⟩

/-- Some parser gives the expression, as the next one or as a whole formula. Its tokens need not be
those of a source. -/
def Yields (e : Expr) : Prop := ∃ p q, expression p = .ok e q ∨ formula p = .ok e q

theorem yields_of_parse {limit : Nat} {source : String} {e : Expr}
    (h : parse limit source = .ok e) : Yields e := by
  rw [parse] at h
  cases htokens : tokenize source with
  | error err =>
    rw [htokens] at h
    cases h
  | ok tokens =>
    rw [htokens] at h
    change (parseTokens limit tokens).mapError CompileError.parse = .ok e at h
    rw [parseTokens] at h
    cases hformula : formula (.ofTokens limit tokens) with
    | ok e' q =>
      rw [hformula] at h
      cases h
      exact ⟨_, q, .inr hformula⟩
    | error err q =>
      rw [hformula] at h
      cases h

theorem Yields.yielded {e : Expr} (h : Yields e) : ∀ s ∈ e.statements, s.All Expr.Yielded := by
  obtain ⟨p, q, hexpression | hformula⟩ := h
  · have hyielded := (run_of_expression hexpression).graded.1
    rw [Expr.statements_of_placed hyielded.root.2]
    exact List.forall_mem_singleton.2 hyielded
  · obtain ⟨items, r, hstatements, -, hitems⟩ := run_of_formula hformula
    have hyielded := hstatements.yielded
    rcases hitems with ⟨rfl, -⟩ | ⟨-, rfl, -⟩
    · rw [Expr.statements_of_placed (hyielded _ (List.mem_singleton_self _)).root.2]
      exact hyielded
    · exact hyielded

theorem Yields.placed {e : Expr} (h : Yields e) : ∀ s ∈ e.statements, s.All Expr.Placed :=
  fun s hs => (Expr.all_and.1 (h.yielded s hs)).2

theorem Yields.obeys_or_chained {e : Expr} (h : Yields e) :
    e.All fun n => n.Obeys ∨ n.Chained := by
  have hstatements : ∀ s ∈ e.statements, s.All fun n => n.Obeys ∨ n.Chained :=
    fun s hs => (Expr.all_and.1 (h.yielded s hs)).1
  cases e with
  | sequence m items => exact Expr.all_sequence.2 ⟨hstatements, .inl trivial⟩
  | _ => exact hstatements _ (List.mem_singleton_self _)

end Parser

namespace Token

theorem chains_canonical (seen : Bool) (outer : List Bool) (kinds : List Kind) :
    chains seen outer (kinds.map Kind.canonical) = chains seen outer kinds := by
  induction kinds generalizing seen outer with
  | nil => rfl
  | cons kind kinds ih =>
    cases kind <;> simp only [List.map_cons, Kind.canonical, chains, ih]

theorem chains_append_eof (seen : Bool) (outer : List Bool) (kinds : List Kind) :
    chains seen outer (kinds ++ [.eof]) = chains seen outer kinds := by
  induction kinds generalizing seen outer with
  | nil => rfl
  | cons kind kinds ih =>
    rw [List.cons_append]
    cases kind <;> simp [chains, ih]

end Token

namespace Parser

theorem chains_ofTokens (limit : Nat) (tokens : List Token) :
    Token.chains false [] (ofTokens limit tokens).kinds =
      Token.chains false [] (tokens.map Token.kind) := by
  obtain ⟨tail, hrest, htail⟩ := remaining_ofTokens limit tokens
  rw [kinds, Token.chains_canonical, hrest, List.map_append]
  rcases htail with rfl | htail
  · rw [List.map_nil, List.append_nil]
  · rw [htail, Token.chains_append_eof]

theorem Statements.chains {p q : Parser} {es : List Expr} (h : Statements p es q)
    (hp : p.Closed) (hq : q.current.kind = .eof) :
    Token.chains false [] p.kinds = false ↔ ∀ e ∈ es, e.All Expr.Obeys := by
  have hyield := h.yielded
  obtain ⟨-, tail, htail, hkinds⟩ := h.spells hp
  have hend (b : Bool) : Token.chains b [] (tail ++ q.kinds) = false := by
    have hhead : q.kinds = .eof :: (q.ahead.map Token.kind).map Token.Kind.canonical := by
      simp [kinds, remaining, hq, Token.Kind.canonical]
    rcases htail with rfl | rfl <;> rw [hhead] <;> rfl
  have hitems : ∀ e ∈ es, e.All Expr.Obeys ∧ e.Passed ∨ ¬ e.All Expr.Obeys ∧ e.Caught :=
    fun e he => Expr.passed_or_caught (Expr.all_and.1 (hyield e he)).1
      (Expr.all_and.1 (hyield e he)).2
  rw [hkinds]
  constructor
  · intro hfalse e he
    rcases hitems e he with ⟨hobeys, -⟩ | ⟨-, hcaught⟩
    · exact hobeys
    · have htrue := Expr.chains_kindsOf_caught (.inr rfl)
        (fun e he => (hitems e he).imp And.right And.right) ⟨e, he, hcaught⟩ false []
        (tail ++ q.kinds)
      rw [hfalse] at htrue
      cases htrue
  · intro hobeys
    have hpass : ∀ e ∈ es, e.Passed := fun e he =>
      (hitems e he).elim And.right fun h => absurd (hobeys e he) h.1
    obtain ⟨b, hb⟩ := Expr.chains_kindsOf (.inr rfl) hpass [] (tail ++ q.kinds)
    rw [hb, hend]

/-- Every node of a parsed formula obeys the table of precedence or chains comparisons, and all obey
it exactly when no two comparisons stand in a row within the same parentheses. -/
theorem obeys_iff_not_chains {limit : Nat} {tokens : List Token} {e : Expr}
    (h : parseTokens limit tokens = .ok e) :
    e.All (fun n => n.Obeys ∨ n.Chained) ∧
      (e.All Expr.Obeys ↔ Token.chains false [] (tokens.map Token.kind) = false) := by
  obtain ⟨items, q, hs, hq, hitems⟩ := parseTokens_eq_ok_iff.1 h
  have hchains := hs.chains (closed_ofTokens limit tokens) hq
  have hyield : ∀ s ∈ items, s.All (fun n => n.Obeys ∨ n.Chained) :=
    fun s hmem => (Expr.all_and.1 (hs.yielded s hmem)).1
  rw [chains_ofTokens] at hchains
  rw [hchains]
  rcases hitems with rfl | ⟨-, rfl⟩
  · exact ⟨hyield e (List.mem_singleton_self e), by simp⟩
  · exact ⟨Expr.all_sequence.2 ⟨hyield, .inl trivial⟩, by simp [Expr.Obeys]⟩

/-- `(1 < 2) == true && 3 < 4` -/
theorem obeys_grouped_comparison :
    ∃ e, parseTokens 64 (([.leftParen, .literal (.number (.ofDigit 1)), .operator .less,
      .literal (.number (.ofDigit 2)), .rightParen, .operator .equal, .literal (.boolean true),
      .operator .and, .literal (.number (.ofDigit 3)), .operator .less,
      .literal (.number (.ofDigit 4))] : List Token.Kind).map fun kind => ⟨kind, "", 0⟩) = .ok e ∧
      e.All Expr.Obeys := by
  refine (exists_ok (P := fun _ => True) ?_).imp fun e he =>
    ⟨he.1, (obeys_iff_not_chains he.1).2.2 (by decide)⟩
  decide +kernel

/-- `true && 1 == 1 == true` is read as `(true && 1 == 1) == true`. -/
theorem comparison_chains_behind_and :
    ∃ e, parseTokens 64 (([.literal (.boolean true), .operator .and,
      .literal (.number (.ofDigit 1)), .operator .equal, .literal (.number (.ofDigit 1)),
      .operator .equal, .literal (.boolean true)] : List Token.Kind).map
        fun kind => ⟨kind, "", 0⟩) = .ok e ∧ ¬ e.All Expr.Obeys :=
  exists_ok (by decide +kernel)

end Parser
end FieldFormula
