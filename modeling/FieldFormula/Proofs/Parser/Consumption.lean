import FieldFormula.Proofs.Expr.Grammar
import FieldFormula.Proofs.Parser.Run

/-!
The tokens that a run reads. Main statement: between where a run starts and where it ends stand
exactly the tokens that the expression is written with, function names in capitals
(`Run.spells`, `Statements.spells`).
-/
namespace FieldFormula

def Token.Kind.canonical : Token.Kind → Token.Kind
  | .identifier name => .identifier (Text.upper name)
  | kind => kind

theorem Builtin.mem_of_find? {name : String} {f : Builtin} (h : Builtin.find? name = some f) :
    f ∈ Builtin.all ∧ f.name = Text.upper name := by
  refine ⟨List.mem_of_find?_eq_some h, ?_⟩
  have hname := List.find?_some h
  simpa using hname

namespace Parser

def kinds (p : Parser) : List Token.Kind :=
  (p.remaining.map Token.kind).map Token.Kind.canonical

theorem remaining_ofTokens (limit : Nat) (tokens : List Token) :
    ∃ tail, (ofTokens limit tokens).remaining = tokens ++ tail ∧
      (tail = [] ∨ tail.map Token.kind = [.eof]) := by
  cases tokens with
  | nil => exact ⟨[⟨.eof, "", 0⟩], rfl, .inr rfl⟩
  | cons t ts =>
    refine ⟨closing (ts.getLastD t), rfl, ?_⟩
    unfold closing
    split
    · exact .inl rfl
    · exact .inr rfl

@[simp] theorem deeper_kinds (p : Parser) : p.deeper.kinds = p.kinds := rfl
@[simp] theorem numbered_kinds (p : Parser) : p.numbered.kinds = p.kinds := rfl

@[simp] theorem shallower_kinds (levels : Nat) (p : Parser) :
    (p.shallower levels).kinds = p.kinds := rfl

theorem remaining_step {p : Parser} (hp : p.Closed) (hk : p.current.kind ≠ .eof) :
    p.remaining = p.current :: p.step.remaining := by
  unfold step
  split
  · rename_i hn
    rw [Closed, remaining, hn] at hp
    exact absurd (Option.some.inj hp) hk
  · rename_i t ts hts
    rw [remaining, hts, remaining]

theorem step_kinds {p : Parser} {kind : Token.Kind} (hp : p.Closed) (hk : p.current.kind = kind)
    (hne : kind ≠ .eof) : p.kinds = kind.canonical :: p.step.kinds := by
  subst hk
  unfold kinds step
  split
  · rename_i hn
    rw [Closed, remaining, hn] at hp
    exact absurd (Option.some.inj hp) hne
  · rename_i t ts hts
    rw [remaining, hts]
    rfl

/-- The tokens read for the phrase. A chain and a call have read some before they start. -/
def Phrase.Spelled (kinds : List Token.Kind) : Phrase → Prop
  | binary _ e | unary e | primary e => e.kinds = kinds
  | chain _ left _ _ e => e.kinds = left.kinds ++ kinds
  | call name _ e => e.kinds = .identifier (Text.upper name) :: kinds
  | arguments es | argumentsFrom es => Expr.kindsOf .comma es = kinds

theorem kinds_unary {op : UnaryOp} {kind : Token.Kind} (h : prefixOp? kind = some op) (m : Mark)
    (operand : Expr) : (Expr.unary m op operand).kinds = kind :: operand.kinds ∧ kind ≠ .eof ∧
      kind.canonical = kind := by
  unfold prefixOp? at h
  split at h
  · cases h
    exact ⟨rfl, by simp, rfl⟩
  · cases h
    exact ⟨rfl, by simp, rfl⟩
  · cases h

theorem step_closed {p : Parser} (hp : p.Closed) : p.step.Closed := (step_within p).closed hp

theorem Run.arguments_ne_nil {p q : Parser} {es : List Expr} (h : Run p (.argumentsFrom es) q) :
    es ≠ [] := by
  cases h <;> simp

theorem Run.spells {p q : Parser} {s : Phrase} (h : Run p s q) (hp : p.Closed) :
    ∃ ks, s.Spelled ks ∧ p.kinds = ks ++ q.kinds := by
  induction h with
  | binary hu _ ih₁ ih₂ =>
    obtain ⟨ks, rfl, hpk⟩ := ih₁ hp
    obtain ⟨ls, hls, hqk⟩ := ih₂ (hu.closed hp)
    exact ⟨_, hls, by rw [hpk, hqk, List.append_assoc]⟩
  | chainEnd _ => exact ⟨[], (List.append_nil _).symm, rfl⟩
  | @chainLink _ _ _ _ left right _ _ _ op hop _ hr _ ih₁ ih₂ =>
    obtain ⟨hk, -⟩ := infixOp?_eq_some_iff.1 hop
    have hstep := step_kinds hp hk (by simp)
    obtain ⟨ks, rfl, hpk⟩ := ih₁ (step_closed hp)
    obtain ⟨ls, hls, hqk⟩ := ih₂ (hr.closed (step_closed hp))
    refine ⟨.operator op :: (right.kinds ++ ls), ?_, ?_⟩
    · exact Eq.trans hls (by rw [Expr.kinds, List.append_assoc, List.cons_append])
    · rw [hstep, ← deeper_kinds, hpk, ← numbered_kinds, hqk, List.cons_append, List.append_assoc]
      rfl
  | unaryPrimary _ _ ih => exact ih hp
  | unaryOperator hop _ _ ih =>
    obtain ⟨hkinds, hne, hcan⟩ := kinds_unary hop ⟨0, 0⟩ (.literal ⟨0, 0⟩ .null)
    have hstep := step_kinds hp rfl hne
    obtain ⟨ks, rfl, hpk⟩ := ih (step_closed hp)
    refine ⟨_, (kinds_unary hop _ _).1, ?_⟩
    rw [hstep, hcan, ← deeper_kinds, hpk]
    rfl
  | literal hk => exact ⟨_, rfl, step_kinds hp hk (by simp)⟩
  | field hk => exact ⟨_, rfl, step_kinds hp hk (by simp)⟩
  | group hk _ hi hq ih =>
    obtain ⟨ks, rfl, hpk⟩ := ih (step_closed hp)
    have hqk := step_kinds (hi.closed (step_closed hp)) hq (by simp)
    refine ⟨_, rfl, ?_⟩
    rw [step_kinds hp hk (by simp), ← deeper_kinds, hpk, hqk, Expr.kinds]
    simp [Token.Kind.canonical]
  | conditional hk hl _ hc hq hy hr ho ht ih₁ ih₂ ih₃ =>
    have hp₁ := step_closed hp
    have hp₂ := hc.closed (step_closed hp₁)
    have hp₃ := hy.closed (step_closed hp₂)
    obtain ⟨ks, rfl, hck⟩ := ih₁ (step_closed hp₁)
    obtain ⟨ls, rfl, hyk⟩ := ih₂ (step_closed hp₂)
    obtain ⟨ms, rfl, hok⟩ := ih₃ (step_closed hp₃)
    have hend := step_kinds (ho.closed (step_closed hp₃)) ht (by simp)
    refine ⟨_, rfl, ?_⟩
    rw [step_kinds hp hk (by simp), step_kinds hp₁ hl (by simp), ← deeper_kinds, hck,
      step_kinds hp₂ hq (by simp), hyk, step_kinds hp₃ hr (by simp), hok, hend, Expr.kinds]
    simp [Token.Kind.canonical]
  | identifier hk _ ih =>
    obtain ⟨ks, hks, hpk⟩ := ih (step_closed hp)
    refine ⟨_, hks, ?_⟩
    rw [step_kinds hp hk (by simp), hpk]
    rfl
  | @call _ _ _ _ _ args hk hf _ ha hq _ ih =>
    obtain ⟨ks, rfl, hpk⟩ := ih (step_closed hp)
    have hqk := step_kinds (ha.closed (step_closed hp)) hq (by simp)
    refine ⟨.leftParen :: (Expr.kindsOf .comma args ++ [.rightParen]), ?_, ?_⟩
    · rw [Phrase.Spelled, Expr.kinds, (Builtin.mem_of_find? hf).2]
    · rw [step_kinds hp hk (by simp), ← deeper_kinds, hpk, hqk]
      simp [Token.Kind.canonical]
  | noArguments _ => exact ⟨[], rfl, rfl⟩
  | someArguments _ _ ih => exact ih hp
  | lastArgument _ _ ih => exact ih hp
  | nextArgument he hk ho ih₁ ih₂ =>
    obtain ⟨ks, rfl, hpk⟩ := ih₁ hp
    obtain ⟨ls, rfl, hqk⟩ := ih₂ (step_closed (he.closed hp))
    refine ⟨_, Expr.kindsOf_cons ho.arguments_ne_nil, ?_⟩
    rw [hpk, step_kinds (he.closed hp) hk (by simp), hqk]
    simp [Token.Kind.canonical]

theorem Statements.spells {p q : Parser} {es : List Expr} (h : Statements p es q)
    (hp : p.Closed) : es ≠ [] ∧ ∃ tail, (tail = [] ∨ tail = [.semicolon]) ∧
      p.kinds = Expr.kindsOf .semicolon es ++ (tail ++ q.kinds) := by
  induction h with
  | last he _ =>
    obtain ⟨ks, rfl, hpk⟩ := he.spells hp
    exact ⟨by simp, [], .inl rfl, hpk⟩
  | closed he hk _ =>
    obtain ⟨ks, rfl, hpk⟩ := he.spells hp
    refine ⟨by simp, [.semicolon], .inr rfl, ?_⟩
    rw [hpk, step_kinds (he.closed hp) hk (by simp)]
    rfl
  | next he hk _ _ ih =>
    obtain ⟨ks, rfl, hpk⟩ := he.spells hp
    obtain ⟨hne, tail, htail, hqk⟩ := ih (step_closed (he.closed hp))
    refine ⟨by simp, tail, htail, ?_⟩
    rw [hpk, step_kinds (he.closed hp) hk (by simp), hqk, Expr.kindsOf_cons hne]
    simp [Token.Kind.canonical]

end Parser
end FieldFormula
