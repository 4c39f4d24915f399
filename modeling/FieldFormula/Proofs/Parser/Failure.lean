import FieldFormula.Proofs.Parser.Run

/-!
Failing runs of the parser as derivations, next to the successful ones. A failure is a fault found
while an operand or the end of the formula is read, at the bottom of a stack of tasks that lie one
within another. Main statement: apart from the limit of nesting, the derivations are exactly the
errors of the parser (`formula_eq_error_iff`).
-/
namespace FieldFormula

def ParseError.Cause.InTokens : ParseError.Cause → Prop
  | tooDeep _ => False
  | _ => True

def Token.Kind.opensOperand : Token.Kind → Bool
  | literal _ | field _ | identifier _ | conditional | leftParen => true
  | _ => false

def Token.bare (kind : Token.Kind) : Token := ⟨kind, kind.display, 0⟩

namespace Parser

inductive Task where
  | binary (least : Nat)
  | chain (least : Nat) (left : Expr) (length : Nat) (compared : Bool)
  | unary
  | primary
  | arguments
  | argumentsFrom
  | toEnd

/-- From the conditional at `p`, `count` parts have been read, and at `q` the next one starts. -/
inductive Slots : Parser → Nat → Parser → Prop where
  | opened {p : Parser} :
      p.current.kind = .conditional → p.step.current.kind = .leftParen → p.depth < p.limit →
      Slots p 0 p.step.step.deeper
  | next {p q r : Parser} {count : Nat} {e : Expr} :
      Slots p count q → count < 2 → Run q (.binary 0 e) r → r.current.kind = .comma →
      Slots p (count + 1) r.step

structure Opens (p : Parser) (f : Builtin) : Prop where
  name : ∃ name, p.current.kind = .identifier name ∧ Builtin.find? name = some f
  paren : p.step.current.kind = .leftParen
  room : p.depth < p.limit

def moreParts : Nat → List Token
  | 0 => [.bare .rightParen]
  | count + 1 => .bare .comma :: .bare (.literal .null) :: moreParts count

/-- In the course of the task at `p`, the other one is taken up at `q`; all before it went well.
The tokens `closing` behind the other task would end the first one. -/
inductive Enters : Parser → Task → List Token → Parser → Task → Prop where
  | left {p : Parser} {least : Nat} : Enters p (.binary least) [] p .unary
  | links {p q : Parser} {least : Nat} {left : Expr} :
      Run p (.unary left) q → Enters p (.binary least) [] q (.chain least left 0 false)
  | right {p : Parser} {least : Nat} {left : Expr} {length : Nat} {compared : Bool}
      {op : BinaryOp} :
      infixOp? least compared p.current.kind = some op → p.depth < p.limit →
      Enters p (.chain least left length compared) [] p.step.deeper (.binary (op.strength + 1))
  | nextLink {p q : Parser} {least : Nat} {left right : Expr} {length : Nat} {compared : Bool}
      {op : BinaryOp} :
      infixOp? least compared p.current.kind = some op → p.depth < p.limit →
      Run p.step.deeper (.binary (op.strength + 1) right) q →
      Enters p (.chain least left length compared) [] q.numbered
        (.chain least (.binary (q.markAt p.current.position) op left right) (length + 1)
          op.isComparison)
  | primary {p : Parser} : prefixOp? p.current.kind = none → Enters p .unary [] p .primary
  | operand {p : Parser} {op : UnaryOp} :
      prefixOp? p.current.kind = some op → p.depth < p.limit →
      Enters p .unary [] p.step.deeper .unary
  | inner {p : Parser} :
      p.current.kind = .leftParen → p.depth < p.limit →
      Enters p .primary [.bare .rightParen] p.step.deeper (.binary 0)
  | slot {p q : Parser} {count : Nat} :
      Slots p count q → Enters p .primary (moreParts (2 - count)) q (.binary 0)
  | call {p : Parser} {f : Builtin} :
      p.Opens f → Enters p .primary [.bare .rightParen] p.step.step.deeper .arguments
  | someArguments {p : Parser} :
      p.current.kind ≠ .rightParen → Enters p .arguments [] p .argumentsFrom
  | argument {p : Parser} : Enters p .argumentsFrom [] p (.binary 0)
  | nextArgument {p q : Parser} {e : Expr} :
      Run p (.binary 0 e) q → q.current.kind = .comma →
      Enters p .argumentsFrom [] q.step .argumentsFrom
  | statement {p : Parser} : Enters p .toEnd [] p (.binary 0)
  | nextStatement {p q : Parser} {e : Expr} :
      Run p (.binary 0 e) q → q.current.kind = .semicolon → q.step.current.kind ≠ .eof →
      Enters p .toEnd [] q.step .toEnd

def missing (p : Parser) (wanted : String) : ParseError :=
  ⟨.expected wanted p.current.describe, p.current.position⟩

/-- The task at `p` finds the error by itself and leaves the parser at `q`. -/
inductive Faults : Parser → Task → ParseError → Parser → Prop where
  | noOperand {p : Parser} :
      p.current.kind.opensOperand = false →
      Faults p .primary ⟨.unexpected p.current.describe, p.current.position⟩ p
  | bareName {p : Parser} {name : String} :
      p.current.kind = .identifier name → p.step.current.kind ≠ .leftParen →
      Faults p .primary ⟨.unexpected ("'" ++ name ++ "'"), p.current.position⟩ p.step
  | unknown {p : Parser} {name : String} :
      p.current.kind = .identifier name → p.step.current.kind = .leftParen →
      Builtin.find? name = none →
      Faults p .primary ⟨.unknownFunction name, p.current.position⟩ p.step
  | unopened {p : Parser} :
      p.current.kind = .conditional → p.step.current.kind ≠ .leftParen →
      Faults p .primary (p.step.missing "'(' after IF") p.step
  | unclosedGroup {p q : Parser} {inner : Expr} :
      p.current.kind = .leftParen → p.depth < p.limit →
      Run p.step.deeper (.binary 0 inner) q → q.current.kind ≠ .rightParen →
      Faults p .primary (q.missing "')'") q
  | unseparated {p q r : Parser} {count : Nat} {e : Expr} :
      Slots p count q → count < 2 → Run q (.binary 0 e) r → r.current.kind ≠ .comma →
      Faults p .primary (r.missing "','") r
  | unclosedConditional {p q r : Parser} {e : Expr} :
      Slots p 2 q → Run q (.binary 0 e) r → r.current.kind ≠ .rightParen →
      Faults p .primary (r.missing "')'") r
  | unclosedCall {p q : Parser} {f : Builtin} {args : List Expr} :
      p.Opens f → Run p.step.step.deeper (.arguments args) q → q.current.kind ≠ .rightParen →
      Faults p .primary (q.missing "')'") q
  | arity {p q : Parser} {f : Builtin} {args : List Expr} :
      p.Opens f → Run p.step.step.deeper (.arguments args) q → q.current.kind = .rightParen →
      f.arity.accepts args.length = false →
      Faults p .primary ⟨.wrongArity f.name f.arity args.length, p.current.position⟩
        (q.step.shallower 1)
  | unended {p q : Parser} {e : Expr} :
      Run p (.binary 0 e) q → q.current.kind ≠ .semicolon → q.current.kind ≠ .eof →
      Faults p .toEnd (q.missing "end of formula") q

inductive Halts : Parser → Task → ParseError → Parser → Prop where
  | here {p q : Parser} {t : Task} {err : ParseError} : Faults p t err q → Halts p t err q
  | within {p q r : Parser} {t u : Task} {closing : List Token} {err : ParseError} :
      Enters p t closing q u → Halts q u err r → Halts p t err r

section Steps
variable {α β : Type} {p r : Parser} {err : ParseError}

theorem bind_eq_error {m : ParseM α} {f : α → ParseM β} :
    (m >>= f) p = .error err r ↔
      m p = .error err r ∨ ∃ a q, m p = .ok a q ∧ f a q = .error err r := by
  simp only [Bind.bind, EStateM.bind]
  cases m p with
  | ok a q => simp [and_assoc]
  | error e q => simp

theorem pure_eq_error {a : α} : (pure a : ParseM α) p = .error err r ↔ False := by
  constructor
  · intro h
    cases h
  · exact False.elim

theorem throw_eq_error {e : ParseError} :
    (throw e : ParseM α) p = .error err r ↔ err = e ∧ r = p := by
  constructor
  · intro h
    cases h
    exact ⟨rfl, rfl⟩
  · rintro ⟨rfl, rfl⟩
    rfl

theorem enter_bind_eq_error (herr : err.cause.InTokens) {position : Nat} {f : Unit → ParseM β} :
    (enter position >>= f) p = .error err r ↔
      p.depth < p.limit ∧ f () p.deeper = .error err r := by
  simp only [Bind.bind, EStateM.bind, enter]
  by_cases h : p.depth < p.limit
  · simp [h, deeper]
  · simp only [h, if_false, false_and, iff_false]
    intro hdeep
    cases hdeep
    exact herr

theorem expect_eq_error {kind : Token.Kind} {wanted : String} :
    expect kind wanted p = .error err r ↔
      p.current.kind ≠ kind ∧ err = p.missing wanted ∧ r = p := by
  rw [expect, peek_bind]
  by_cases h : p.current.kind = kind
  · simp only [h, if_true, ne_eq, not_true_eq_false, false_and, iff_false]
    intro hadvance
    cases hadvance
  · simp [h, throw_eq_error, missing]

theorem expect_bind_eq_error {kind : Token.Kind} {wanted : String} {f : Unit → ParseM β} :
    (expect kind wanted >>= f) p = .error err r ↔
      (p.current.kind ≠ kind ∧ err = p.missing wanted ∧ r = p) ∨
      (p.current.kind = kind ∧ f () p.step = .error err r) := by
  rw [expect, bind_assoc, peek_bind]
  by_cases h : p.current.kind = kind
  · simp [h, advance_bind]
  · simp [h, bind_eq_error, throw_eq_error, throw_eq_ok, missing]

theorem exhausted_ne_error (herr : err.cause.InTokens) :
    (exhausted : ParseM α) p ≠ .error err r := by
  intro h
  cases h
  exact herr

end Steps

section Functions
variable {n : Nat} {p r : Parser} {err : ParseError}

theorem binary_eq_error {least : Nat} :
    binary (n + 1) least p = .error err r ↔
      unary n p = .error err r ∨
      ∃ left q, unary n p = .ok left q ∧ chain n least left 0 false q = .error err r :=
  bind_eq_error

theorem chain_eq_error (herr : err.cause.InTokens) {least : Nat} {left : Expr} {length : Nat}
    {compared : Bool} :
    chain (n + 1) least left length compared p = .error err r ↔
      ∃ op, infixOp? least compared p.current.kind = some op ∧ p.depth < p.limit ∧
        (binary n (op.strength + 1) p.step.deeper = .error err r ∨
        ∃ right q, binary n (op.strength + 1) p.step.deeper = .ok right q ∧
          chain n least (.binary (q.markAt p.current.position) op left right) (length + 1)
            op.isComparison q.numbered = .error err r) := by
  rw [chain, peek_bind]
  cases infixOp? least compared p.current.kind with
  | none => simp [-bind_pure_comp, leave_bind, pure_eq_error]
  | some op =>
    simp [advance_bind, enter_bind_eq_error herr, bind_eq_error (m := binary n (op.strength + 1)),
      mark_bind]

theorem unary_eq_error (herr : err.cause.InTokens) :
    unary (n + 1) p = .error err r ↔
      (prefixOp? p.current.kind = none ∧ primary n p = .error err r) ∨
      ∃ op, prefixOp? p.current.kind = some op ∧ p.depth < p.limit ∧
        unary n p.step.deeper = .error err r := by
  rw [unary, peek_bind]
  cases prefixOp? p.current.kind with
  | none => simp
  | some op =>
    simp [-bind_pure_comp, advance_bind, enter_bind_eq_error herr, bind_eq_error (m := unary n),
      mark_bind, leave_bind, pure_eq_error]

theorem primary_eq_error_of_not (hk : p.current.kind.opensOperand = false) :
    primary (n + 1) p = .error err r ↔
      err = ⟨.unexpected p.current.describe, p.current.position⟩ ∧ r = p := by
  rw [primary, peek_bind]
  cases hkind : p.current.kind with
  | literal _ | field _ | identifier _ | conditional | leftParen => rw [hkind] at hk; cases hk
  | _ => exact throw_eq_error

theorem primary_group_eq_error (herr : err.cause.InTokens) (hk : p.current.kind = .leftParen) :
    primary (n + 1) p = .error err r ↔
      p.depth < p.limit ∧
        (binary n 0 p.step.deeper = .error err r ∨
        ∃ inner q, binary n 0 p.step.deeper = .ok inner q ∧ q.current.kind ≠ .rightParen ∧
          err = q.missing "')'" ∧ r = q) := by
  rw [primary, peek_bind]
  simp [hk, -bind_pure_comp, advance_bind, enter_bind_eq_error herr,
    bind_eq_error (m := binary n 0), expect_bind_eq_error, leave_bind, mark_bind, pure_eq_error]

def PartFails (n : Nat) (err : ParseError) (r : Parser) : Nat → Parser → Prop
  | 0, p => binary n 0 p = .error err r ∨
      ∃ e q, binary n 0 p = .ok e q ∧ q.current.kind ≠ .rightParen ∧ err = q.missing "')'" ∧ r = q
  | others + 1, p => binary n 0 p = .error err r ∨
      ∃ e q, binary n 0 p = .ok e q ∧
        ((q.current.kind ≠ .comma ∧ err = q.missing "','" ∧ r = q) ∨
        q.current.kind = .comma ∧ PartFails n err r others q.step)

theorem primary_conditional_eq_error (herr : err.cause.InTokens)
    (hk : p.current.kind = .conditional) :
    primary (n + 1) p = .error err r ↔
      (p.step.current.kind ≠ .leftParen ∧ err = p.step.missing "'(' after IF" ∧ r = p.step) ∨
      p.step.current.kind = .leftParen ∧ p.depth < p.limit ∧
        PartFails n err r 2 p.step.step.deeper := by
  rw [primary, peek_bind]
  simp only [hk, advance_bind, enter_bind_eq_error herr, bind_eq_error (m := binary n 0),
    expect_bind_eq_error, leave_bind, mark_bind, pure_eq_error, step_depth, step_limit,
    and_false, or_false, PartFails]

theorem call_eq_error (herr : err.cause.InTokens) {name : String} {position : Nat} :
    call (n + 1) name position p = .error err r ↔
      (p.current.kind ≠ .leftParen ∧ err = ⟨.unexpected ("'" ++ name ++ "'"), position⟩ ∧ r = p) ∨
      p.current.kind = .leftParen ∧
        ((Builtin.find? name = none ∧ err = ⟨.unknownFunction name, position⟩ ∧ r = p) ∨
        ∃ f, Builtin.find? name = some f ∧ p.depth < p.limit ∧
          (arguments n p.step.deeper = .error err r ∨
          ∃ args q, arguments n p.step.deeper = .ok args q ∧
            ((q.current.kind ≠ .rightParen ∧ err = q.missing "')'" ∧ r = q) ∨
            q.current.kind = .rightParen ∧ f.arity.accepts args.length = false ∧
              err = ⟨.wrongArity f.name f.arity args.length, position⟩ ∧
              r = q.step.shallower 1))) := by
  have harity (f : Builtin) (args : List Expr) (q : Parser) :
      (if f.arity.accepts args.length = true then
          do let m ← mark position; return Expr.call m f.name args
        else throw ⟨.wrongArity f.name f.arity args.length, position⟩ : ParseM Expr) q =
          .error err r ↔ f.arity.accepts args.length = false ∧
        err = ⟨.wrongArity f.name f.arity args.length, position⟩ ∧ r = q := by
    by_cases ha : f.arity.accepts args.length = true
    · simp [ha, -bind_pure_comp, mark_bind, pure_eq_error]
    · simp [ha, throw_eq_error]
  rw [call, peek_bind]
  by_cases hk : p.current.kind = .leftParen
  · cases Builtin.find? name with
    | none => simp [hk, throw_eq_error]
    | some f =>
      simp [hk, -bind_pure_comp, advance_bind, enter_bind_eq_error herr,
        bind_eq_error (m := arguments n), expect_bind_eq_error, leave_bind, harity]
  · simp [hk, throw_eq_error]

theorem arguments_eq_error :
    arguments (n + 1) p = .error err r ↔
      p.current.kind ≠ .rightParen ∧ argumentsFrom n p = .error err r := by
  rw [arguments, peek_bind]
  by_cases hk : p.current.kind = .rightParen
  · simp [hk, pure_eq_error]
  · simp [hk]

theorem argumentsFrom_eq_error :
    argumentsFrom (n + 1) p = .error err r ↔
      binary n 0 p = .error err r ∨
      ∃ e q, binary n 0 p = .ok e q ∧ q.current.kind = .comma ∧
        argumentsFrom n q.step = .error err r := by
  rw [argumentsFrom, bind_eq_error]
  refine or_congr_right (exists_congr fun e => exists_congr fun q => and_congr_right fun _ => ?_)
  rw [peek_bind]
  by_cases hk : q.current.kind = .comma
  · simp [hk, advance_bind, bind_eq_error, pure_eq_error, -bind_pure_comp]
  · simp [hk, pure_eq_error]

end Functions

def Task.Errs (n : Nat) (p : Parser) (err : ParseError) (q : Parser) : Task → Prop
  | binary least => Parser.binary n least p = .error err q
  | chain least left length compared => Parser.chain n least left length compared p = .error err q
  | unary => Parser.unary n p = .error err q
  | primary => Parser.primary n p = .error err q
  | arguments => Parser.arguments n p = .error err q
  | argumentsFrom => Parser.argumentsFrom n p = .error err q
  | toEnd => False

section Halting
variable {p q : Parser} {err : ParseError}

theorem halts_of_primary_group {n : Nat} (herr : err.cause.InTokens)
    (ih : ∀ p, Parser.binary n 0 p = .error err q → Halts p (.binary 0) err q)
    (hk : p.current.kind = .leftParen) (h : primary (n + 1) p = .error err q) :
    Halts p .primary err q := by
  obtain ⟨hd, hi | ⟨inner, r, hi, hr, rfl, rfl⟩⟩ := (primary_group_eq_error herr hk).1 h
  · exact .within (.inner hk hd) (ih _ hi)
  · exact .here (.unclosedGroup hk hd (run_of_answered (s := .binary 0 inner) hi) hr)

theorem Slots.halts {n count others : Nat} {r : Parser} (hs : Slots p count r)
    (ih : ∀ p, Parser.binary n 0 p = .error err q → Halts p (.binary 0) err q)
    (hcount : count + others = 2) (h : PartFails n err q others r) : Halts p .primary err q := by
  have run {e : Expr} {p q : Parser} (h : Parser.binary n 0 p = .ok e q) : Run p (.binary 0 e) q :=
    run_of_answered (s := .binary 0 e) h
  induction others generalizing count r with
  | zero =>
    obtain rfl : count = 2 := hcount
    rcases h with he | ⟨e, s, he, hk, rfl, rfl⟩
    · exact .within (.slot hs) (ih r he)
    · exact .here (.unclosedConditional hs (run he) hk)
  | succ others ihothers =>
    have hlt : count < 2 := by omega
    rcases h with he | ⟨e, s, he, ⟨hk, rfl, rfl⟩ | ⟨hk, h⟩⟩
    · exact .within (.slot hs) (ih r he)
    · exact .here (.unseparated hs hlt (run he) hk)
    · exact ihothers (.next hs hlt (run he) hk) (by omega) h

theorem halts_of_primary_conditional {n : Nat} (herr : err.cause.InTokens)
    (ih : ∀ p, Parser.binary n 0 p = .error err q → Halts p (.binary 0) err q)
    (hk : p.current.kind = .conditional) (h : primary (n + 1) p = .error err q) :
    Halts p .primary err q := by
  rcases (primary_conditional_eq_error herr hk).1 h with ⟨hl, rfl, rfl⟩ | ⟨hl, hd, h⟩
  · exact .here (.unopened hk hl)
  · exact Slots.halts (.opened hk hl hd) ih rfl h

theorem halts_of_call {n : Nat} {name : String} (herr : err.cause.InTokens)
    (ih : ∀ p, Parser.arguments n p = .error err q → Halts p .arguments err q)
    (hk : p.current.kind = .identifier name)
    (h : call (n + 1) name p.current.position p.step = .error err q) : Halts p .primary err q := by
  rcases (call_eq_error herr).1 h with
    ⟨hl, rfl, rfl⟩ | ⟨hl, ⟨hf, rfl, rfl⟩ | ⟨f, hf, hd, h⟩⟩
  · exact .here (.bareName hk hl)
  · exact .here (.unknown hk hl hf)
  have hopens : p.Opens f := ⟨⟨name, hk, hf⟩, hl, by simpa using hd⟩
  rcases h with ha | ⟨args, r, ha, ⟨hr, rfl, rfl⟩ | ⟨hr, hn, rfl, rfl⟩⟩
  · exact .within (.call hopens) (ih _ ha)
  · exact .here (.unclosedCall hopens (run_of_answered (s := .arguments args) ha) hr)
  · exact .here (.arity hopens (run_of_answered (s := .arguments args) ha) hr hn)

theorem halts_of_primary {n : Nat} (herr : err.cause.InTokens)
    (ih : ∀ m ≤ n, ∀ t p, Task.Errs m p err q t → Halts p t err q)
    (h : primary (n + 1) p = .error err q) : Halts p .primary err q := by
  have binary (p : Parser) (hi : Parser.binary n 0 p = .error err q) : Halts p (.binary 0) err q :=
    ih n (Nat.le_refl n) (.binary 0) p hi
  cases hk : p.current.kind with
  | leftParen => exact halts_of_primary_group herr binary hk h
  | conditional => exact halts_of_primary_conditional herr binary hk h
  | literal value =>
    rw [(primary_literal_eq_ok hk).2 ⟨rfl, rfl⟩] at h
    cases h
  | field name =>
    rw [(primary_field_eq_ok hk).2 ⟨rfl, rfl⟩] at h
    cases h
  | identifier name =>
    rw [primary_identifier hk] at h
    cases n with
    | zero => exact absurd h (exhausted_ne_error herr)
    | succ n => exact halts_of_call herr (fun p => ih n (Nat.le_succ n) .arguments p) hk h
  | _ =>
    have hnot : p.current.kind.opensOperand = false := by rw [hk]; rfl
    obtain ⟨rfl, rfl⟩ := (primary_eq_error_of_not hnot).1 h
    exact .here (.noOperand hnot)

theorem halts_of_errs {n : Nat} {t : Task} (herr : err.cause.InTokens) (h : t.Errs n p err q) :
    Halts p t err q := by
  induction n using Nat.strongRecOn generalizing t p with
  | ind n ih =>
  cases n with
  | zero => cases t <;> first | exact h.elim | exact absurd h (exhausted_ne_error herr)
  | succ n =>
    have earlier : ∀ m ≤ n, ∀ t p, Task.Errs m p err q t → Halts p t err q :=
      fun m hm t p => ih m (Nat.lt_succ_of_le hm)
    have ih {t : Task} {p : Parser} (h : t.Errs n p err q) : Halts p t err q :=
      earlier n (Nat.le_refl n) t p h
    cases t with
    | binary least =>
      rcases binary_eq_error.1 h with hu | ⟨left, r, hu, hc⟩
      · exact .within .left (ih (t := .unary) hu)
      · exact .within (.links (run_of_answered (s := .unary left) hu)) (ih (t := .chain ..) hc)
    | chain least left length compared =>
      obtain ⟨op, hop, hd, hr | ⟨right, r, hr, hc⟩⟩ := (chain_eq_error herr).1 h
      · exact .within (.right hop hd) (ih (t := .binary _) hr)
      · exact .within (.nextLink hop hd (run_of_answered (s := .binary _ right) hr))
          (ih (t := .chain ..) hc)
    | unary =>
      rcases (unary_eq_error herr).1 h with ⟨hop, hp⟩ | ⟨op, hop, hd, ho⟩
      · exact .within (.primary hop) (ih (t := .primary) hp)
      · exact .within (.operand hop hd) (ih (t := .unary) ho)
    | primary => exact halts_of_primary herr earlier h
    | arguments =>
      obtain ⟨hk, ha⟩ := arguments_eq_error.1 h
      exact .within (.someArguments hk) (ih (t := .argumentsFrom) ha)
    | argumentsFrom =>
      rcases argumentsFrom_eq_error.1 h with he | ⟨e, r, he, hk, ho⟩
      · exact .within .argument (ih (t := .binary 0) he)
      · exact .within (.nextArgument (run_of_answered (s := .binary 0 e) he) hk)
          (ih (t := .argumentsFrom) ho)
    | toEnd => exact h.elim

theorem Slots.errs {count : Nat} {r : Parser} (hs : Slots p count r)
    (herr : err.cause.InTokens) :
    ∃ n, ∀ m, n ≤ m → PartFails m err q (2 - count) r → primary (m + 1) p = .error err q := by
  induction hs with
  | opened hk hl hd =>
    exact ⟨0, fun m _ h => (primary_conditional_eq_error herr hk).2 (.inr ⟨hl, hd, h⟩)⟩
  | @next r s count e _ hlt hrun hk ih =>
    obtain ⟨n, hn⟩ := ih
    obtain ⟨k, hk'⟩ := answered_of_run hrun
    refine ⟨n + k, fun m hm h => hn m (by omega) ?_⟩
    rw [show 2 - count = 2 - (count + 1) + 1 by omega]
    exact .inr ⟨e, s, hk' m (by omega), .inr ⟨hk, h⟩⟩

theorem errs_succ {t : Task} (n : Nat) (h : ∀ m, n ≤ m → t.Errs (m + 1) p err q) :
    ∃ n, ∀ m, n ≤ m → t.Errs m p err q := by
  refine ⟨n + 1, fun m hm => ?_⟩
  obtain ⟨k, rfl⟩ : ∃ k, m = k + 1 := ⟨m - 1, by omega⟩
  exact h k (by omega)

theorem Opens.errs {f : Builtin} (h : p.Opens f) (herr : err.cause.InTokens) {n : Nat}
    (ha : Parser.arguments n p.step.step.deeper = .error err q ∨
      ∃ args r, Parser.arguments n p.step.step.deeper = .ok args r ∧
        ((r.current.kind ≠ .rightParen ∧ err = r.missing "')'" ∧ q = r) ∨
        r.current.kind = .rightParen ∧ f.arity.accepts args.length = false ∧
          err = ⟨.wrongArity f.name f.arity args.length, p.current.position⟩ ∧
          q = r.step.shallower 1)) :
    Parser.primary (n + 2) p = .error err q := by
  obtain ⟨⟨name, hk, hf⟩, hl, hd⟩ := h
  rw [primary_identifier hk]
  exact (call_eq_error herr).2 (.inr ⟨hl, .inr ⟨f, hf, by simpa using hd, ha⟩⟩)

theorem Faults.errs {t : Task} (h : Faults p t err q) (herr : err.cause.InTokens)
    (ht : t ≠ .toEnd) : ∃ n, ∀ m, n ≤ m → t.Errs m p err q := by
  cases h with
  | noOperand hk =>
    exact errs_succ 0 fun m _ => (primary_eq_error_of_not hk).2 ⟨rfl, rfl⟩
  | bareName hk hl =>
    refine errs_succ 1 fun m hm => ?_
    obtain ⟨k, rfl⟩ : ∃ k, m = k + 1 := ⟨m - 1, by omega⟩
    exact (primary_identifier hk).trans ((call_eq_error herr).2 (.inl ⟨hl, rfl, rfl⟩))
  | unknown hk hl hf =>
    refine errs_succ 1 fun m hm => ?_
    obtain ⟨k, rfl⟩ : ∃ k, m = k + 1 := ⟨m - 1, by omega⟩
    exact (primary_identifier hk).trans
      ((call_eq_error herr).2 (.inr ⟨hl, .inl ⟨hf, rfl, rfl⟩⟩))
  | unopened hk hl =>
    exact errs_succ 0 fun m _ => (primary_conditional_eq_error herr hk).2 (.inl ⟨hl, rfl, rfl⟩)
  | unclosedGroup hk hd hrun hr =>
    obtain ⟨n, hn⟩ := answered_of_run hrun
    exact errs_succ n fun m hm =>
      (primary_group_eq_error herr hk).2 ⟨hd, .inr ⟨_, _, hn m hm, hr, rfl, rfl⟩⟩
  | @unseparated r _ count e hs hlt hrun hr =>
    obtain ⟨n, hn⟩ := answered_of_run hrun
    obtain ⟨k, hk⟩ := hs.errs (q := q) herr
    refine errs_succ (n + k) fun m hm => hk m (by omega) ?_
    obtain ⟨others, hothers⟩ : ∃ others, 2 - count = others + 1 := ⟨1 - count, by omega⟩
    rw [hothers]
    exact .inr ⟨e, q, hn m (by omega), .inl ⟨hr, rfl, rfl⟩⟩
  | unclosedConditional hs hrun hr =>
    obtain ⟨n, hn⟩ := answered_of_run hrun
    obtain ⟨k, hk⟩ := hs.errs (q := q) herr
    exact errs_succ (n + k) fun m hm =>
      hk m (by omega) (.inr ⟨_, q, hn m (by omega), hr, rfl, rfl⟩)
  | unclosedCall ho hrun hr =>
    obtain ⟨n, hn⟩ := answered_of_run hrun
    refine errs_succ (n + 1) fun m hm => ?_
    obtain ⟨k, rfl⟩ : ∃ k, m = k + 1 := ⟨m - 1, by omega⟩
    exact ho.errs herr (.inr ⟨_, _, hn k (by omega), .inl ⟨hr, rfl, rfl⟩⟩)
  | arity ho hrun hr ha =>
    obtain ⟨n, hn⟩ := answered_of_run hrun
    refine errs_succ (n + 1) fun m hm => ?_
    obtain ⟨k, rfl⟩ : ∃ k, m = k + 1 := ⟨m - 1, by omega⟩
    exact ho.errs herr (.inr ⟨_, _, hn k (by omega), .inr ⟨hr, ha, rfl, rfl⟩⟩)
  | unended _ _ _ => exact absurd rfl ht

theorem Enters.errs {r : Parser} {t u : Task} {closing : List Token} (h : Enters p t closing r u)
    (herr : err.cause.InTokens) (ht : t ≠ .toEnd) :
    u ≠ .toEnd ∧ ((∃ n, ∀ m, n ≤ m → u.Errs m r err q) →
      ∃ n, ∀ m, n ≤ m → t.Errs m p err q) := by
  cases h with
  | left =>
    refine ⟨by simp, fun ⟨n, hn⟩ => errs_succ n fun m hm => binary_eq_error.2 (.inl (hn m hm))⟩
  | links hrun =>
    obtain ⟨k, hk⟩ := answered_of_run hrun
    refine ⟨by simp, fun ⟨n, hn⟩ => errs_succ (n + k) fun m hm => ?_⟩
    exact binary_eq_error.2 (.inr ⟨_, _, hk m (by omega), hn m (by omega)⟩)
  | right hop hd =>
    refine ⟨by simp, fun ⟨n, hn⟩ => errs_succ n fun m hm => ?_⟩
    exact (chain_eq_error herr).2 ⟨_, hop, hd, .inl (hn m hm)⟩
  | nextLink hop hd hrun =>
    obtain ⟨k, hk⟩ := answered_of_run hrun
    refine ⟨by simp, fun ⟨n, hn⟩ => errs_succ (n + k) fun m hm => ?_⟩
    exact (chain_eq_error herr).2
      ⟨_, hop, hd, .inr ⟨_, _, hk m (by omega), hn m (by omega)⟩⟩
  | primary hop =>
    refine ⟨by simp, fun ⟨n, hn⟩ => errs_succ n fun m hm => ?_⟩
    exact (unary_eq_error herr).2 (.inl ⟨hop, hn m hm⟩)
  | operand hop hd =>
    refine ⟨by simp, fun ⟨n, hn⟩ => errs_succ n fun m hm => ?_⟩
    exact (unary_eq_error herr).2 (.inr ⟨_, hop, hd, hn m hm⟩)
  | inner hk hd =>
    refine ⟨by simp, fun ⟨n, hn⟩ => errs_succ n fun m hm => ?_⟩
    exact (primary_group_eq_error herr hk).2 ⟨hd, .inl (hn m hm)⟩
  | slot hs =>
    obtain ⟨k, hk⟩ := hs.errs (q := q) herr
    refine ⟨by simp, fun ⟨n, hn⟩ => errs_succ (n + k) fun m hm => hk m (by omega) ?_⟩
    generalize 2 - _ = others
    cases others <;> exact .inl (hn m (by omega))
  | call ho =>
    refine ⟨by simp, fun ⟨n, hn⟩ => errs_succ (n + 1) fun m hm => ?_⟩
    obtain ⟨k, rfl⟩ : ∃ k, m = k + 1 := ⟨m - 1, by omega⟩
    exact ho.errs herr (.inl (hn k (by omega)))
  | someArguments hk =>
    refine ⟨by simp, fun ⟨n, hn⟩ => errs_succ n fun m hm => ?_⟩
    exact arguments_eq_error.2 ⟨hk, hn m hm⟩
  | argument =>
    refine ⟨by simp, fun ⟨n, hn⟩ => errs_succ n fun m hm => ?_⟩
    exact argumentsFrom_eq_error.2 (.inl (hn m hm))
  | nextArgument hrun hk =>
    obtain ⟨k, hk'⟩ := answered_of_run hrun
    refine ⟨by simp, fun ⟨n, hn⟩ => errs_succ (n + k) fun m hm => ?_⟩
    exact argumentsFrom_eq_error.2 (.inr ⟨_, _, hk' m (by omega), hk, hn m (by omega)⟩)
  | statement | nextStatement _ _ _ => exact absurd rfl ht

theorem errs_of_halts {t : Task} (h : Halts p t err q) (herr : err.cause.InTokens)
    (ht : t ≠ .toEnd) : ∃ n, ∀ m, n ≤ m → t.Errs m p err q := by
  induction h with
  | here hf => exact hf.errs herr ht
  | within he _ ih =>
    obtain ⟨hu, herrs⟩ := he.errs herr ht
    exact herrs (ih herr hu)

theorem expression_eq_error_iff (hp : p.Closed) (herr : err.cause.InTokens) :
    expression p = .error err q ↔ Halts p (.binary 0) err q := by
  constructor
  · exact fun h => halts_of_errs (t := .binary 0) herr h
  · intro h
    obtain ⟨n, hn⟩ := errs_of_halts h herr (by simp)
    rw [expression_eq_binary hp n]
    exact hn _ (by omega)

def toEnd (n : Nat) : ParseM Unit := do
  let _ ← statements n
  expect .eof "end of formula"

theorem toEnd_eq_error {n : Nat} (hp : p.Closed) (herr : err.cause.InTokens) :
    toEnd (n + 1) p = .error err q ↔
      Halts p (.binary 0) err q ∨
      ∃ e r, Run p (.binary 0 e) r ∧
        ((r.current.kind ≠ .semicolon ∧ r.current.kind ≠ .eof ∧
          err = r.missing "end of formula" ∧ q = r) ∨
        r.current.kind = .semicolon ∧ r.step.current.kind ≠ .eof ∧
          toEnd n r.step = .error err q) := by
  rw [toEnd, statements, bind_assoc, bind_eq_error, expression_eq_error_iff hp herr]
  refine or_congr_right (exists_congr fun e => exists_congr fun r =>
    and_congr (expression_eq_ok_iff hp) ?_)
  rw [bind_assoc, peek_bind]
  by_cases hk : r.current.kind = .semicolon
  · by_cases hr : r.step.current.kind = .eof
    · simp [hk, hr, advance_bind, peek_bind, expect_eq_error]
    · simp [hk, hr, advance_bind, peek_bind, toEnd, bind_assoc]
  · simp [hk, expect_eq_error]

theorem halts_of_toEnd {n : Nat} (hp : p.Closed) (herr : err.cause.InTokens)
    (h : toEnd n p = .error err q) : Halts p .toEnd err q := by
  induction n generalizing p with
  | zero => exact absurd h (exhausted_ne_error herr)
  | succ n ih =>
    rcases (toEnd_eq_error hp herr).1 h with
      he | ⟨e, r, he, ⟨hs, hk, rfl, rfl⟩ | ⟨hs, hk, h⟩⟩
    · exact .within .statement he
    · exact .here (.unended he hs hk)
    · exact .within (.nextStatement he hs hk)
        (ih ((step_within r).closed (he.closed hp)) h)

theorem toEnd_of_halts {t : Task} (h : Halts p t err q) (ht : t = .toEnd) (hp : p.Closed)
    (herr : err.cause.InTokens) : ∃ n, ∀ m, n ≤ m → toEnd m p = .error err q := by
  have succ {p : Parser} (n : Nat) (h : ∀ m, n ≤ m → toEnd (m + 1) p = .error err q) :
      ∃ n, ∀ m, n ≤ m → toEnd m p = .error err q := by
    refine ⟨n + 1, fun m hm => ?_⟩
    obtain ⟨k, rfl⟩ : ∃ k, m = k + 1 := ⟨m - 1, by omega⟩
    exact h k (by omega)
  induction h with
  | here hf =>
    subst ht
    cases hf with
    | unended he hs hk =>
      exact succ 0 fun m _ => (toEnd_eq_error hp herr).2 (.inr ⟨_, _, he, .inl ⟨hs, hk, rfl, rfl⟩⟩)
  | within he hh ih =>
    subst ht
    cases he with
    | statement => exact succ 0 fun m _ => (toEnd_eq_error hp herr).2 (.inl hh)
    | nextStatement hrun hs hk =>
      obtain ⟨n, hn⟩ := ih rfl ((step_within _).closed (hrun.closed hp)) herr succ
      exact succ n fun m hm =>
        (toEnd_eq_error hp herr).2 (.inr ⟨_, _, hrun, .inr ⟨hs, hk, hn m hm⟩⟩)

theorem formula_eq_error_iff_toEnd : formula p = .error err q ↔ toEnd p.steps p = .error err q := by
  rw [formula, get_bind, toEnd, bind_eq_error, bind_eq_error]
  refine or_congr_right (exists_congr fun items => exists_congr fun r =>
    and_congr_right fun _ => ?_)
  rw [expect_bind_eq_error, expect_eq_error]
  split
  · simp [pure_eq_error]
  · simp [-bind_pure_comp, mark_bind, pure_eq_error]

theorem formula_eq_error_iff (hp : p.Closed) (herr : err.cause.InTokens) :
    formula p = .error err q ↔ Halts p .toEnd err q := by
  rw [formula_eq_error_iff_toEnd]
  constructor
  · exact halts_of_toEnd hp herr
  · intro h
    obtain ⟨n, hn⟩ := toEnd_of_halts h rfl hp herr
    rw [← hn (p.steps + n) (by omega), toEnd, toEnd]
    refine bind_agree ?_ fun _ _ _ => rfl
    exact (statements_add_steps hp (by unfold steps; omega) n).symm

end Halting

end Parser
end FieldFormula
