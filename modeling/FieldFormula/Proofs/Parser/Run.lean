import FieldFormula.Compilation
import FieldFormula.Expr.Parser.Steps
import FieldFormula.Proofs.Basic

/-!
Successful runs of the parser as derivations. `Run p s q` says that a parser at `p` reads the phrase
`s` and is left at `q`. Its rules name the tokens looked at and the counters changed and know
nothing of steps, so a property of all runs is an induction with one case per rule. Main statement:
the derivations are exactly the answers of the parser (`expression_eq_ok_iff`,
`parseTokens_eq_ok_iff`).
-/
namespace FieldFormula.Parser

variable {α β : Type}

def deeper (p : Parser) : Parser := { p with depth := p.depth + 1 }
def shallower (levels : Nat) (p : Parser) : Parser := { p with depth := p.depth - levels }
def numbered (p : Parser) : Parser := { p with nextId := p.nextId + 1 }
def markAt (p : Parser) (position : Nat) : Mark := ⟨p.nextId, position⟩

@[simp] theorem step_depth (p : Parser) : p.step.depth = p.depth := by unfold step; split <;> rfl
@[simp] theorem step_limit (p : Parser) : p.step.limit = p.limit := by unfold step; split <;> rfl
@[simp] theorem step_nextId (p : Parser) : p.step.nextId = p.nextId := by unfold step; split <;> rfl
@[simp] theorem deeper_nextId (p : Parser) : p.deeper.nextId = p.nextId := rfl
@[simp] theorem numbered_nextId (p : Parser) : p.numbered.nextId = p.nextId + 1 := rfl
@[simp] theorem deeper_depth (p : Parser) : p.deeper.depth = p.depth + 1 := rfl
@[simp] theorem deeper_limit (p : Parser) : p.deeper.limit = p.limit := rfl
@[simp] theorem numbered_depth (p : Parser) : p.numbered.depth = p.depth := rfl
@[simp] theorem numbered_limit (p : Parser) : p.numbered.limit = p.limit := rfl

@[simp] theorem shallower_depth (levels : Nat) (p : Parser) :
    (p.shallower levels).depth = p.depth - levels := rfl

@[simp] theorem shallower_limit (levels : Nat) (p : Parser) :
    (p.shallower levels).limit = p.limit := rfl

@[simp] theorem shallower_nextId (levels : Nat) (p : Parser) :
    (p.shallower levels).nextId = p.nextId := rfl

@[simp] theorem shallower_markAt (levels position : Nat) (p : Parser) :
    (p.shallower levels).markAt position = p.markAt position := rfl

theorem infixOp?_eq_some_iff {least : Nat} {compared : Bool} {kind : Token.Kind} {op : BinaryOp} :
    infixOp? least compared kind = some op ↔ kind = .operator op ∧ least ≤ op.strength ∧
      (op.isComparison = true → compared = false) := by
  cases kind with
  | operator other =>
    cases compared <;> grind [infixOp?]
  | _ => simp [infixOp?]

theorem infixOp?_eq_none_iff {least : Nat} {compared : Bool} {kind : Token.Kind} :
    infixOp? least compared kind = none ↔ ∀ op, kind = .operator op →
      op.strength < least ∨ compared = true ∧ op.isComparison = true := by
  constructor
  · rintro h op rfl
    by_cases hl : op.strength < least
    · exact .inl hl
    · simpa [infixOp?, hl] using h
  · intro h
    unfold infixOp?
    split
    · rename_i op
      rw [if_pos]
      simpa using h op rfl
    · rfl

/-- What a function of the parser is asked for, together with what it gives. -/
inductive Phrase where
  | binary (least : Nat) (e : Expr)
  | chain (least : Nat) (left : Expr) (length : Nat) (compared : Bool) (e : Expr)
  | unary (e : Expr)
  | primary (e : Expr)
  | call (name : String) (position : Nat) (e : Expr)
  | arguments (es : List Expr)
  | argumentsFrom (es : List Expr)

inductive Run : Parser → Phrase → Parser → Prop where
  | binary {p q r : Parser} {least : Nat} {left e : Expr} :
      Run p (.unary left) q → Run q (.chain least left 0 false e) r → Run p (.binary least e) r
  | chainEnd {p : Parser} {least : Nat} {left : Expr} {length : Nat} {compared : Bool} :
      infixOp? least compared p.current.kind = none →
      Run p (.chain least left length compared left) (p.shallower length)
  | chainLink {p q r : Parser} {least : Nat} {left right e : Expr} {length : Nat}
      {compared : Bool} {op : BinaryOp} :
      infixOp? least compared p.current.kind = some op → p.depth < p.limit →
      Run p.step.deeper (.binary (op.strength + 1) right) q →
      Run q.numbered (.chain least (.binary (q.markAt p.current.position) op left right)
        (length + 1) op.isComparison e) r →
      Run p (.chain least left length compared e) r
  | unaryPrimary {p q : Parser} {e : Expr} :
      prefixOp? p.current.kind = none → Run p (.primary e) q → Run p (.unary e) q
  | unaryOperator {p q : Parser} {op : UnaryOp} {operand : Expr} :
      prefixOp? p.current.kind = some op → p.depth < p.limit →
      Run p.step.deeper (.unary operand) q →
      Run p (.unary (.unary (q.markAt p.current.position) op operand)) (q.shallower 1).numbered
  | literal {p : Parser} {value : Literal} :
      p.current.kind = .literal value →
      Run p (.primary (.literal (p.step.markAt p.current.position) value)) p.step.numbered
  | field {p : Parser} {name : String} :
      p.current.kind = .field name →
      Run p (.primary (.field (p.step.markAt p.current.position) name)) p.step.numbered
  | group {p q : Parser} {inner : Expr} :
      p.current.kind = .leftParen → p.depth < p.limit →
      Run p.step.deeper (.binary 0 inner) q → q.current.kind = .rightParen →
      Run p (.primary (.group (q.step.markAt p.current.position) inner))
        (q.step.shallower 1).numbered
  | conditional {p q r s : Parser} {condition yes no : Expr} :
      p.current.kind = .conditional → p.step.current.kind = .leftParen → p.depth < p.limit →
      Run p.step.step.deeper (.binary 0 condition) q → q.current.kind = .comma →
      Run q.step (.binary 0 yes) r → r.current.kind = .comma →
      Run r.step (.binary 0 no) s → s.current.kind = .rightParen →
      Run p (.primary (.conditional (s.step.markAt p.current.position) condition yes no))
        (s.step.shallower 1).numbered
  | identifier {p q : Parser} {name : String} {e : Expr} :
      p.current.kind = .identifier name → Run p.step (.call name p.current.position e) q →
      Run p (.primary e) q
  | call {p q : Parser} {name : String} {position : Nat} {f : Builtin} {args : List Expr} :
      p.current.kind = .leftParen → Builtin.find? name = some f → p.depth < p.limit →
      Run p.step.deeper (.arguments args) q → q.current.kind = .rightParen →
      f.arity.accepts args.length = true →
      Run p (.call name position (.call (q.step.markAt position) f.name args))
        (q.step.shallower 1).numbered
  | noArguments {p : Parser} : p.current.kind = .rightParen → Run p (.arguments []) p
  | someArguments {p q : Parser} {es : List Expr} :
      p.current.kind ≠ .rightParen → Run p (.argumentsFrom es) q → Run p (.arguments es) q
  | lastArgument {p q : Parser} {e : Expr} :
      Run p (.binary 0 e) q → q.current.kind ≠ .comma → Run p (.argumentsFrom [e]) q
  | nextArgument {p q r : Parser} {e : Expr} {es : List Expr} :
      Run p (.binary 0 e) q → q.current.kind = .comma → Run q.step (.argumentsFrom es) r →
      Run p (.argumentsFrom (e :: es)) r

inductive Statements : Parser → List Expr → Parser → Prop where
  | last {p q : Parser} {e : Expr} :
      Run p (.binary 0 e) q → q.current.kind ≠ .semicolon → Statements p [e] q
  | closed {p q : Parser} {e : Expr} :
      Run p (.binary 0 e) q → q.current.kind = .semicolon → q.step.current.kind = .eof →
      Statements p [e] q.step
  | next {p q r : Parser} {e : Expr} {es : List Expr} :
      Run p (.binary 0 e) q → q.current.kind = .semicolon → q.step.current.kind ≠ .eof →
      Statements q.step es r → Statements p (e :: es) r

theorem pure_eq_ok {a b : α} {p q : Parser} :
    (pure a : ParseM α) p = .ok b q ↔ b = a ∧ q = p := by
  constructor
  · rintro ⟨⟩
    exact ⟨rfl, rfl⟩
  · rintro ⟨rfl, rfl⟩
    rfl

theorem throw_eq_ok {e : ParseError} {b : α} {p q : Parser} :
    (throw e : ParseM α) p = .ok b q ↔ False :=
  ⟨fun h => (nomatch h), False.elim⟩

theorem get_bind (f : Parser → ParseM β) (p : Parser) : (get >>= f) p = f p p := rfl
theorem peek_bind (f : Token → ParseM β) (p : Parser) : (peek >>= f) p = f p.current p := rfl
theorem advance_bind (f : Unit → ParseM β) (p : Parser) : (advance >>= f) p = f () p.step := rfl

theorem leave_bind (levels : Nat) (f : Unit → ParseM β) (p : Parser) :
    (leave levels >>= f) p = f () (p.shallower levels) := rfl

theorem mark_bind (position : Nat) (f : Mark → ParseM β) (p : Parser) :
    (mark position >>= f) p = f (p.markAt position) p.numbered := rfl

theorem enter_bind_eq_ok {position : Nat} {f : Unit → ParseM β} {p r : Parser} {b : β} :
    (enter position >>= f) p = .ok b r ↔ p.depth < p.limit ∧ f () p.deeper = .ok b r := by
  simp only [Bind.bind, EStateM.bind, enter]
  by_cases h : p.depth < p.limit
  · simp [h, deeper]
  · simp [h]

theorem expect_bind_eq_ok {kind : Token.Kind} {wanted : String} {f : Unit → ParseM β}
    {p r : Parser} {b : β} :
    (expect kind wanted >>= f) p = .ok b r ↔ p.current.kind = kind ∧ f () p.step = .ok b r := by
  rw [expect, bind_assoc, peek_bind]
  by_cases h : p.current.kind = kind
  · simp [h, advance_bind]
  · simp [h, bind_eq_ok, throw_eq_ok]

def Phrase.Answered (n : Nat) (p q : Parser) : Phrase → Prop
  | binary least e => Parser.binary n least p = .ok e q
  | chain least left length compared e => Parser.chain n least left length compared p = .ok e q
  | unary e => Parser.unary n p = .ok e q
  | primary e => Parser.primary n p = .ok e q
  | call name position e => Parser.call n name position p = .ok e q
  | arguments es => Parser.arguments n p = .ok es q
  | argumentsFrom es => Parser.argumentsFrom n p = .ok es q

theorem binary_eq_ok {n least : Nat} {e : Expr} {p r : Parser} :
    binary (n + 1) least p = .ok e r ↔
      ∃ left q, unary n p = .ok left q ∧ chain n least left 0 false q = .ok e r :=
  bind_eq_ok

theorem chain_eq_ok {n least : Nat} {left e : Expr} {length : Nat} {compared : Bool}
    {p r : Parser} :
    chain (n + 1) least left length compared p = .ok e r ↔
      (infixOp? least compared p.current.kind = none ∧ e = left ∧ r = p.shallower length) ∨
      ∃ op right q, infixOp? least compared p.current.kind = some op ∧ p.depth < p.limit ∧
        binary n (op.strength + 1) p.step.deeper = .ok right q ∧
        chain n least (.binary (q.markAt p.current.position) op left right) (length + 1)
          op.isComparison q.numbered = .ok e r := by
  rw [chain, peek_bind]
  cases infixOp? least compared p.current.kind with
  | none => simp [-bind_pure_comp, leave_bind, pure_eq_ok]
  | some op =>
    simp [advance_bind, enter_bind_eq_ok, bind_eq_ok (m := binary n (op.strength + 1)), mark_bind]

theorem unary_eq_ok {n : Nat} {e : Expr} {p r : Parser} :
    unary (n + 1) p = .ok e r ↔
      (prefixOp? p.current.kind = none ∧ primary n p = .ok e r) ∨
      ∃ op operand q, prefixOp? p.current.kind = some op ∧ p.depth < p.limit ∧
        unary n p.step.deeper = .ok operand q ∧
        e = .unary (q.markAt p.current.position) op operand ∧ r = (q.shallower 1).numbered := by
  rw [unary, peek_bind]
  cases prefixOp? p.current.kind with
  | none => simp
  | some op =>
    simp [-bind_pure_comp, advance_bind, enter_bind_eq_ok, bind_eq_ok (m := unary n), mark_bind,
      leave_bind, pure_eq_ok]

theorem primary_literal_eq_ok {n : Nat} {e : Expr} {p r : Parser} {value : Literal}
    (hk : p.current.kind = .literal value) :
    primary (n + 1) p = .ok e r ↔
      e = .literal (p.step.markAt p.current.position) value ∧ r = p.step.numbered := by
  rw [primary, peek_bind]
  simp [hk, -bind_pure_comp, advance_bind, mark_bind, pure_eq_ok]

theorem primary_field_eq_ok {n : Nat} {e : Expr} {p r : Parser} {name : String}
    (hk : p.current.kind = .field name) :
    primary (n + 1) p = .ok e r ↔
      e = .field (p.step.markAt p.current.position) name ∧ r = p.step.numbered := by
  rw [primary, peek_bind]
  simp [hk, -bind_pure_comp, advance_bind, mark_bind, pure_eq_ok]

theorem primary_group_eq_ok {n : Nat} {e : Expr} {p r : Parser}
    (hk : p.current.kind = .leftParen) :
    primary (n + 1) p = .ok e r ↔
      ∃ inner q, p.depth < p.limit ∧ binary n 0 p.step.deeper = .ok inner q ∧
        q.current.kind = .rightParen ∧ e = .group (q.step.markAt p.current.position) inner ∧
        r = (q.step.shallower 1).numbered := by
  rw [primary, peek_bind]
  simp [hk, -bind_pure_comp, advance_bind, enter_bind_eq_ok, bind_eq_ok (m := binary n 0),
    expect_bind_eq_ok, leave_bind, mark_bind, pure_eq_ok]

theorem primary_conditional_eq_ok {n : Nat} {e : Expr} {p s : Parser}
    (hk : p.current.kind = .conditional) :
    primary (n + 1) p = .ok e s ↔
      ∃ condition yes no q r t, p.step.current.kind = .leftParen ∧ p.depth < p.limit ∧
        binary n 0 p.step.step.deeper = .ok condition q ∧ q.current.kind = .comma ∧
        binary n 0 q.step = .ok yes r ∧ r.current.kind = .comma ∧
        binary n 0 r.step = .ok no t ∧ t.current.kind = .rightParen ∧
        e = .conditional (t.step.markAt p.current.position) condition yes no ∧
        s = (t.step.shallower 1).numbered := by
  rw [primary, peek_bind]
  simp only [hk, advance_bind, enter_bind_eq_ok, bind_eq_ok (m := binary n 0), expect_bind_eq_ok,
    leave_bind, mark_bind, pure_eq_ok, step_depth, step_limit, shallower_markAt]
  constructor
  · rintro ⟨hl, hd, c, q, hc, hq, y, r, hy, hr, o, t, ho, ht, he, hs⟩
    exact ⟨c, y, o, q, r, t, hl, hd, hc, hq, hy, hr, ho, ht, he, hs⟩
  · rintro ⟨c, y, o, q, r, t, hl, hd, hc, hq, hy, hr, ho, ht, he, hs⟩
    exact ⟨hl, hd, c, q, hc, hq, y, r, hy, hr, o, t, ho, ht, he, hs⟩

theorem primary_identifier {n : Nat} {p : Parser} {name : String}
    (hk : p.current.kind = .identifier name) :
    primary (n + 1) p = call n name p.current.position p.step := by
  rw [primary, peek_bind, hk]
  rfl

theorem call_eq_ok {n : Nat} {name : String} {position : Nat} {e : Expr} {p r : Parser} :
    call (n + 1) name position p = .ok e r ↔
      ∃ f args q, p.current.kind = .leftParen ∧ Builtin.find? name = some f ∧
        p.depth < p.limit ∧ arguments n p.step.deeper = .ok args q ∧
        q.current.kind = .rightParen ∧ f.arity.accepts args.length = true ∧
        e = .call (q.step.markAt position) f.name args ∧ r = (q.step.shallower 1).numbered := by
  rw [call, peek_bind]
  by_cases hk : p.current.kind = .leftParen
  · cases Builtin.find? name with
    | none => simp [hk, throw_eq_ok]
    | some f =>
      simp only [hk, if_true, advance_bind, enter_bind_eq_ok, bind_eq_ok (m := arguments n),
        expect_bind_eq_ok, leave_bind, step_depth, step_limit]
      constructor
      · rintro ⟨hd, args, q, ha, hq, h⟩
        split at h
        · rename_i hf
          simp only [mark_bind, pure_eq_ok, shallower_markAt] at h
          exact ⟨f, args, q, trivial, rfl, hd, ha, hq, hf, h⟩
        · exact (throw_eq_ok.1 h).elim
      · rintro ⟨_, args, q, -, ⟨⟩, hd, ha, hq, hf, he, hr⟩
        refine ⟨hd, args, q, ha, hq, ?_⟩
        simp only [hf, if_true, mark_bind, pure_eq_ok, shallower_markAt]
        exact ⟨he, hr⟩
  · simp [hk, throw_eq_ok]

theorem arguments_eq_ok {n : Nat} {es : List Expr} {p r : Parser} :
    arguments (n + 1) p = .ok es r ↔
      (p.current.kind = .rightParen ∧ es = [] ∧ r = p) ∨
      (p.current.kind ≠ .rightParen ∧ argumentsFrom n p = .ok es r) := by
  rw [arguments, peek_bind]
  by_cases hk : p.current.kind = .rightParen
  · simp [hk, pure_eq_ok]
  · simp [hk]

theorem argumentsFrom_eq_ok {n : Nat} {es : List Expr} {p r : Parser} :
    argumentsFrom (n + 1) p = .ok es r ↔
      ∃ e q, binary n 0 p = .ok e q ∧
        ((q.current.kind ≠ .comma ∧ es = [e] ∧ r = q) ∨
        ∃ others, q.current.kind = .comma ∧ argumentsFrom n q.step = .ok others r ∧
          es = e :: others) := by
  rw [argumentsFrom, bind_eq_ok]
  refine exists_congr fun e => exists_congr fun q => and_congr_right fun _ => ?_
  rw [peek_bind]
  by_cases hk : q.current.kind = .comma
  · simp only [hk, if_true, advance_bind, bind_eq_ok, pure_eq_ok]
    constructor
    · rintro ⟨others, s, ho, rfl, rfl⟩
      exact .inr ⟨others, trivial, ho, rfl⟩
    · rintro (⟨hne, -⟩ | ⟨others, -, ho, rfl⟩)
      · exact absurd rfl hne
      · exact ⟨others, r, ho, rfl, rfl⟩
  · simp [hk, pure_eq_ok]

theorem run_of_answered {n : Nat} {s : Phrase} {p r : Parser} (h : s.Answered n p r) :
    Run p s r := by
  induction n generalizing s p r with
  | zero => cases s <;> cases h
  | succ n ih =>
    cases s with
    | binary least e =>
      obtain ⟨left, q, hl, hc⟩ := binary_eq_ok.1 h
      exact .binary (ih (s := .unary left) hl) (ih (s := .chain ..) hc)
    | chain least left length compared e =>
      obtain ⟨hop, rfl, rfl⟩ | ⟨op, right, q, hop, hd, hr, hc⟩ := chain_eq_ok.1 h
      · exact .chainEnd hop
      · exact .chainLink hop hd (ih (s := .binary ..) hr) (ih (s := .chain ..) hc)
    | unary e =>
      obtain ⟨hop, hp⟩ | ⟨op, operand, q, hop, hd, ho, rfl, rfl⟩ := unary_eq_ok.1 h
      · exact .unaryPrimary hop (ih (s := .primary e) hp)
      · exact .unaryOperator hop hd (ih (s := .unary operand) ho)
    | primary e =>
      change primary (n + 1) p = .ok e r at h
      cases hk : p.current.kind with
      | literal value =>
        obtain ⟨rfl, rfl⟩ := (primary_literal_eq_ok hk).1 h
        exact .literal hk
      | field name =>
        obtain ⟨rfl, rfl⟩ := (primary_field_eq_ok hk).1 h
        exact .field hk
      | leftParen =>
        obtain ⟨inner, q, hd, hi, hq, rfl, rfl⟩ := (primary_group_eq_ok hk).1 h
        exact .group hk hd (ih (s := .binary ..) hi) hq
      | conditional =>
        obtain ⟨c, y, o, q, s, t, hl, hd, hc, hq, hy, hs, ho, ht, rfl, rfl⟩ :=
          (primary_conditional_eq_ok hk).1 h
        exact .conditional hk hl hd (ih (s := .binary ..) hc) hq (ih (s := .binary ..) hy) hs
          (ih (s := .binary ..) ho) ht
      | identifier name =>
        rw [primary_identifier hk] at h
        exact .identifier hk (ih (s := .call ..) h)
      | _ =>
        rw [primary, peek_bind] at h
        simp [hk, throw_eq_ok] at h
    | call name position e =>
      obtain ⟨f, args, q, hk, hf, hd, ha, hq, hn, rfl, rfl⟩ := call_eq_ok.1 h
      exact .call hk hf hd (ih (s := .arguments args) ha) hq hn
    | arguments es =>
      obtain ⟨hk, rfl, rfl⟩ | ⟨hk, ha⟩ := arguments_eq_ok.1 h
      · exact .noArguments hk
      · exact .someArguments hk (ih (s := .argumentsFrom es) ha)
    | argumentsFrom es =>
      obtain ⟨e, q, he, ⟨hk, rfl, rfl⟩ | ⟨others, hk, ho, rfl⟩⟩ := argumentsFrom_eq_ok.1 h
      · exact .lastArgument (ih (s := .binary ..) he) hk
      · exact .nextArgument (ih (s := .binary ..) he) hk (ih (s := .argumentsFrom others) ho)

theorem answered_succ {s : Phrase} {p r : Parser} (n : Nat)
    (h : ∀ m, n ≤ m → s.Answered (m + 1) p r) : ∃ n, ∀ m, n ≤ m → s.Answered m p r := by
  refine ⟨n + 1, fun m hm => ?_⟩
  obtain ⟨k, rfl⟩ : ∃ k, m = k + 1 := ⟨m - 1, by omega⟩
  exact h k (by omega)

theorem answered_of_run {s : Phrase} {p r : Parser} (h : Run p s r) :
    ∃ n, ∀ m, n ≤ m → s.Answered m p r := by
  induction h with
  | binary _ _ ih₁ ih₂ =>
    obtain ⟨n₁, h₁⟩ := ih₁
    obtain ⟨n₂, h₂⟩ := ih₂
    exact answered_succ (n₁ + n₂) fun m hm =>
      binary_eq_ok.2 ⟨_, _, h₁ m (by omega), h₂ m (by omega)⟩
  | chainEnd hop => exact answered_succ 0 fun m _ => chain_eq_ok.2 (.inl ⟨hop, rfl, rfl⟩)
  | chainLink hop hd _ _ ih₁ ih₂ =>
    obtain ⟨n₁, h₁⟩ := ih₁
    obtain ⟨n₂, h₂⟩ := ih₂
    exact answered_succ (n₁ + n₂) fun m hm =>
      chain_eq_ok.2 (.inr ⟨_, _, _, hop, hd, h₁ m (by omega), h₂ m (by omega)⟩)
  | unaryPrimary hop _ ih =>
    obtain ⟨n, h⟩ := ih
    exact answered_succ n fun m hm => unary_eq_ok.2 (.inl ⟨hop, h m hm⟩)
  | unaryOperator hop hd _ ih =>
    obtain ⟨n, h⟩ := ih
    exact answered_succ n fun m hm => unary_eq_ok.2 (.inr ⟨_, _, _, hop, hd, h m hm, rfl, rfl⟩)
  | literal hk => exact answered_succ 0 fun m _ => (primary_literal_eq_ok hk).2 ⟨rfl, rfl⟩
  | field hk => exact answered_succ 0 fun m _ => (primary_field_eq_ok hk).2 ⟨rfl, rfl⟩
  | group hk hd _ hq ih =>
    obtain ⟨n, h⟩ := ih
    exact answered_succ n fun m hm =>
      (primary_group_eq_ok hk).2 ⟨_, _, hd, h m hm, hq, rfl, rfl⟩
  | conditional hk hl hd _ hq _ hr _ ht ih₁ ih₂ ih₃ =>
    obtain ⟨n₁, h₁⟩ := ih₁
    obtain ⟨n₂, h₂⟩ := ih₂
    obtain ⟨n₃, h₃⟩ := ih₃
    exact answered_succ (n₁ + n₂ + n₃) fun m hm =>
      (primary_conditional_eq_ok hk).2 ⟨_, _, _, _, _, _, hl, hd, h₁ m (by omega), hq,
        h₂ m (by omega), hr, h₃ m (by omega), ht, rfl, rfl⟩
  | identifier hk _ ih =>
    obtain ⟨n, h⟩ := ih
    exact answered_succ n fun m hm => (primary_identifier hk).trans (h m hm)
  | call hk hf hd _ hq hn ih =>
    obtain ⟨n, h⟩ := ih
    exact answered_succ n fun m hm =>
      call_eq_ok.2 ⟨_, _, _, hk, hf, hd, h m hm, hq, hn, rfl, rfl⟩
  | noArguments hk => exact answered_succ 0 fun m _ => arguments_eq_ok.2 (.inl ⟨hk, rfl, rfl⟩)
  | someArguments hk _ ih =>
    obtain ⟨n, h⟩ := ih
    exact answered_succ n fun m hm => arguments_eq_ok.2 (.inr ⟨hk, h m hm⟩)
  | lastArgument _ hk ih =>
    obtain ⟨n, h⟩ := ih
    exact answered_succ n fun m hm =>
      argumentsFrom_eq_ok.2 ⟨_, _, h m hm, .inl ⟨hk, rfl, rfl⟩⟩
  | nextArgument _ hk _ ih₁ ih₂ =>
    obtain ⟨n₁, h₁⟩ := ih₁
    obtain ⟨n₂, h₂⟩ := ih₂
    exact answered_succ (n₁ + n₂) fun m hm =>
      argumentsFrom_eq_ok.2 ⟨_, _, h₁ m (by omega), .inr ⟨_, hk, h₂ m (by omega), rfl⟩⟩

theorem Run.within {p q : Parser} {s : Phrase} (h : Run p s q) : q.Within p := by
  obtain ⟨n, hn⟩ := answered_of_run h
  have hs := hn n (Nat.le_refl n)
  have all := allMove n
  cases s with
  | binary least e => exact all.binary least p e q hs
  | chain least left length compared e => exact all.chain least left length compared p e q hs
  | unary e => exact all.unary p e q hs
  | primary e => exact all.primary p e q hs
  | call name position e => exact all.call name position p e q hs
  | arguments es => exact all.arguments p es q hs
  | argumentsFrom es => exact all.argumentsFrom p es q hs

theorem Run.closed {p q : Parser} {s : Phrase} (h : Run p s q) (hp : p.Closed) : q.Closed :=
  h.within.closed hp

theorem run_of_expression {p q : Parser} {e : Expr} (h : expression p = .ok e q) :
    Run p (.binary 0 e) q :=
  run_of_answered (s := .binary 0 e) h

theorem expression_eq_ok_iff {p q : Parser} (hp : p.Closed) {e : Expr} :
    expression p = .ok e q ↔ Run p (.binary 0 e) q := by
  constructor
  · exact run_of_expression
  · intro h
    obtain ⟨n, hn⟩ := answered_of_run h
    rw [expression_eq_binary hp n]
    exact hn _ (by omega)

theorem statements_eq_ok {n : Nat} {p r : Parser} {es : List Expr} :
    statements (n + 1) p = .ok es r ↔
      ∃ e q, expression p = .ok e q ∧
        ((q.current.kind ≠ .semicolon ∧ es = [e] ∧ r = q) ∨
        (q.current.kind = .semicolon ∧ q.step.current.kind = .eof ∧ es = [e] ∧ r = q.step) ∨
        ∃ others, q.current.kind = .semicolon ∧ q.step.current.kind ≠ .eof ∧
          statements n q.step = .ok others r ∧ es = e :: others) := by
  rw [statements, bind_eq_ok]
  refine exists_congr fun e => exists_congr fun q => and_congr_right fun _ => ?_
  rw [peek_bind]
  by_cases hk : q.current.kind = .semicolon
  · simp only [hk, if_true, advance_bind, peek_bind]
    by_cases hq : q.step.current.kind = .eof
    · simp [hq, pure_eq_ok]
    · simp only [hq, if_false, bind_eq_ok, pure_eq_ok]
      constructor
      · rintro ⟨others, s, ho, rfl, rfl⟩
        exact .inr (.inr ⟨others, trivial, hq, ho, rfl⟩)
      · rintro (⟨hne, -⟩ | ⟨-, hf, -⟩ | ⟨others, -, -, ho, rfl⟩)
        · exact absurd rfl hne
        · exact hf.elim
        · exact ⟨others, r, ho, rfl, rfl⟩
  · simp [hk, pure_eq_ok]

theorem statements_of_run {p q : Parser} {es : List Expr} (h : Statements p es q)
    (hp : p.Closed) : ∃ n, ∀ m, n ≤ m → statements (m + 1) p = .ok es q := by
  induction h with
  | last he hk =>
    have hfirst := (expression_eq_ok_iff hp).2 he
    exact ⟨0, fun m _ => statements_eq_ok.2 ⟨_, _, hfirst, .inl ⟨hk, rfl, rfl⟩⟩⟩
  | closed he hk hq =>
    have hfirst := (expression_eq_ok_iff hp).2 he
    exact ⟨0, fun m _ => statements_eq_ok.2 ⟨_, _, hfirst, .inr (.inl ⟨hk, hq, rfl, rfl⟩)⟩⟩
  | next he hk hq _ ih =>
    have hfirst := (expression_eq_ok_iff hp).2 he
    obtain ⟨n, hn⟩ := ih ((step_within _).closed (he.closed hp))
    refine ⟨n + 1, fun m hm => statements_eq_ok.2 ⟨_, _, hfirst, .inr (.inr ?_)⟩⟩
    obtain ⟨k, rfl⟩ : ∃ k, m = k + 1 := ⟨m - 1, by omega⟩
    exact ⟨_, hk, hq, hn k (by omega), rfl⟩

theorem run_of_statements {n : Nat} {p r : Parser} {es : List Expr}
    (h : statements n p = .ok es r) : Statements p es r := by
  induction n generalizing p es with
  | zero => cases h
  | succ n ih =>
    obtain ⟨e, q, he, ⟨hk, rfl, rfl⟩ | ⟨hk, hq, rfl, rfl⟩ | ⟨others, hk, hq, ho, rfl⟩⟩ :=
      statements_eq_ok.1 h
    · exact .last (run_of_expression he) hk
    · exact .closed (run_of_expression he) hk hq
    · exact .next (run_of_expression he) hk hq (ih ho)

theorem statements_steps_eq_ok_iff {p q : Parser} (hp : p.Closed) {es : List Expr} :
    statements p.steps p = .ok es q ↔ Statements p es q := by
  constructor
  · exact run_of_statements
  · intro h
    obtain ⟨n, hn⟩ := statements_of_run h hp
    rw [← statements_add_steps hp (by unfold steps; omega) (n + 1)]
    exact hn (p.steps + n) (by omega)

theorem formula_eq_ok {p r : Parser} {e : Expr} :
    formula p = .ok e r ↔
      ∃ items q, statements p.steps p = .ok items q ∧ q.current.kind = .eof ∧
        ((items = [e] ∧ r = q.step) ∨
        (items.length ≠ 1 ∧ e = .sequence (q.step.markAt p.origin) items ∧
          r = q.step.numbered)) := by
  rw [formula, get_bind, bind_eq_ok]
  refine exists_congr fun items => exists_congr fun q => and_congr_right fun _ => ?_
  rw [expect_bind_eq_ok]
  refine and_congr_right fun _ => ?_
  split
  · rename_i item
    rw [pure_eq_ok]
    simp [eq_comm]
  · rename_i hne
    have hlen : items.length ≠ 1 := by
      intro h
      obtain ⟨item, rfl⟩ := List.length_eq_one_iff.1 h
      exact hne item rfl
    have hone : items ≠ [e] := fun h => hne e h
    simp [hlen, hone, -bind_pure_comp, mark_bind, pure_eq_ok]

theorem run_of_formula {p r : Parser} {e : Expr} (h : formula p = .ok e r) :
    ∃ items q, Statements p items q ∧ q.current.kind = .eof ∧
      ((items = [e] ∧ r = q.step) ∨
      (items.length ≠ 1 ∧ e = .sequence (q.step.markAt p.origin) items ∧
        r = q.step.numbered)) := by
  obtain ⟨items, q, hitems, hrest⟩ := formula_eq_ok.1 h
  exact ⟨items, q, run_of_statements hitems, hrest⟩

theorem parseTokens_eq_ok_iff {limit : Nat} {tokens : List Token} {e : Expr} :
    parseTokens limit tokens = .ok e ↔
      ∃ items q, Statements (ofTokens limit tokens) items q ∧ q.current.kind = .eof ∧
        (items = [e] ∨ items.length ≠ 1 ∧
          e = .sequence (q.step.markAt (ofTokens limit tokens).origin) items) := by
  have hp := closed_ofTokens limit tokens
  unfold parseTokens
  constructor
  · intro h
    split at h
    · rename_i e' r hf
      cases h
      obtain ⟨items, q, hs, hq, ⟨hi, -⟩ | ⟨hi, he, -⟩⟩ := run_of_formula hf
      · exact ⟨items, q, hs, hq, .inl hi⟩
      · exact ⟨items, q, hs, hq, .inr ⟨hi, he⟩⟩
    · cases h
  · rintro ⟨items, q, hs, hq, hi⟩
    have hitems := (statements_steps_eq_ok_iff hp).2 hs
    rcases hi with hi | ⟨hi, he⟩
    · rw [formula_eq_ok.2 ⟨items, q, hitems, hq, .inl ⟨hi, rfl⟩⟩]
    · rw [formula_eq_ok.2 ⟨items, q, hitems, hq, .inr ⟨hi, he, rfl⟩⟩]

theorem eq_ok_of_mem_toOption {ε α : Type} {x : Except ε α} {a : α} (h : a ∈ x.toOption) :
    x = .ok a := by
  cases x with
  | ok b =>
    cases h
    rfl
  | error err => cases h

theorem exists_ok {ε α : Type} {x : Except ε α} {P : α → Prop} [DecidablePred P]
    (h : x.toOption.any (fun a => decide (P a)) = true) : ∃ a, x = .ok a ∧ P a := by
  cases x with
  | ok a => exact ⟨a, rfl, of_decide_eq_true h⟩
  | error err => cases h

end FieldFormula.Parser
