import FieldFormula.Proofs.Parser.Depth
import FieldFormula.Proofs.Parser.Failure
import FieldFormula.Proofs.Parser.Invariants

/-!
The limit of nesting only cuts off. Under a larger limit every step of the parser goes the same way
until the smaller limit stops it, and every open level has a token of its own behind it. Main
statement: an answer that is not about the limit is given under every larger limit too, and a limit
of as many levels as there are tokens stops nothing (`limit_only_cuts_off`).
-/
namespace FieldFormula.Parser

variable {α β : Type} {p q : Parser}

def TooDeep (r : EStateM.Result ParseError Parser α) : Prop :=
  ∃ limit position q, r = .error ⟨.tooDeep limit, position⟩ q

instance : DecidablePred (@TooDeep α)
  | .ok _ _ => isFalse (by rintro ⟨_, _, _, h⟩; cases h)
  | .error ⟨.tooDeep limit, position⟩ q => isTrue ⟨limit, position, q, rfl⟩
  | .error ⟨.unexpected _, _⟩ _ | .error ⟨.expected _ _, _⟩ _ | .error ⟨.unknownFunction _, _⟩ _
  | .error ⟨.wrongArity _ _ _, _⟩ _ => isFalse (by rintro ⟨_, _, _, h⟩; cases h)

def underLimit (bound : Nat) :
    EStateM.Result ParseError Parser α → EStateM.Result ParseError Parser α
  | .ok a q => .ok a (q.withLimit bound)
  | .error err q => .error err (q.withLimit bound)

/-- The step keeps the limit, and is stopped by it or goes the same way under every larger one. -/
structure Extends (α : Type) (m : ParseM α) : Prop where
  keeps : ∀ p a q, m p = .ok a q → q.limit = p.limit
  answers : ∀ p bound, p.limit ≤ bound →
    TooDeep (m p) ∨ m (p.withLimit bound) = underLimit bound (m p)

theorem extends_of_ok {m : ParseM α} (value : Parser → α) (next : Parser → Parser)
    (hm : ∀ p, m p = .ok (value p) (next p)) (hlimit : ∀ p, (next p).limit = p.limit)
    (hvalue : ∀ p bound, value (p.withLimit bound) = value p)
    (hnext : ∀ p bound, next (p.withLimit bound) = (next p).withLimit bound) : Extends α m := by
  constructor
  · intro p a q h
    rw [hm] at h
    cases h
    exact hlimit p
  · intro p bound _
    right
    rw [hm, hm, hvalue, hnext]
    rfl

theorem Extends.bind {m : ParseM α} {f : α → ParseM β} (hm : Extends α m)
    (hf : ∀ a, Extends β (f a)) : Extends β (m >>= f) := by
  constructor
  · intro p b r h
    obtain ⟨a, q, hq, hr⟩ := bind_eq_ok.1 h
    rw [(hf a).keeps q b r hr, hm.keeps p a q hq]
  · intro p bound hle
    simp only [Bind.bind, EStateM.bind]
    rcases hm.answers p bound hle with ⟨limit, position, q, hq⟩ | hsame
    · rw [hq]
      exact .inl ⟨limit, position, q, rfl⟩
    · rw [hsame]
      cases hq : m p with
      | ok a q =>
        have hkeeps := hm.keeps p a q hq
        exact (hf a).answers q bound (by omega)
      | error err q => exact .inr rfl

theorem extends_enter (position : Nat) : Extends Unit (enter position) := by
  constructor
  · intro p a q h
    unfold enter at h
    dsimp only at h
    split at h <;> cases h
    rfl
  · intro p bound hle
    by_cases hroom : p.depth < p.limit
    · have hroom' : p.depth < bound := Nat.lt_of_lt_of_le hroom hle
      right
      simp only [enter, withLimit_depth, withLimit_limit, hroom, hroom', if_true]
      rfl
    · left
      simp only [enter, hroom, if_false]
      exact ⟨_, _, _, rfl⟩

theorem inherited_extends : Inherited (fun _ => True) Extends where
  pure a := extends_of_ok (fun _ => a) (fun p => p) (fun _ => rfl) (fun _ => rfl)
    (fun _ _ => rfl) fun _ _ => rfl
  bind := Extends.bind
  peek hf := ⟨fun p => (hf p.current trivial).keeps p, fun p => (hf p.current trivial).answers p⟩
  advance := extends_of_ok (fun _ => ()) step (fun _ => rfl) step_limit (fun _ _ => rfl)
    fun p bound => withLimit_step bound p
  enter _ := extends_enter _
  leave levels := extends_of_ok (fun _ => ()) (shallower levels) (fun _ => rfl) (fun _ => rfl)
    (fun _ _ => rfl) fun _ _ => rfl
  mark position := extends_of_ok (·.markAt position) numbered (fun _ => rfl) (fun _ => rfl)
    (fun _ _ => rfl) fun _ _ => rfl
  exhausted := by
    intro α
    constructor
    · intro p a q h
      cases h
    · exact fun p _ _ => .inl ⟨_, _, _, rfl⟩
  throw _ _ := by
    constructor
    · intro p a q h
      cases h
    · exact fun _ _ _ => .inr rfl

theorem local_extends : Local Extends := by
  intro α m h
  constructor
  · intro p a q hq
    obtain ⟨m', hm', heq⟩ := h p
    rw [heq p rfl rfl] at hq
    exact hm'.keeps p a q hq
  · intro p bound hle
    obtain ⟨m', hm', heq⟩ := h p
    rw [heq p rfl rfl, heq (p.withLimit bound) rfl rfl]
    exact hm'.answers p bound hle

structure Roomy (p : Parser) : Prop where
  closed : p.Closed
  room : p.depth + p.ahead.length ≤ p.limit

theorem Roomy.step (h : p.Roomy) : p.step.Roomy := by
  have hlength := (step_within p).length_le
  have hroom := h.room
  exact ⟨(step_within p).closed h.closed, by rw [step_depth, step_limit]; omega⟩

theorem Roomy.opened (h : p.Roomy) (hk : p.current.kind ≠ .eof) (hq : q.Within p.step)
    (hdepth : q.depth = p.depth) (hlimit : q.limit = p.limit) :
    q.depth < q.limit ∧ q.deeper.Roomy := by
  have hlength := hq.length_le
  have hpassed := step_length h.closed hk
  have hroom := h.room
  have hclosed := hq.closed ((step_within p).closed h.closed)
  exact ⟨by omega, hclosed, by change q.depth + 1 + q.ahead.length ≤ q.limit; omega⟩

theorem Roomy.shallower (h : p.Roomy) (levels : Nat) : (p.shallower levels).Roomy :=
  ⟨h.closed, Nat.le_trans (Nat.add_le_add_right (Nat.sub_le _ _) _) h.room⟩

theorem Roomy.numbered (h : p.Roomy) : p.numbered.Roomy := ⟨h.closed, h.room⟩

/-- The answer leaves room and at most `left` tokens ahead, or is an error that lies in the
tokens. -/
def Clear (left : Nat) : EStateM.Result ParseError Parser α → Prop
  | .ok _ q => q.Roomy ∧ q.ahead.length ≤ left
  | .error err _ => err.cause.InTokens

theorem Clear.mono {left more : Nat} {r : EStateM.Result ParseError Parser α} (h : Clear left r)
    (hle : left ≤ more) : Clear more r := by
  cases r with
  | ok a q => exact ⟨h.1, Nat.le_trans h.2 hle⟩
  | error err q => exact h

theorem Clear.not_tooDeep {left : Nat} {r : EStateM.Result ParseError Parser α}
    (h : Clear left r) : ¬TooDeep r := by
  rintro ⟨limit, position, q, rfl⟩
  exact h

theorem Clear.bind {middle left : Nat} {m : ParseM α} {f : α → ParseM β}
    (hm : Clear middle (m p))
    (hf : ∀ a q, q.Roomy → q.ahead.length ≤ middle → Clear left (f a q)) :
    Clear left ((m >>= f) p) := by
  simp only [Bind.bind, EStateM.bind]
  cases hq : m p with
  | ok a q =>
    rw [hq] at hm
    exact hf a q hm.1 hm.2
  | error err q =>
    rw [hq] at hm
    exact hm

theorem clear_expect {kind : Token.Kind} {wanted : String} {f : Unit → ParseM β} {left : Nat}
    (hf : p.current.kind = kind → Clear left (f () p.step)) :
    Clear left ((expect kind wanted >>= f) p) := by
  rw [expect, bind_assoc, peek_bind]
  by_cases hk : p.current.kind = kind
  · rw [if_pos hk, advance_bind]
    exact hf hk
  · rw [if_neg hk]
    trivial

theorem clear_enter {position left : Nat} {f : Unit → ParseM β} (hroom : p.depth < p.limit)
    (hf : Clear left (f () p.deeper)) : Clear left ((enter position >>= f) p) := by
  simp only [Bind.bind, EStateM.bind, enter, if_pos hroom]
  exact hf

structure AllClear (n : Nat) : Prop where
  binary : ∀ least (p : Parser), p.Roomy → 3 * p.ahead.length + 3 ≤ n →
    Clear p.ahead.length (binary n least p)
  chain : ∀ least left length compared (p : Parser), p.Roomy → 3 * p.ahead.length + 1 ≤ n →
    Clear p.ahead.length (chain n least left length compared p)
  unary : ∀ p : Parser, p.Roomy → 3 * p.ahead.length + 2 ≤ n → Clear p.ahead.length (unary n p)
  primary : ∀ p : Parser, p.Roomy → 3 * p.ahead.length + 1 ≤ n →
    Clear p.ahead.length (primary n p)
  call : ∀ name position (p : Parser), p.Roomy → 3 * p.ahead.length + 3 ≤ n →
    Clear p.ahead.length (call n name position p)
  arguments : ∀ p : Parser, p.Roomy → 3 * p.ahead.length + 5 ≤ n →
    Clear p.ahead.length (arguments n p)
  argumentsFrom : ∀ p : Parser, p.Roomy → 3 * p.ahead.length + 4 ≤ n →
    Clear p.ahead.length (argumentsFrom n p)

variable {n : Nat}

theorem AllClear.binary_succ (ih : AllClear n) (least : Nat) (hp : p.Roomy)
    (hn : 3 * p.ahead.length + 3 ≤ n + 1) :
    Clear p.ahead.length (Parser.binary (n + 1) least p) := by
  rw [Parser.binary]
  apply (ih.unary p hp (by omega)).bind
  intro left q hq hlength
  exact (ih.chain _ _ _ _ q hq (by omega)).mono hlength

theorem AllClear.chain_succ (ih : AllClear n) (least : Nat) (left : Expr) (length : Nat)
    (compared : Bool) (hp : p.Roomy) (hn : 3 * p.ahead.length + 1 ≤ n + 1) :
    Clear p.ahead.length (Parser.chain (n + 1) least left length compared p) := by
  rw [Parser.chain, peek_bind]
  cases ho : infixOp? least compared p.current.kind with
  | none => exact ⟨hp.shallower length, Nat.le_refl _⟩
  | some op =>
    have hk := kind_ne_eof_of_infixOp? ho
    have hpassed := step_length hp.closed hk
    obtain ⟨hroom, hopened⟩ := hp.opened hk (.refl _) (step_depth p) (step_limit p)
    apply clear_enter hroom
    apply (ih.binary _ _ hopened (by change 3 * p.step.ahead.length + 3 ≤ n; omega)).bind
    intro right q hq hlength
    change q.ahead.length ≤ p.step.ahead.length at hlength
    apply (ih.chain _ _ _ _ q.numbered hq.numbered ?_).mono
    · exact Nat.le_trans hlength (by omega)
    · change 3 * q.ahead.length + 1 ≤ n
      omega

theorem AllClear.unary_succ (ih : AllClear n) (hp : p.Roomy)
    (hn : 3 * p.ahead.length + 2 ≤ n + 1) :
    Clear p.ahead.length (Parser.unary (n + 1) p) := by
  rw [Parser.unary, peek_bind]
  cases ho : prefixOp? p.current.kind with
  | none => exact ih.primary p hp (by omega)
  | some op =>
    have hk := kind_ne_eof_of_prefixOp? ho
    have hpassed := step_length hp.closed hk
    obtain ⟨hroom, hopened⟩ := hp.opened hk (.refl _) (step_depth p) (step_limit p)
    apply clear_enter hroom
    apply (ih.unary _ hopened (by change 3 * p.step.ahead.length + 2 ≤ n; omega)).bind
    intro operand q hq hlength
    change q.ahead.length ≤ p.step.ahead.length at hlength
    exact ⟨(hq.shallower 1).numbered, Nat.le_trans hlength (by omega)⟩

theorem AllClear.inside (ih : AllClear n) {middle left : Nat} {f : Expr → ParseM β}
    (hq : q.Roomy) (hmiddle : q.ahead.length ≤ middle) (hn : 3 * middle + 3 ≤ n)
    (hf : ∀ e r, r.Roomy → r.ahead.length ≤ middle → Clear left (f e r)) :
    Clear left ((Parser.binary n 0 >>= f) q) := by
  apply ((ih.binary 0 q hq (by omega)).mono hmiddle).bind
  exact hf

theorem AllClear.primary_succ (ih : AllClear n) (hp : p.Roomy)
    (hn : 3 * p.ahead.length + 1 ≤ n + 1) :
    Clear p.ahead.length (Parser.primary (n + 1) p) := by
  have hstep := (step_within p).length_le
  rw [Parser.primary, peek_bind]
  cases hk : p.current.kind with
  | literal _ | field _ => exact ⟨hp.step.numbered, hstep⟩
  | leftParen =>
    have hpassed := step_length hp.closed (by simp [hk])
    obtain ⟨hroom, hopened⟩ := hp.opened (by simp [hk]) (.refl _) (step_depth p) (step_limit p)
    apply clear_enter hroom
    apply ih.inside hopened (Nat.le_refl p.step.ahead.length) (by omega)
    intro inner q hq hlength
    apply clear_expect
    intro _
    have hnext := (step_within q).length_le
    exact ⟨(hq.step.shallower 1).numbered, Nat.le_trans hnext (by omega)⟩
  | conditional =>
    have hpassed := step_length hp.closed (by simp [hk])
    apply clear_expect
    intro _
    have hparen := (step_within p.step).length_le
    obtain ⟨hroom, hopened⟩ :=
      hp.opened (by simp [hk]) (step_within p.step) (by simp) (by simp)
    apply clear_enter hroom
    apply ih.inside hopened hparen (by omega)
    intro condition q hq hlength
    apply clear_expect
    intro _
    have hcomma := (step_within q).length_le
    apply ih.inside hq.step (Nat.le_trans hcomma hlength) (by omega)
    intro yes q hq hlength
    apply clear_expect
    intro _
    have hcomma := (step_within q).length_le
    apply ih.inside hq.step (Nat.le_trans hcomma hlength) (by omega)
    intro no q hq hlength
    apply clear_expect
    intro _
    have hnext := (step_within q).length_le
    exact ⟨(hq.step.shallower 1).numbered, Nat.le_trans hnext (by omega)⟩
  | identifier name =>
    have hpassed := step_length hp.closed (by simp [hk])
    exact (ih.call name _ p.step hp.step (by omega)).mono hstep
  | _ => trivial

theorem AllClear.call_succ (ih : AllClear n) (name : String) (position : Nat) (hp : p.Roomy)
    (hn : 3 * p.ahead.length + 3 ≤ n + 1) :
    Clear p.ahead.length (Parser.call (n + 1) name position p) := by
  rw [Parser.call, peek_bind]
  by_cases hk : p.current.kind = .leftParen
  · rw [if_pos hk]
    cases Builtin.find? name with
    | none => trivial
    | some f =>
      have hpassed := step_length hp.closed (by simp [hk])
      obtain ⟨hroom, hopened⟩ := hp.opened (by simp [hk]) (.refl _) (step_depth p) (step_limit p)
      apply clear_enter hroom
      apply (ih.arguments _ hopened (by change 3 * p.step.ahead.length + 5 ≤ n; omega)).bind
      intro args q hq hlength
      change q.ahead.length ≤ p.step.ahead.length at hlength
      apply clear_expect
      intro _
      have hnext := (step_within q).length_le
      rw [leave_bind]
      split
      · exact ⟨(hq.step.shallower 1).numbered, Nat.le_trans hnext (by omega)⟩
      · trivial
  · rw [if_neg hk]
    trivial

theorem AllClear.arguments_succ (ih : AllClear n) (hp : p.Roomy)
    (hn : 3 * p.ahead.length + 5 ≤ n + 1) :
    Clear p.ahead.length (Parser.arguments (n + 1) p) := by
  rw [Parser.arguments, peek_bind]
  split
  · exact ⟨hp, Nat.le_refl _⟩
  · exact ih.argumentsFrom p hp (by omega)

theorem AllClear.argumentsFrom_succ (ih : AllClear n) (hp : p.Roomy)
    (hn : 3 * p.ahead.length + 4 ≤ n + 1) :
    Clear p.ahead.length (Parser.argumentsFrom (n + 1) p) := by
  rw [Parser.argumentsFrom]
  apply (ih.binary 0 p hp (by omega)).bind
  intro first q hq hlength
  rw [peek_bind]
  split
  · rename_i hk
    have hpassed := step_length hq.closed (by simp [hk])
    apply (ih.argumentsFrom q.step hq.step (by omega)).bind
    intro others r hr hnext
    exact ⟨hr, Nat.le_trans hnext (by omega)⟩
  · exact ⟨hq, hlength⟩

theorem allClear (n : Nat) : AllClear n := by
  induction n with
  | zero => constructor <;> intros <;> omega
  | succ n ih =>
    exact ⟨fun least _ => ih.binary_succ least,
      fun least left length compared _ => ih.chain_succ least left length compared,
      fun _ => ih.unary_succ, fun _ => ih.primary_succ,
      fun name position _ => ih.call_succ name position,
      fun _ => ih.arguments_succ, fun _ => ih.argumentsFrom_succ⟩

theorem clear_expression (hp : p.Roomy) : Clear p.ahead.length (expression p) :=
  (allClear p.steps).binary 0 p hp (by unfold steps; omega)

theorem clear_statements (hp : p.Roomy) (hn : p.ahead.length + 1 ≤ n) :
    Clear p.ahead.length (statements n p) := by
  induction n generalizing p with
  | zero => omega
  | succ n ih =>
    rw [statements]
    apply (clear_expression hp).bind
    intro first q hq hlength
    rw [peek_bind]
    split
    · rename_i hk
      have hpassed := step_length hq.closed (by simp [hk])
      rw [advance_bind, peek_bind]
      split
      · exact ⟨hq.step, by omega⟩
      · apply (ih hq.step (by omega)).bind
        intro others r hr hnext
        exact ⟨hr, Nat.le_trans hnext (by omega)⟩
    · exact ⟨hq, hlength⟩

theorem clear_formula (hp : p.Roomy) : Clear p.ahead.length (formula p) := by
  rw [formula, get_bind]
  apply (clear_statements hp (by unfold steps; omega)).bind
  intro items q hq hlength
  apply clear_expect
  intro _
  have hnext := (step_within q).length_le
  split
  · exact ⟨hq.step, Nat.le_trans hnext hlength⟩
  · exact ⟨hq.step.numbered, Nat.le_trans hnext hlength⟩

theorem length_ahead_ofTokens (limit : Nat) (tokens : List Token) :
    (ofTokens limit tokens).ahead.length ≤ tokens.length := by
  cases tokens with
  | nil => exact Nat.le_refl _
  | cons t ts =>
    have hclosing : (closing (ts.getLastD t)).length ≤ 1 := by
      unfold closing
      split <;> simp
    change (ts ++ closing (ts.getLastD t)).length ≤ ts.length + 1
    rw [List.length_append]
    omega

theorem roomy_ofTokens {limit : Nat} {tokens : List Token} (h : tokens.length ≤ limit) :
    (ofTokens limit tokens).Roomy := by
  have hlength := length_ahead_ofTokens limit tokens
  obtain ⟨hdepth, hlimit⟩ := depth_ofTokens limit tokens
  exact ⟨closed_ofTokens limit tokens, by omega⟩

theorem limit_only_cuts_off {m : ParseM Expr} (hm : m = expression ∨ m = formula)
    (tokens : List Token) {limit bound : Nat} (hle : limit ≤ bound) :
    (¬TooDeep (m (ofTokens limit tokens)) →
      m (ofTokens bound tokens) = underLimit bound (m (ofTokens limit tokens))) ∧
    (∀ e q, m (ofTokens limit tokens) = .ok e q →
      m (ofTokens bound tokens) = .ok e (q.withLimit bound)) ∧
    (tokens.length ≤ limit → ¬TooDeep (m (ofTokens limit tokens))) := by
  have hextends : Extends Expr m := by
    rcases hm with rfl | rfl
    · exact inherited_extends.expression local_extends
    · exact inherited_extends.formula local_extends
  have hsame (h : ¬TooDeep (m (ofTokens limit tokens))) :
      m (ofTokens bound tokens) = underLimit bound (m (ofTokens limit tokens)) := by
    have hlimit := (depth_ofTokens limit tokens).2
    have hanswers := hextends.answers (ofTokens limit tokens) bound (by omega)
    rw [withLimit_ofTokens] at hanswers
    exact hanswers.resolve_left h
  refine ⟨hsame, ?_, ?_⟩
  · intro e q hq
    rw [hsame, hq]
    · rfl
    · rw [hq]
      rintro ⟨_, _, _, h⟩
      cases h
  · intro hlength
    have hroomy := roomy_ofTokens hlength
    rcases hm with rfl | rfl
    · exact (clear_expression hroomy).not_tooDeep
    · exact (clear_formula hroomy).not_tooDeep

/-- In `-(1 + 2` the parenthesis is missed under three levels as under eight, and two levels are
too few to get there. -/
theorem limit_only_cuts_off_unclosed :
    let tokens : List Token := ([.operator .subtract, .leftParen,
      .literal (.number (.ofDigit 1)), .operator .add,
      .literal (.number (.ofDigit 2))] : List Token.Kind).map fun kind => ⟨kind, "", 0⟩
    3 ≤ 8 ∧ TooDeep (formula (ofTokens 2 tokens)) ∧ ¬TooDeep (formula (ofTokens 3 tokens)) ∧
      formula (ofTokens 8 tokens) = underLimit 8 (formula (ofTokens 3 tokens)) := by
  intro tokens
  have hdeep : ¬TooDeep (formula (ofTokens 3 tokens)) := by decide +kernel
  exact ⟨by decide, by decide +kernel, hdeep,
    (limit_only_cuts_off (.inr rfl) tokens (by decide)).1 hdeep⟩

end FieldFormula.Parser
