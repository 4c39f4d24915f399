import FieldFormula.Expr.Parser

/-!
The steps allotted to a parser are enough. A parser only moves on through its tokens, and no more
than three calls for each token lie one within another, so further steps leave the answer as it is
(`expression_eq_binary`, `statements_add_steps`).
-/
namespace FieldFormula.Parser

def remaining (p : Parser) : List Token := p.current :: p.ahead

/-- The last token is the end of the formula. -/
def Closed (p : Parser) : Prop := p.remaining.getLast?.map Token.kind = some .eof

def Within (q p : Parser) : Prop := q.remaining <:+ p.remaining

theorem Within.refl (p : Parser) : p.Within p := List.suffix_refl _

theorem Within.trans {p q r : Parser} (h : r.Within q) (k : q.Within p) : r.Within p :=
  List.IsSuffix.trans h k

theorem Within.length_le {p q : Parser} (h : q.Within p) : q.ahead.length ≤ p.ahead.length :=
  Nat.le_of_succ_le_succ (List.IsSuffix.length_le h)

theorem Within.closed {p q : Parser} (h : q.Within p) (hp : p.Closed) : q.Closed := by
  obtain ⟨ts, hts⟩ := h
  have hlast : p.remaining.getLast? = q.remaining.getLast? := by
    rw [← hts, List.getLast?_append, remaining, List.getLast?_cons]
    rfl
  rwa [Closed, ← hlast]

theorem step_within (p : Parser) : p.step.Within p := by
  unfold step
  split
  · exact .refl p
  · rename_i t ts h
    rw [Within, remaining, remaining, h]
    exact List.suffix_cons p.current (t :: ts)

theorem step_length {p : Parser} (h : p.Closed) (hk : p.current.kind ≠ .eof) :
    p.step.ahead.length + 1 = p.ahead.length := by
  unfold step
  split
  · rename_i hn
    rw [Closed, remaining, hn] at h
    exact absurd (Option.some.inj h) hk
  · rename_i t ts hts
    rw [hts]
    rfl

def Moves {α : Type} (m : ParseM α) : Prop := ∀ p a q, m p = .ok a q → q.Within p

variable {α β : Type}

theorem Moves.bind {m : ParseM α} {f : α → ParseM β} (hm : Moves m) (hf : ∀ a, Moves (f a)) :
    Moves (m >>= f) := by
  intro p b r h
  simp only [Bind.bind, EStateM.bind] at h
  split at h
  · rename_i a q hq
    exact (hf a q b r h).trans (hm p a q hq)
  · cases h

theorem moves_pure (a : α) : Moves (pure a : ParseM α) := by
  intro p b q h
  cases h
  exact .refl p

theorem moves_throw (e : ParseError) : Moves (throw e : ParseM α) := fun _ _ _ h => nomatch h
theorem moves_exhausted : Moves (exhausted : ParseM α) := fun _ _ _ h => nomatch h

theorem moves_peek : Moves peek := by
  intro p b q h
  cases h
  exact .refl p

theorem moves_advance : Moves advance := by
  intro p b q h
  cases h
  exact step_within p

theorem moves_expect (kind : Token.Kind) (wanted : String) : Moves (expect kind wanted) := by
  refine moves_peek.bind fun t => ?_
  split
  · exact moves_advance
  · exact moves_throw _

theorem moves_enter (position : Nat) : Moves (enter position) := by
  intro p b q h
  unfold enter at h
  dsimp only at h
  split at h
  · cases h
    exact List.suffix_refl _
  · cases h

theorem moves_leave (levels : Nat) : Moves (leave levels) := by
  intro p b q h
  cases h
  exact List.suffix_refl _

theorem moves_mark (position : Nat) : Moves (mark position) := by
  intro p b q h
  cases h
  exact List.suffix_refl _

structure AllMove (n : Nat) : Prop where
  binary : ∀ least, Moves (binary n least)
  chain : ∀ least left length compared, Moves (chain n least left length compared)
  unary : Moves (unary n)
  primary : Moves (primary n)
  call : ∀ name position, Moves (call n name position)
  arguments : Moves (arguments n)
  argumentsFrom : Moves (argumentsFrom n)

theorem allMove (n : Nat) : AllMove n := by
  induction n with
  | zero =>
    exact ⟨fun _ => moves_exhausted, fun _ _ _ _ => moves_exhausted, moves_exhausted,
      moves_exhausted, fun _ _ => moves_exhausted, moves_exhausted, moves_exhausted⟩
  | succ n ih =>
    refine ⟨fun least => ih.unary.bind fun _ => ih.chain _ _ _ _,
      fun least left length compared => moves_peek.bind fun t => ?_,
      moves_peek.bind fun t => ?_, moves_peek.bind fun t => ?_,
      fun name position => moves_peek.bind fun t => ?_, moves_peek.bind fun t => ?_,
      (ih.binary 0).bind fun _ => moves_peek.bind fun t => ?_⟩
    · split
      · exact (moves_leave _).bind fun _ => moves_pure _
      · exact moves_advance.bind fun _ => (moves_enter _).bind fun _ => (ih.binary _).bind fun _ =>
          (moves_mark _).bind fun _ => ih.chain _ _ _ _
    · split
      · exact ih.primary
      · exact moves_advance.bind fun _ => (moves_enter _).bind fun _ => ih.unary.bind fun _ =>
          (moves_leave _).bind fun _ => (moves_mark _).bind fun _ => moves_pure _
    · split
      · exact moves_advance.bind fun _ => (moves_mark _).bind fun _ => moves_pure _
      · exact moves_advance.bind fun _ => (moves_mark _).bind fun _ => moves_pure _
      · exact moves_advance.bind fun _ => (moves_enter _).bind fun _ => (ih.binary _).bind fun _ =>
          (moves_expect _ _).bind fun _ => (moves_leave _).bind fun _ =>
          (moves_mark _).bind fun _ => moves_pure _
      · exact moves_advance.bind fun _ => (moves_expect _ _).bind fun _ =>
          (moves_enter _).bind fun _ => (ih.binary _).bind fun _ => (moves_expect _ _).bind fun _ =>
          (ih.binary _).bind fun _ => (moves_expect _ _).bind fun _ => (ih.binary _).bind fun _ =>
          (moves_expect _ _).bind fun _ => (moves_leave _).bind fun _ =>
          (moves_mark _).bind fun _ => moves_pure _
      · exact moves_advance.bind fun _ => ih.call _ _
      · exact moves_throw _
    · split
      · split
        · exact moves_throw _
        · refine moves_advance.bind fun _ => (moves_enter _).bind fun _ =>
            ih.arguments.bind fun _ => (moves_expect _ _).bind fun _ =>
            (moves_leave _).bind fun _ => ?_
          split
          · exact (moves_mark _).bind fun _ => moves_pure _
          · exact moves_throw _
      · exact moves_throw _
    · split
      · exact moves_pure _
      · exact ih.argumentsFrom
    · split
      · exact moves_advance.bind fun _ => ih.argumentsFrom.bind fun _ => moves_pure _
      · exact moves_pure _

theorem bind_agree {m m' : ParseM α} {f f' : α → ParseM β} {p : Parser} (hm : m' p = m p)
    (hf : ∀ a q, m p = .ok a q → f' a q = f a q) : (m' >>= f') p = (m >>= f) p := by
  simp only [Bind.bind, EStateM.bind]
  rw [hm]
  split
  · rename_i a q hq
    exact hf a q hq
  · rfl

/-- With `n` steps all functions of the parser answer as with one more, when few enough tokens are
left. -/
structure AllSettle (n : Nat) : Prop where
  binary : ∀ least (p : Parser), p.Closed → 3 * p.ahead.length + 3 ≤ n →
    binary (n + 1) least p = binary n least p
  chain : ∀ least left length compared (p : Parser), p.Closed → 3 * p.ahead.length + 1 ≤ n →
    chain (n + 1) least left length compared p = chain n least left length compared p
  unary : ∀ p : Parser, p.Closed → 3 * p.ahead.length + 2 ≤ n → unary (n + 1) p = unary n p
  primary : ∀ p : Parser, p.Closed → 3 * p.ahead.length + 1 ≤ n → primary (n + 1) p = primary n p
  call : ∀ name position (p : Parser), p.Closed → 3 * p.ahead.length + 3 ≤ n →
    call (n + 1) name position p = call n name position p
  arguments : ∀ p : Parser, p.Closed → 3 * p.ahead.length + 5 ≤ n →
    arguments (n + 1) p = arguments n p
  argumentsFrom : ∀ p : Parser, p.Closed → 3 * p.ahead.length + 4 ≤ n →
    argumentsFrom (n + 1) p = argumentsFrom n p

theorem kind_ne_eof_of_infixOp? {least : Nat} {compared : Bool} {kind : Token.Kind} {op : BinaryOp}
    (h : infixOp? least compared kind = some op) : kind ≠ .eof := by
  rintro rfl
  cases h

theorem kind_ne_eof_of_prefixOp? {kind : Token.Kind} {op : UnaryOp}
    (h : prefixOp? kind = some op) : kind ≠ .eof := by
  rintro rfl
  cases h

theorem settle_binary {n : Nat} (ih : AllSettle n) (least : Nat) {p : Parser} (hp : p.Closed)
    (hn : 3 * p.ahead.length + 3 ≤ n + 1) : binary (n + 2) least p = binary (n + 1) least p :=
  bind_agree (ih.unary p hp (by omega)) fun e q hq => by
    have hw := (allMove n).unary p e q hq
    have hl := hw.length_le
    exact ih.chain _ _ _ _ q (hw.closed hp) (by omega)

theorem settle_chain {n : Nat} (ih : AllSettle n) (least : Nat) (left : Expr) (length : Nat)
    (compared : Bool) {p : Parser} (hp : p.Closed) (hn : 3 * p.ahead.length + 1 ≤ n + 1) :
    chain (n + 2) least left length compared p = chain (n + 1) least left length compared p := by
  refine bind_agree rfl fun t q hq => ?_
  cases hq
  cases ho : infixOp? least compared p.current.kind with
  | none => rfl
  | some op =>
    have hs := step_length hp (kind_ne_eof_of_infixOp? ho)
    have hc := (step_within p).closed hp
    refine bind_agree rfl fun _ q hq => ?_
    cases hq
    refine bind_agree rfl fun _ q hq => ?_
    have hw := moves_enter _ _ _ _ hq
    have hl := hw.length_le
    refine bind_agree (ih.binary _ q (hw.closed hc) (by omega)) fun right r hr => ?_
    have kw := (allMove n).binary _ q right r hr
    have kl := kw.length_le
    refine bind_agree rfl fun m s hm => ?_
    have jw := moves_mark _ _ _ _ hm
    have jl := jw.length_le
    exact ih.chain _ _ _ _ s (jw.closed (kw.closed (hw.closed hc))) (by omega)

theorem settle_unary {n : Nat} (ih : AllSettle n) {p : Parser} (hp : p.Closed)
    (hn : 3 * p.ahead.length + 2 ≤ n + 1) : unary (n + 2) p = unary (n + 1) p := by
  refine bind_agree rfl fun t q hq => ?_
  cases hq
  cases ho : prefixOp? p.current.kind with
  | none => exact ih.primary p hp (by omega)
  | some op =>
    have hs := step_length hp (kind_ne_eof_of_prefixOp? ho)
    have hc := (step_within p).closed hp
    refine bind_agree rfl fun _ q hq => ?_
    cases hq
    refine bind_agree rfl fun _ q hq => ?_
    have hw := moves_enter _ _ _ _ hq
    have hl := hw.length_le
    exact bind_agree (ih.unary q (hw.closed hc) (by omega)) fun _ _ _ => rfl

theorem settle_arguments {n : Nat} (ih : AllSettle n) {p : Parser} (hp : p.Closed)
    (hn : 3 * p.ahead.length + 5 ≤ n + 1) : arguments (n + 2) p = arguments (n + 1) p := by
  refine bind_agree rfl fun t q hq => ?_
  cases hq
  split
  · rfl
  · exact ih.argumentsFrom p hp (by omega)

theorem settle_argumentsFrom {n : Nat} (ih : AllSettle n) {p : Parser} (hp : p.Closed)
    (hn : 3 * p.ahead.length + 4 ≤ n + 1) : argumentsFrom (n + 2) p = argumentsFrom (n + 1) p := by
  refine bind_agree (ih.binary 0 p hp (by omega)) fun first q hq => ?_
  have hw := (allMove n).binary _ p first q hq
  have hl := hw.length_le
  refine bind_agree rfl fun t r hr => ?_
  cases hr
  split
  · rename_i hk
    have hs := step_length (hw.closed hp) (by simp [hk])
    refine bind_agree rfl fun _ r hr => ?_
    cases hr
    exact bind_agree (ih.argumentsFrom q.step ((step_within q).closed (hw.closed hp)) (by omega))
      fun _ _ _ => rfl
  · rfl

theorem settle_call {n : Nat} (ih : AllSettle n) (name : String) (position : Nat) {p : Parser}
    (hp : p.Closed) (hn : 3 * p.ahead.length + 3 ≤ n + 1) :
    call (n + 2) name position p = call (n + 1) name position p := by
  refine bind_agree rfl fun t q hq => ?_
  cases hq
  split
  · rename_i hk
    have hs := step_length hp (by simp [hk])
    cases Builtin.find? name with
    | none => rfl
    | some f =>
      refine bind_agree rfl fun _ q hq => ?_
      cases hq
      refine bind_agree rfl fun _ q hq => ?_
      have hw := moves_enter _ _ _ _ hq
      have hl := hw.length_le
      exact bind_agree (ih.arguments q (hw.closed ((step_within p).closed hp)) (by omega))
        fun _ _ _ => rfl
  · rfl

theorem settle_primary {n : Nat} (ih : AllSettle n) {p : Parser} (hp : p.Closed)
    (hn : 3 * p.ahead.length + 1 ≤ n + 1) : primary (n + 2) p = primary (n + 1) p := by
  have hc := (step_within p).closed hp
  have settle (hk : p.current.kind ≠ .eof) {q : Parser} (hw : q.Within p.step) :
      binary (n + 1) 0 q = binary n 0 q := by
    have hs := step_length hp hk
    have hl := hw.length_le
    exact ih.binary 0 q (hw.closed hc) (by omega)
  refine bind_agree rfl fun t q hq => ?_
  cases hq
  cases hk : p.current.kind with
  | leftParen =>
    refine bind_agree rfl fun _ q hq => ?_
    cases hq
    refine bind_agree rfl fun _ q hq => ?_
    exact bind_agree (settle (by simp [hk]) (moves_enter _ _ _ _ hq)) fun _ _ _ => rfl
  | conditional =>
    have settle {q : Parser} := settle (by simp [hk]) (q := q)
    refine bind_agree rfl fun _ q hq => ?_
    cases hq
    refine bind_agree rfl fun _ q hq => ?_
    have w₁ := moves_expect _ _ _ _ _ hq
    refine bind_agree rfl fun _ q hq => ?_
    have w₂ := (moves_enter _ _ _ _ hq).trans w₁
    refine bind_agree (settle w₂) fun _ q hq => ?_
    have w₃ := ((allMove n).binary _ _ _ _ hq).trans w₂
    refine bind_agree rfl fun _ q hq => ?_
    have w₄ := (moves_expect _ _ _ _ _ hq).trans w₃
    refine bind_agree (settle w₄) fun _ q hq => ?_
    have w₅ := ((allMove n).binary _ _ _ _ hq).trans w₄
    refine bind_agree rfl fun _ q hq => ?_
    have w₆ := (moves_expect _ _ _ _ _ hq).trans w₅
    exact bind_agree (settle w₆) fun _ _ _ => rfl
  | identifier name =>
    have hs := step_length hp (by simp [hk])
    refine bind_agree rfl fun _ q hq => ?_
    cases hq
    exact ih.call name _ p.step hc (by omega)
  | _ => rfl

theorem allSettle (n : Nat) : AllSettle n := by
  induction n with
  | zero => constructor <;> intros <;> omega
  | succ n ih =>
    exact ⟨fun least _ => settle_binary ih least,
      fun least left length compared _ => settle_chain ih least left length compared,
      fun _ => settle_unary ih, fun _ => settle_primary ih,
      fun name position _ => settle_call ih name position,
      fun _ => settle_arguments ih, fun _ => settle_argumentsFrom ih⟩

/-- Steps beyond three for each token left change nothing. -/
theorem binary_add_steps {least n : Nat} {p : Parser} (hp : p.Closed)
    (hn : 3 * p.ahead.length + 3 ≤ n) (extra : Nat) :
    binary (n + extra) least p = binary n least p := by
  induction extra with
  | zero => rfl
  | succ extra ih =>
    exact ((allSettle (n + extra)).binary least p hp (by omega)).trans ih

theorem closed_ofTokens (limit : Nat) (tokens : List Token) : (ofTokens limit tokens).Closed := by
  cases tokens with
  | nil => rfl
  | cons t ts =>
    change (t :: (ts ++ closing (ts.getLastD t))).getLast?.map Token.kind = some .eof
    by_cases h : (ts.getLastD t).kind = .eof
    · rw [closing, if_pos h, List.append_nil, List.getLast?_cons]
      simpa using h
    · rw [closing, if_neg h, ← List.cons_append, List.getLast?_concat]
      rfl

theorem expression_eq_binary {p : Parser} (hp : p.Closed) (extra : Nat) :
    expression p = binary (p.steps + extra) 0 p :=
  (binary_add_steps hp (by unfold steps; omega) extra).symm

theorem moves_expression : Moves expression := fun p => (allMove p.steps).binary 0 p

theorem statements_succ {n : Nat} {p : Parser} (hp : p.Closed) (hn : p.ahead.length + 1 ≤ n) :
    statements (n + 1) p = statements n p := by
  induction n generalizing p with
  | zero => omega
  | succ n ih =>
    refine bind_agree rfl fun first q hq => ?_
    have hw := moves_expression p first q hq
    have hl := hw.length_le
    refine bind_agree rfl fun t r hr => ?_
    cases hr
    split
    · rename_i hk
      have hs := step_length (hw.closed hp) (by simp [hk])
      refine bind_agree rfl fun _ r hr => ?_
      cases hr
      refine bind_agree rfl fun next r hr => ?_
      cases hr
      split
      · rfl
      · exact bind_agree (ih ((step_within q).closed (hw.closed hp)) (by omega)) fun _ _ _ => rfl
    · rfl

theorem statements_add_steps {n : Nat} {p : Parser} (hp : p.Closed) (hn : p.ahead.length + 1 ≤ n)
    (extra : Nat) : statements (n + extra) p = statements n p := by
  induction extra with
  | zero => rfl
  | succ extra ih => exact (statements_succ hp (Nat.le_add_right_of_le hn)).trans ih

end FieldFormula.Parser
