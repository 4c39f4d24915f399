import FieldFormula.Proofs.Parser.Run

/-!
A parser with an alarm. It does what the parser does, except where more levels are left than have
been entered and where the steps run out: there it does whatever the alarm says. Main statement: no
alarm makes a difference, a success gives back the depth it started from, and a failure is no less
deep (`quiet_expression`, `quiet_formula`). So a level is left only after it has been entered, and
every call comes to its end by itself.
-/
namespace FieldFormula.Parser

/-- What to do where more levels are left than have been entered, and where the steps run out. -/
structure Alarm where
  underflow : Nat → ParseM Unit
  exhausted : {α : Type} → ParseM α

namespace Alarm

variable (x : Alarm)

def leave (levels : Nat) : ParseM Unit := fun p =>
  if levels ≤ p.depth then Parser.leave levels p else x.underflow levels p

mutual

def binary : Nat → Nat → ParseM Expr
  | 0, _ => x.exhausted
  | n + 1, least => do
    let left ← unary n
    chain n least left 0 false
termination_by structural n => n

def chain : Nat → Nat → Expr → Nat → Bool → ParseM Expr
  | 0, _, _, _, _ => x.exhausted
  | n + 1, least, left, length, compared => do
    let t ← peek
    match infixOp? least compared t.kind with
    | none =>
      x.leave length
      return left
    | some op =>
      advance
      enter t.position
      let right ← binary n (op.strength + 1)
      let m ← mark t.position
      chain n least (.binary m op left right) (length + 1) op.isComparison
termination_by structural n => n

def unary : Nat → ParseM Expr
  | 0 => x.exhausted
  | n + 1 => do
    let t ← peek
    match prefixOp? t.kind with
    | none => primary n
    | some op =>
      advance
      enter t.position
      let operand ← unary n
      x.leave 1
      let m ← mark t.position
      return .unary m op operand
termination_by structural n => n

def primary : Nat → ParseM Expr
  | 0 => x.exhausted
  | n + 1 => do
    let t ← peek
    match t.kind with
    | .literal value =>
      advance
      let m ← mark t.position
      return .literal m value
    | .field name =>
      advance
      let m ← mark t.position
      return .field m name
    | .leftParen =>
      advance
      enter t.position
      let inner ← binary n 0
      expect .rightParen "')'"
      x.leave 1
      let m ← mark t.position
      return .group m inner
    | .conditional =>
      advance
      expect .leftParen "'(' after IF"
      enter t.position
      let condition ← binary n 0
      expect .comma "','"
      let yes ← binary n 0
      expect .comma "','"
      let no ← binary n 0
      expect .rightParen "')'"
      x.leave 1
      let m ← mark t.position
      return .conditional m condition yes no
    | .identifier name =>
      advance
      call n name t.position
    | _ => throw ⟨.unexpected t.describe, t.position⟩
termination_by structural n => n

def call : Nat → String → Nat → ParseM Expr
  | 0, _, _ => x.exhausted
  | n + 1, name, position => do
    let t ← peek
    if t.kind = .leftParen then
      match Builtin.find? name with
      | none => throw ⟨.unknownFunction name, position⟩
      | some f =>
        advance
        enter position
        let args ← arguments n
        expect .rightParen "')'"
        x.leave 1
        if f.arity.accepts args.length then
          let m ← mark position
          return .call m f.name args
        else throw ⟨.wrongArity f.name f.arity args.length, position⟩
    else throw ⟨.unexpected ("'" ++ name ++ "'"), position⟩
termination_by structural n => n

def arguments : Nat → ParseM (List Expr)
  | 0 => x.exhausted
  | n + 1 => do
    let t ← peek
    if t.kind = .rightParen then return [] else argumentsFrom n
termination_by structural n => n

def argumentsFrom : Nat → ParseM (List Expr)
  | 0 => x.exhausted
  | n + 1 => do
    let first ← binary n 0
    let t ← peek
    if t.kind = .comma then
      advance
      let others ← argumentsFrom n
      return first :: others
    else return [first]
termination_by structural n => n

end

def expression : ParseM Expr := fun p => x.binary p.steps 0 p

def statements : Nat → ParseM (List Expr)
  | 0 => x.exhausted
  | n + 1 => do
    let first ← x.expression
    let t ← peek
    if t.kind = .semicolon then
      advance
      let next ← peek
      if next.kind = .eof then return [first]
      else
        let others ← statements n
        return first :: others
    else return [first]

def formula : ParseM Expr := do
  let p ← get
  let items ← x.statements p.steps
  expect .eof "end of formula"
  match items with
  | [item] => return item
  | _ =>
    let m ← mark p.origin
    return .sequence m items

end Alarm

structure At (depth left : Nat) (p : Parser) : Prop where
  closed : p.Closed
  depth_eq : p.depth = depth
  ahead_le : p.ahead.length ≤ left

section At
variable {p : Parser} {d l : Nat}

theorem At.step (h : p.At d l) : p.step.At d l :=
  ⟨(step_within p).closed h.closed, (step_depth p).trans h.depth_eq,
    Nat.le_trans (step_within p).length_le h.ahead_le⟩

theorem At.tight (h : p.At d l) : p.At d p.ahead.length :=
  ⟨h.closed, h.depth_eq, Nat.le_refl _⟩

theorem At.passed (h : p.At d l) (hk : p.current.kind ≠ .eof) : ∃ k, l = k + 1 ∧ p.step.At d k := by
  have hlength := step_length h.closed hk
  have hle := h.ahead_le
  exact ⟨l - 1, by omega, h.step.closed, h.step.depth_eq, by omega⟩

end At

/-- A success leaves the parser at the depth with so many tokens ahead, and a failure at the base
or deeper. -/
def Outcome {α : Type} (base depth left : Nat) : EStateM.Result ParseError Parser α → Prop
  | .ok _ q => q.At depth left
  | .error _ q => base ≤ q.depth

structure Quiet {α : Type} (base depth left : Nat) (m' m : ParseM α) (p : Parser) : Prop where
  same : m' p = m p
  outcome : Outcome base depth left (m p)

section Steps
variable {α β : Type} {p : Parser} {b c d k l : Nat}

theorem Quiet.bind {m' m : ParseM α} {f' f : α → ParseM β} (hm : Quiet b c k m' m p)
    (hf : ∀ a q, q.At c k → Quiet b d l (f' a) (f a) q) :
    Quiet b d l (m' >>= f') (m >>= f) p := by
  obtain ⟨hsame, houtcome⟩ := hm
  cases hq : m p with
  | ok a q =>
    rw [hq] at hsame houtcome
    obtain ⟨hnext, hend⟩ := hf a q houtcome
    constructor
    · simp only [Bind.bind, EStateM.bind, hsame, hq]
      exact hnext
    · simp only [Bind.bind, EStateM.bind, hq]
      exact hend
  | error err q =>
    rw [hq] at hsame houtcome
    constructor
    · simp only [Bind.bind, EStateM.bind, hsame, hq]
    · simp only [Bind.bind, EStateM.bind, hq]
      exact houtcome

theorem Quiet.mono {m' m : ParseM α} (h : Quiet b d k m' m p) (hbase : c ≤ b) (hleft : k ≤ l) :
    Quiet c d l m' m p := by
  refine ⟨h.same, ?_⟩
  have houtcome := h.outcome
  cases hq : m p with
  | ok a q =>
    rw [hq] at houtcome
    exact ⟨houtcome.closed, houtcome.depth_eq, Nat.le_trans houtcome.ahead_le hleft⟩
  | error err q =>
    rw [hq] at houtcome
    exact Nat.le_trans hbase houtcome

theorem quiet_pure (h : p.At d l) (a : α) : Quiet b d l (pure a) (pure a) p := ⟨rfl, h⟩

theorem quiet_throw (err : ParseError) (h : b ≤ p.depth) :
    Quiet b d l (throw err : ParseM α) (throw err) p :=
  ⟨rfl, h⟩

theorem quiet_get {f' f : Parser → ParseM β} (h : Quiet b d l (f' p) (f p) p) :
    Quiet b d l (get >>= f') (get >>= f) p :=
  ⟨h.same, h.outcome⟩

theorem quiet_peek {f' f : Token → ParseM β} (h : Quiet b d l (f' p.current) (f p.current) p) :
    Quiet b d l (peek >>= f') (peek >>= f) p :=
  ⟨h.same, h.outcome⟩

theorem quiet_advance {f' f : Unit → ParseM β} (h : Quiet b d l (f' ()) (f ()) p.step) :
    Quiet b d l (advance >>= f') (advance >>= f) p :=
  ⟨h.same, h.outcome⟩

theorem quiet_expect (h : p.At d l) (hb : b ≤ d) (kind : Token.Kind) (wanted : String) :
    Quiet b d l (expect kind wanted) (expect kind wanted) p := by
  apply quiet_peek
  split
  · exact ⟨rfl, h.step⟩
  · exact quiet_throw _ (h.depth_eq.symm ▸ hb)

theorem quiet_enter (h : p.At d l) (hb : b ≤ d) (position : Nat) :
    Quiet b (d + 1) l (enter position) (enter position) p := by
  have hdepth := h.depth_eq
  refine ⟨rfl, ?_⟩
  unfold enter
  dsimp only
  split
  · exact ⟨h.closed, congrArg (· + 1) hdepth, h.ahead_le⟩
  · change b ≤ p.depth + 1
    omega

theorem quiet_leave (x : Alarm) (h : p.At d l) {levels : Nat} (hle : levels ≤ d) :
    Quiet b (d - levels) l (x.leave levels) (leave levels) p := by
  have hdepth := h.depth_eq
  constructor
  · exact if_pos (hdepth.symm ▸ hle)
  · exact ⟨h.closed, congrArg (· - levels) hdepth, h.ahead_le⟩

theorem quiet_mark (h : p.At d l) (position : Nat) :
    Quiet b d l (mark position) (mark position) p :=
  ⟨rfl, h.closed, h.depth_eq, h.ahead_le⟩

theorem quiet_node (h : p.At d l) (position : Nat) (make : Mark → Expr) :
    Quiet b d l (do let m ← mark position; pure (make m)) (do let m ← mark position; pure (make m))
      p :=
  (quiet_mark h position).bind fun m _ hq => quiet_pure hq (make m)

theorem quiet_leave_node (x : Alarm) (h : p.At (d + 1) l) (position : Nat) (make : Mark → Expr) :
    Quiet b d l (do x.leave 1; let m ← mark position; pure (make m))
      (do leave 1; let m ← mark position; pure (make m)) p :=
  (quiet_leave x h (Nat.le_add_left 1 d)).bind fun _ _ hq => quiet_node hq position make

end Steps

structure AllQuiet (x : Alarm) (n : Nat) : Prop where
  binary : ∀ least {d l : Nat} {p : Parser}, p.At d l → 3 * l + 3 ≤ n →
    Quiet d d l (x.binary n least) (binary n least) p
  chain : ∀ least left {length : Nat} compared {d l : Nat} {p : Parser}, p.At d l → length ≤ d →
    3 * l + 1 ≤ n →
    Quiet d (d - length) l (x.chain n least left length compared)
      (chain n least left length compared) p
  unary : ∀ {d l : Nat} {p : Parser}, p.At d l → 3 * l + 2 ≤ n →
    Quiet d d l (x.unary n) (unary n) p
  primary : ∀ {d l : Nat} {p : Parser}, p.At d l → 3 * l + 1 ≤ n →
    Quiet d d l (x.primary n) (primary n) p
  call : ∀ name position {d l : Nat} {p : Parser}, p.At d l → 3 * l + 3 ≤ n →
    Quiet d d l (x.call n name position) (call n name position) p
  arguments : ∀ {d l : Nat} {p : Parser}, p.At d l → 3 * l + 5 ≤ n →
    Quiet d d l (x.arguments n) (arguments n) p
  argumentsFrom : ∀ {d l : Nat} {p : Parser}, p.At d l → 3 * l + 4 ≤ n →
    Quiet d d l (x.argumentsFrom n) (argumentsFrom n) p

section Functions
variable {x : Alarm} {n d l : Nat} {p : Parser}

theorem AllQuiet.binary_succ (ih : AllQuiet x n) (least : Nat) (hp : p.At d l)
    (hn : 3 * l + 3 ≤ n + 1) :
    Quiet d d l (x.binary (n + 1) least) (Parser.binary (n + 1) least) p := by
  rw [Alarm.binary, Parser.binary]
  apply (ih.unary hp (by omega)).bind
  intro left q hq
  exact ih.chain least left false hq (Nat.zero_le d) (by omega)

/-- A chain has entered a level for each of its links, so it can leave them all. -/
theorem AllQuiet.chain_succ (ih : AllQuiet x n) (least : Nat) (left : Expr) {length : Nat}
    (compared : Bool) (hp : p.At d l) (hlength : length ≤ d) (hn : 3 * l + 1 ≤ n + 1) :
    Quiet d (d - length) l (x.chain (n + 1) least left length compared)
      (Parser.chain (n + 1) least left length compared) p := by
  rw [Alarm.chain, Parser.chain]
  apply quiet_peek
  cases ho : infixOp? least compared p.current.kind with
  | none => exact (quiet_leave x hp hlength).bind fun _ _ hq => quiet_pure hq left
  | some op =>
    obtain ⟨k, rfl, hstep⟩ := hp.passed (kind_ne_eof_of_infixOp? ho)
    apply quiet_advance
    apply (quiet_enter hstep (Nat.le_refl d) _).bind
    intro _ q hq
    apply ((ih.binary _ hq (by omega)).mono (Nat.le_succ d) (Nat.le_refl k)).bind
    intro right r hr
    apply (quiet_mark hr _).bind
    intro m t ht
    -- the level of this link stays open until the chain ends, so the rest has one more to leave
    have hrest := ih.chain least (.binary m op left right) op.isComparison ht
      (Nat.succ_le_succ hlength) (by omega)
    rw [Nat.add_sub_add_right] at hrest
    exact hrest.mono (Nat.le_succ d) (Nat.le_succ k)

theorem AllQuiet.unary_succ (ih : AllQuiet x n) (hp : p.At d l) (hn : 3 * l + 2 ≤ n + 1) :
    Quiet d d l (x.unary (n + 1)) (Parser.unary (n + 1)) p := by
  rw [Alarm.unary, Parser.unary]
  apply quiet_peek
  cases ho : prefixOp? p.current.kind with
  | none => exact ih.primary hp (by omega)
  | some op =>
    obtain ⟨k, rfl, hstep⟩ := hp.passed (kind_ne_eof_of_prefixOp? ho)
    apply quiet_advance
    apply (quiet_enter hstep (Nat.le_refl d) _).bind
    intro _ q hq
    apply ((ih.unary hq (by omega)).mono (Nat.le_succ d) (Nat.le_succ k)).bind
    intro operand r hr
    exact quiet_leave_node x hr _ _

theorem AllQuiet.inner (ih : AllQuiet x n) (hp : p.At (d + 1) l) (hn : 3 * l + 3 ≤ n)
    {kind : Token.Kind} {wanted : String} {f' f : Expr → ParseM Expr}
    (hf : ∀ e q, q.At (d + 1) l → Quiet d d (l + 1) (f' e) (f e) q) :
    Quiet d d (l + 1) (do let e ← x.binary n 0; expect kind wanted; f' e)
      (do let e ← Parser.binary n 0; expect kind wanted; f e) p := by
  apply ((ih.binary 0 hp hn).mono (Nat.le_succ d) (Nat.le_refl l)).bind
  intro e q hq
  apply (quiet_expect hq (Nat.le_succ d) _ _).bind
  intro _ r hr
  exact hf e r hr

theorem AllQuiet.primary_succ (ih : AllQuiet x n) (hp : p.At d l) (hn : 3 * l + 1 ≤ n + 1) :
    Quiet d d l (x.primary (n + 1)) (Parser.primary (n + 1)) p := by
  have hd := Nat.le_refl d
  have closing {k : Nat} {q : Parser} (hq : q.At (d + 1) k) (position : Nat) (make : Mark → Expr) :
      Quiet d d (k + 1) (do x.leave 1; let m ← mark position; pure (make m))
        (do leave 1; let m ← mark position; pure (make m)) q :=
    (quiet_leave_node x hq position make).mono hd (Nat.le_succ k)
  rw [Alarm.primary, Parser.primary]
  apply quiet_peek
  cases hk : p.current.kind with
  | literal value => exact quiet_advance (quiet_node hp.step _ _)
  | field name => exact quiet_advance (quiet_node hp.step _ _)
  | leftParen =>
    obtain ⟨k, rfl, hstep⟩ := hp.passed (by simp [hk])
    apply quiet_advance
    apply (quiet_enter hstep hd _).bind
    intro _ q hq
    exact ih.inner hq (by omega) fun inner r hr => closing hr _ _
  | conditional =>
    obtain ⟨k, rfl, hstep⟩ := hp.passed (by simp [hk])
    apply quiet_advance
    apply (quiet_expect hstep hd _ _).bind
    intro _ p₁ h₁
    apply (quiet_enter h₁ hd _).bind
    intro _ p₂ h₂
    refine ih.inner h₂ (by omega) fun condition p₃ h₃ => ?_
    refine ih.inner h₃ (by omega) fun yes p₄ h₄ => ?_
    exact ih.inner h₄ (by omega) fun no p₅ h₅ => closing h₅ _ _
  | identifier name =>
    obtain ⟨k, rfl, hstep⟩ := hp.passed (by simp [hk])
    exact quiet_advance ((ih.call name _ hstep (by omega)).mono hd (Nat.le_succ k))
  | _ => exact quiet_throw _ (Nat.le_of_eq hp.depth_eq.symm)

theorem AllQuiet.call_succ (ih : AllQuiet x n) (name : String) (position : Nat) (hp : p.At d l)
    (hn : 3 * l + 3 ≤ n + 1) :
    Quiet d d l (x.call (n + 1) name position) (Parser.call (n + 1) name position) p := by
  have hbase := Nat.le_of_eq hp.depth_eq.symm
  rw [Alarm.call, Parser.call]
  apply quiet_peek
  split
  · rename_i hk
    cases Builtin.find? name with
    | none => exact quiet_throw _ hbase
    | some f =>
      obtain ⟨k, rfl, hstep⟩ := hp.passed (by simp [hk])
      apply quiet_advance
      apply (quiet_enter hstep (Nat.le_refl d) _).bind
      intro _ q hq
      apply ((ih.arguments hq (by omega)).mono (Nat.le_succ d) (Nat.le_succ k)).bind
      intro args r hr
      apply (quiet_expect hr (Nat.le_succ d) _ _).bind
      intro _ t ht
      apply (quiet_leave x ht (Nat.le_add_left 1 d)).bind
      intro _ u hu
      -- a wrong number of arguments is found when the level has been left already
      split
      · exact quiet_node hu _ _
      · exact quiet_throw _ (Nat.le_of_eq hu.depth_eq.symm)
  · exact quiet_throw _ hbase

theorem AllQuiet.arguments_succ (ih : AllQuiet x n) (hp : p.At d l) (hn : 3 * l + 5 ≤ n + 1) :
    Quiet d d l (x.arguments (n + 1)) (Parser.arguments (n + 1)) p := by
  rw [Alarm.arguments, Parser.arguments]
  apply quiet_peek
  split
  · exact quiet_pure hp []
  · exact ih.argumentsFrom hp (by omega)

theorem AllQuiet.argumentsFrom_succ (ih : AllQuiet x n) (hp : p.At d l) (hn : 3 * l + 4 ≤ n + 1) :
    Quiet d d l (x.argumentsFrom (n + 1)) (Parser.argumentsFrom (n + 1)) p := by
  rw [Alarm.argumentsFrom, Parser.argumentsFrom]
  apply (ih.binary 0 hp (by omega)).bind
  intro first q hq
  apply quiet_peek
  split
  · rename_i hk
    obtain ⟨k, rfl, hstep⟩ := hq.passed (by simp [hk])
    apply quiet_advance
    apply ((ih.argumentsFrom hstep (by omega)).mono (Nat.le_refl d) (Nat.le_succ k)).bind
    intro others r hr
    exact quiet_pure hr (first :: others)
  · exact quiet_pure hq [first]

theorem allQuiet (x : Alarm) (n : Nat) : AllQuiet x n := by
  induction n with
  | zero => constructor <;> intros <;> omega
  | succ n ih =>
    exact ⟨fun least _ _ _ => ih.binary_succ least,
      fun least left _ compared _ _ _ => ih.chain_succ least left compared, ih.unary_succ,
      ih.primary_succ, fun name position _ _ _ => ih.call_succ name position, ih.arguments_succ,
      ih.argumentsFrom_succ⟩

theorem quiet_expression (x : Alarm) (hp : p.At d l) : Quiet d d l x.expression expression p := by
  have hbinary := (allQuiet x p.steps).binary 0 hp.tight (by unfold steps; omega)
  have hquiet := hbinary.mono (Nat.le_refl d) hp.ahead_le
  exact ⟨hquiet.same, hquiet.outcome⟩

theorem quiet_statements (x : Alarm) (hp : p.At d l) (hn : l + 1 ≤ n) :
    Quiet d d l (x.statements n) (statements n) p := by
  induction n generalizing p l with
  | zero => omega
  | succ n ih =>
    rw [Alarm.statements, statements]
    apply (quiet_expression x hp).bind
    intro first q hq
    apply quiet_peek
    split
    · rename_i hk
      obtain ⟨k, rfl, hstep⟩ := hq.passed (by simp [hk])
      have hnext := hq.step
      apply quiet_advance
      apply quiet_peek
      split
      · exact quiet_pure hnext [first]
      · apply ((ih hstep (by omega)).mono (Nat.le_refl d) (Nat.le_succ k)).bind
        intro others r hr
        exact quiet_pure hr (first :: others)
    · exact quiet_pure hq [first]

theorem quiet_formula (x : Alarm) (hp : p.At d l) : Quiet d d l x.formula formula p := by
  have hstatements := quiet_statements (n := p.steps) x hp.tight (by unfold steps; omega)
  rw [Alarm.formula, formula]
  apply quiet_get
  -- the end of the formula that is expected may be the last token, which is not left behind
  apply (hstatements.mono (Nat.le_refl d) hp.ahead_le).bind
  intro items q hq
  apply (quiet_expect hq (Nat.le_refl d) _ _).bind
  intro _ r hr
  rcases items with _ | ⟨item, _ | ⟨second, others⟩⟩
  · exact quiet_node hr _ _
  · exact quiet_pure hr item
  · exact quiet_node hr _ _

end Functions

end FieldFormula.Parser
