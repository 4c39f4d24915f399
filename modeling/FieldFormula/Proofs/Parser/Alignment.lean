import FieldFormula.Proofs.Parser.Consumption
import FieldFormula.Proofs.Token.Joining
import FieldFormula.Proofs.Typing.Marks

/-!
Two parsers that run in step. They stand on tokens of like kinds, and the tokens that follow are
alike up to the end of the statement. Main statements: both read the same expression, each with its
own marks, or fail for the same cause at the same token (`agree_expression`), and so do they with
whole formulas (`agree_formula`).
-/
namespace FieldFormula

namespace Token.Kind
variable {k k' kind : Kind}

inductive Ends : Kind → Prop where
  | eof : Ends .eof
  | semicolon : Ends .semicolon

def Like (k k' : Kind) : Prop := k.Alike k' ∨ k.Ends ∧ k'.Ends

def isFixed : Kind → Bool
  | identifier _ | eof | semicolon => false
  | _ => true

def isIdentifier : Kind → Bool
  | identifier _ => true
  | _ => false

theorem Alike.eq_iff (h : k.Alike k') (hkind : kind.isIdentifier = false) :
    k' = kind ↔ k = kind := by
  cases h with
  | refl => rfl
  | name _ =>
    constructor
    · rintro rfl
      cases hkind
    · rintro rfl
      cases hkind

theorem Like.eq_iff (h : k.Like k') (hkind : kind.isFixed = true) : k' = kind ↔ k = kind := by
  rcases h with halike | ⟨hk, hk'⟩
  · apply halike.eq_iff
    cases kind with
    | identifier name => cases hkind
    | _ => rfl
  · constructor
    · rintro rfl
      cases hk' <;> cases hkind
    · rintro rfl
      cases hk <;> cases hkind

theorem not_ends_identifier (name : String) : ¬ (identifier name).Ends := by
  intro h
  cases h

theorem Like.ends_iff (h : k.Like k') : k'.Ends ↔ k.Ends := by
  rcases h with halike | ⟨hk, hk'⟩
  · cases halike with
    | refl => rfl
    | name _ => exact iff_of_false (not_ends_identifier _) (not_ends_identifier _)
  · exact iff_of_true hk' hk

theorem Like.infixOp? (h : k.Like k') (least : Nat) (compared : Bool) :
    Parser.infixOp? least compared k' = Parser.infixOp? least compared k := by
  rcases h with halike | ⟨hk, hk'⟩
  · cases halike <;> rfl
  · cases hk <;> cases hk' <;> rfl

theorem Like.prefixOp? (h : k.Like k') : Parser.prefixOp? k' = Parser.prefixOp? k := by
  rcases h with halike | ⟨hk, hk'⟩
  · cases halike <;> rfl
  · cases hk <;> cases hk' <;> rfl

theorem not_ends_of_isFixed (h : k.isFixed = true) : ¬ k.Ends := by
  intro hk
  cases hk <;> cases h

theorem not_ends_of_infixOp? {least : Nat} {compared : Bool} {op : BinaryOp}
    (h : Parser.infixOp? least compared k = some op) : ¬ k.Ends := by
  intro hk
  cases hk <;> cases h

theorem not_ends_of_prefixOp? {op : UnaryOp} (h : Parser.prefixOp? k = some op) : ¬ k.Ends := by
  intro hk
  cases hk <;> cases h

end Token.Kind

inductive ParseError.Cause.Alike : Cause → Cause → Prop where
  | unexpected {found found' : String} : Alike (.unexpected found) (.unexpected found')
  | expected {wanted found found' : String} :
      Alike (.expected wanted found) (.expected wanted found')
  | unknownFunction {name name' : String} :
      Text.upper name = Text.upper name' → Alike (.unknownFunction name) (.unknownFunction name')
  | refl (cause : Cause) : Alike cause cause

structure ParseError.Moves (place : Nat → Nat) (e e' : ParseError) : Prop where
  cause : e.cause.Alike e'.cause
  position : e'.position = place e.position

namespace Parser

/-- Lists of tokens that start alike, and go on alike to the end of the statement. -/
structure Aligned (place : Nat → Nat) (A : List Token → List Token → Prop) : Prop where
  kind {t t' : Token} {ts ts' : List Token} : A (t :: ts) (t' :: ts') → t.kind.Like t'.kind
  position {t t' : Token} {ts ts' : List Token} :
    A (t :: ts) (t' :: ts') → t'.position = place t.position
  tail {t t' : Token} {ts ts' : List Token} :
    A (t :: ts) (t' :: ts') → ¬ t.kind.Ends → A ts ts'

structure Beside (μ : Shift) (A : List Token → List Token → Prop) (p p' : Parser) : Prop where
  tokens : A p.remaining p'.remaining
  nextId : p'.nextId = p.nextId + μ.offset
  depth : p'.depth = p.depth
  limit : p'.limit = p.limit
  closed : p.Closed
  closed' : p'.Closed

abbrev Together {α : Type} (μ : Shift) (A : List Token → List Token → Prop) (R : α → α → Prop) :
    EStateM.Result ParseError Parser α → EStateM.Result ParseError Parser α → Prop :=
  Agree (Beside μ A) (ParseError.Moves μ.place) R

section Primitive
variable {α : Type} {μ : Shift} {A : List Token → List Token → Prop} {p p' : Parser}

theorem Beside.like (h : Beside μ A p p') (hA : Aligned μ.place A) :
    p.current.kind.Like p'.current.kind :=
  hA.kind h.tokens

theorem Beside.position (h : Beside μ A p p') (hA : Aligned μ.place A) :
    p'.current.position = μ.place p.current.position :=
  hA.position h.tokens

theorem Beside.step (h : Beside μ A p p') (hA : Aligned μ.place A) (hk : ¬ p.current.kind.Ends) :
    Beside μ A p.step p'.step := by
  have hk' : ¬ p'.current.kind.Ends := mt (h.like hA).ends_iff.1 hk
  have htokens := h.tokens
  rw [remaining_step h.closed fun he => hk (he ▸ .eof),
    remaining_step h.closed' fun he => hk' (he ▸ .eof)] at htokens
  exact ⟨hA.tail htokens hk, by simpa using h.nextId, by simpa using h.depth,
    by simpa using h.limit, step_closed h.closed, step_closed h.closed'⟩

theorem Beside.deeper (h : Beside μ A p p') : Beside μ A p.deeper p'.deeper :=
  ⟨h.tokens, h.nextId, congrArg (· + 1) h.depth, h.limit, h.closed, h.closed'⟩

theorem Beside.shallower (h : Beside μ A p p') (levels : Nat) :
    Beside μ A (p.shallower levels) (p'.shallower levels) :=
  ⟨h.tokens, h.nextId, congrArg (· - levels) h.depth, h.limit, h.closed, h.closed'⟩

theorem Beside.numbered (h : Beside μ A p p') : Beside μ A p.numbered p'.numbered :=
  ⟨h.tokens, by rw [numbered_nextId, numbered_nextId, h.nextId, Nat.add_right_comm], h.depth,
    h.limit, h.closed, h.closed'⟩

theorem Beside.markAt (h : Beside μ A p p') (position : Nat) :
    p'.markAt (μ.place position) = μ.mark (p.markAt position) := by
  rw [Parser.markAt, h.nextId]
  rfl

theorem Beside.agree_throw {R : α → α → Prop} {cause cause' : ParseError.Cause} {position : Nat}
    (hcause : cause.Alike cause') :
    Together μ A R ((throw ⟨cause, position⟩ : ParseM α) p)
      ((throw ⟨cause', μ.place position⟩ : ParseM α) p') :=
  .error ⟨hcause, rfl⟩

theorem Beside.agree_exhausted {R : α → α → Prop} (h : Beside μ A p p') (hA : Aligned μ.place A) :
    Together μ A R ((exhausted : ParseM α) p) ((exhausted : ParseM α) p') := by
  rw [exhausted, exhausted, h.limit, h.position hA]
  exact .error ⟨.refl _, rfl⟩

theorem Beside.agree_advance (h : Beside μ A p p') (hA : Aligned μ.place A)
    (hk : ¬ p.current.kind.Ends) : Together μ A (fun _ _ => True) (advance p) (advance p') :=
  .ok trivial (h.step hA hk)

theorem Beside.agree_enter (h : Beside μ A p p') (position : Nat) :
    Together μ A (fun _ _ => True) (enter position p) (enter (μ.place position) p') := by
  unfold enter
  dsimp only
  have hlimit : p'.depth < p'.limit ↔ p.depth < p.limit := by rw [h.depth, h.limit]
  by_cases hdepth : p.depth < p.limit
  · rw [if_pos hdepth, if_pos (hlimit.2 hdepth)]
    exact .ok trivial h.deeper
  · rw [if_neg hdepth, if_neg (mt hlimit.1 hdepth), h.limit]
    exact .error ⟨.refl _, rfl⟩

theorem Beside.agree_leave (h : Beside μ A p p') (levels : Nat) :
    Together μ A (fun _ _ => True) (leave levels p) (leave levels p') :=
  .ok trivial (h.shallower levels)

theorem agree_expect_of {kind : Token.Kind}
    (hposition : p'.current.position = μ.place p.current.position)
    (hkind : p'.current.kind = kind ↔ p.current.kind = kind)
    (hstep : p.current.kind = kind → Beside μ A p.step p'.step) (wanted : String) :
    Together μ A (fun _ _ => True) (expect kind wanted p) (expect kind wanted p') := by
  rw [expect, peek_bind, peek_bind]
  by_cases hk : p.current.kind = kind
  · rw [if_pos hk, if_pos (hkind.2 hk)]
    exact .ok trivial (hstep hk)
  · rw [if_neg hk, if_neg (mt hkind.1 hk), hposition]
    exact Beside.agree_throw .expected

theorem Beside.agree_expect (h : Beside μ A p p') (hA : Aligned μ.place A) {kind : Token.Kind}
    (hkind : kind.isFixed = true) (wanted : String) :
    Together μ A (fun _ _ => True) (expect kind wanted p) (expect kind wanted p') :=
  agree_expect_of (h.position hA) ((h.like hA).eq_iff hkind)
    (fun hk => h.step hA (hk ▸ Token.Kind.not_ends_of_isFixed hkind)) wanted

theorem Beside.agree_mark (h : Beside μ A p p') (position : Nat) :
    Together μ A (fun m m' => m' = μ.mark m) (mark position p) (mark (μ.place position) p') :=
  .ok (h.markAt position) h.numbered

theorem Beside.agree_pure {R : α → α → Prop} {a a' : α} (h : Beside μ A p p') (ha : R a a') :
    Together μ A R ((pure a : ParseM α) p) ((pure a' : ParseM α) p') :=
  .ok ha h

end Primitive

def Remarked (μ : Shift) (e e' : Expr) : Prop := e' = e.remark μ.mark

def RemarkedAll (μ : Shift) (es es' : List Expr) : Prop := es' = Expr.remarks μ.mark es

structure AllAgree (μ : Shift) (A : List Token → List Token → Prop) (n : Nat) : Prop where
  binary {p p' : Parser} (h : Beside μ A p p') (least : Nat) :
    Together μ A (Remarked μ) (binary n least p) (binary n least p')
  chain {p p' : Parser} (h : Beside μ A p p') (least : Nat) {left left' : Expr}
    (hleft : Remarked μ left left') (length : Nat) (compared : Bool) :
    Together μ A (Remarked μ) (chain n least left length compared p)
      (chain n least left' length compared p')
  unary {p p' : Parser} (h : Beside μ A p p') : Together μ A (Remarked μ) (unary n p) (unary n p')
  primary {p p' : Parser} (h : Beside μ A p p') :
    Together μ A (Remarked μ) (primary n p) (primary n p')
  call {p p' : Parser} (h : Beside μ A p p') {name name' : String}
    (hname : Text.upper name = Text.upper name') (position : Nat) :
    Together μ A (Remarked μ) (call n name position p) (call n name' (μ.place position) p')
  arguments {p p' : Parser} (h : Beside μ A p p') :
    Together μ A (RemarkedAll μ) (arguments n p) (arguments n p')
  argumentsFrom {p p' : Parser} (h : Beside μ A p p') :
    Together μ A (RemarkedAll μ) (argumentsFrom n p) (argumentsFrom n p')

section Recursive
variable {μ : Shift} {A : List Token → List Token → Prop} {p p' : Parser} {n : Nat}

theorem Beside.agree_node (h : Beside μ A p p') (position : Nat) {make make' : Mark → Expr}
    (hmake : ∀ m, Remarked μ (make m) (make' (μ.mark m))) :
    Together μ A (Remarked μ) ((do let m ← mark position; pure (make m) : ParseM Expr) p)
      ((do let m ← mark (μ.place position); pure (make' m) : ParseM Expr) p') := by
  apply (h.agree_mark position).bind
  rintro m _ q q' rfl h
  exact h.agree_pure (hmake m)

theorem AllAgree.chain_succ (ih : AllAgree μ A n) (hA : Aligned μ.place A) (h : Beside μ A p p')
    (least : Nat) {left left' : Expr} (hleft : Remarked μ left left') (length : Nat)
    (compared : Bool) :
    Together μ A (Remarked μ) (Parser.chain (n + 1) least left length compared p)
      (Parser.chain (n + 1) least left' length compared p') := by
  rw [Parser.chain, Parser.chain, peek_bind, peek_bind, (h.like hA).infixOp?, h.position hA]
  cases hop : infixOp? least compared p.current.kind with
  | none =>
    apply (h.agree_leave length).bind
    intro _ _ q q' _ h
    exact h.agree_pure hleft
  | some op =>
    apply (h.agree_advance hA (Token.Kind.not_ends_of_infixOp? hop)).bind
    intro _ _ q q' _ h
    apply (h.agree_enter _).bind
    intro _ _ q q' _ h
    apply (ih.binary h _).bind
    rintro right _ q q' rfl h
    apply (h.agree_mark _).bind
    rintro m _ q q' rfl h
    have hnode : Remarked μ (.binary m op left right)
        (.binary (μ.mark m) op left' (right.remark μ.mark)) := by
      rw [hleft, Remarked, Expr.remark]
    exact ih.chain h least hnode _ _

theorem AllAgree.unary_succ (ih : AllAgree μ A n) (hA : Aligned μ.place A) (h : Beside μ A p p') :
    Together μ A (Remarked μ) (Parser.unary (n + 1) p) (Parser.unary (n + 1) p') := by
  rw [Parser.unary, peek_bind, peek_bind, (h.like hA).prefixOp?, h.position hA]
  cases hop : prefixOp? p.current.kind with
  | none => exact ih.primary h
  | some op =>
    apply (h.agree_advance hA (Token.Kind.not_ends_of_prefixOp? hop)).bind
    intro _ _ q q' _ h
    apply (h.agree_enter _).bind
    intro _ _ q q' _ h
    apply (ih.unary h).bind
    rintro operand _ q q' rfl h
    apply (h.agree_leave 1).bind
    intro _ _ q q' _ h
    exact h.agree_node _ fun m => rfl

theorem AllAgree.primary_succ (ih : AllAgree μ A n) (hA : Aligned μ.place A) (h : Beside μ A p p') :
    Together μ A (Remarked μ) (Parser.primary (n + 1) p) (Parser.primary (n + 1) p') := by
  have hlike := h.like hA
  have hadvance := h.agree_advance hA
  rw [Parser.primary, peek_bind, peek_bind, h.position hA]
  generalize hk : p.current.kind = k at hlike hadvance ⊢
  generalize hk' : p'.current.kind = k' at hlike ⊢
  rcases hlike with halike | ⟨hends, hends'⟩
  · cases halike with
    | name hname =>
      apply (hadvance (Token.Kind.not_ends_identifier _)).bind
      intro _ _ q q' _ h
      exact ih.call h hname _
    | refl =>
      cases k with
      | literal value =>
        apply (hadvance (Token.Kind.not_ends_of_isFixed rfl)).bind
        intro _ _ q q' _ h
        exact h.agree_node _ fun m => rfl
      | field name =>
        apply (hadvance (Token.Kind.not_ends_of_isFixed rfl)).bind
        intro _ _ q q' _ h
        exact h.agree_node _ fun m => rfl
      | leftParen =>
        apply (hadvance (Token.Kind.not_ends_of_isFixed rfl)).bind
        intro _ _ q q' _ h
        apply (h.agree_enter _).bind
        intro _ _ q q' _ h
        apply (ih.binary h 0).bind
        rintro inner _ q q' rfl h
        apply (h.agree_expect hA rfl _).bind
        intro _ _ q q' _ h
        apply (h.agree_leave 1).bind
        intro _ _ q q' _ h
        exact h.agree_node _ fun m => rfl
      | conditional =>
        apply (hadvance (Token.Kind.not_ends_of_isFixed rfl)).bind
        intro _ _ q q' _ h
        apply (h.agree_expect hA rfl _).bind
        intro _ _ q q' _ h
        apply (h.agree_enter _).bind
        intro _ _ q q' _ h
        apply (ih.binary h 0).bind
        rintro condition _ q q' rfl h
        apply (h.agree_expect hA rfl _).bind
        intro _ _ q q' _ h
        apply (ih.binary h 0).bind
        rintro yes _ q q' rfl h
        apply (h.agree_expect hA rfl _).bind
        intro _ _ q q' _ h
        apply (ih.binary h 0).bind
        rintro no _ q q' rfl h
        apply (h.agree_expect hA rfl _).bind
        intro _ _ q q' _ h
        apply (h.agree_leave 1).bind
        intro _ _ q q' _ h
        exact h.agree_node _ fun m => rfl
      | identifier name =>
        apply (hadvance (Token.Kind.not_ends_identifier _)).bind
        intro _ _ q q' _ h
        exact ih.call h rfl _
      | _ => exact Beside.agree_throw .unexpected
  · cases hends <;> cases hends' <;> exact Beside.agree_throw .unexpected

theorem AllAgree.call_succ (ih : AllAgree μ A n) (hA : Aligned μ.place A) (h : Beside μ A p p')
    {name name' : String} (hname : Text.upper name = Text.upper name') (position : Nat) :
    Together μ A (Remarked μ) (Parser.call (n + 1) name position p)
      (Parser.call (n + 1) name' (μ.place position) p') := by
  have hlike := h.like hA
  have hfind : Builtin.find? name' = Builtin.find? name := by
    rw [Builtin.find?, Builtin.find?, hname]
  rw [Parser.call, Parser.call, peek_bind, peek_bind, hfind]
  by_cases hk : p.current.kind = .leftParen
  · rw [if_pos hk, if_pos ((hlike.eq_iff rfl).2 hk)]
    cases Builtin.find? name with
    | none => exact Beside.agree_throw (.unknownFunction hname)
    | some f =>
      apply (h.agree_advance hA (hk ▸ Token.Kind.not_ends_of_isFixed rfl)).bind
      intro _ _ q q' _ h
      apply (h.agree_enter _).bind
      intro _ _ q q' _ h
      apply (ih.arguments h).bind
      rintro args _ q q' rfl h
      apply (h.agree_expect hA rfl _).bind
      intro _ _ q q' _ h
      apply (h.agree_leave 1).bind
      intro _ _ q q' _ h
      rw [Expr.remarks_eq_map, List.length_map, ← Expr.remarks_eq_map]
      split
      · exact h.agree_node _ fun m => rfl
      · exact Beside.agree_throw (.refl _)
  · rw [if_neg hk, if_neg (mt (hlike.eq_iff rfl).1 hk)]
    exact Beside.agree_throw .unexpected

theorem AllAgree.arguments_succ (ih : AllAgree μ A n) (hA : Aligned μ.place A)
    (h : Beside μ A p p') :
    Together μ A (RemarkedAll μ) (Parser.arguments (n + 1) p) (Parser.arguments (n + 1) p') := by
  have hlike := h.like hA
  rw [Parser.arguments, peek_bind, peek_bind]
  by_cases hk : p.current.kind = .rightParen
  · rw [if_pos hk, if_pos ((hlike.eq_iff rfl).2 hk)]
    exact h.agree_pure rfl
  · rw [if_neg hk, if_neg (mt (hlike.eq_iff rfl).1 hk)]
    exact ih.argumentsFrom h

theorem AllAgree.argumentsFrom_succ (ih : AllAgree μ A n) (hA : Aligned μ.place A)
    (h : Beside μ A p p') :
    Together μ A (RemarkedAll μ) (Parser.argumentsFrom (n + 1) p)
      (Parser.argumentsFrom (n + 1) p') := by
  apply (ih.binary h 0).bind
  rintro first _ q q' rfl h
  have hlike := h.like hA
  rw [peek_bind, peek_bind]
  by_cases hk : q.current.kind = .comma
  · rw [if_pos hk, if_pos ((hlike.eq_iff rfl).2 hk)]
    apply (h.agree_advance hA (hk ▸ Token.Kind.not_ends_of_isFixed rfl)).bind
    intro _ _ q q' _ h
    apply (ih.argumentsFrom h).bind
    rintro others _ q q' rfl h
    exact h.agree_pure rfl
  · rw [if_neg hk, if_neg (mt (hlike.eq_iff rfl).1 hk)]
    exact h.agree_pure rfl

theorem Aligned.all (hA : Aligned μ.place A) (n : Nat) : AllAgree μ A n := by
  induction n with
  | zero =>
    exact ⟨fun h _ => h.agree_exhausted hA, fun h _ _ _ _ _ _ => h.agree_exhausted hA,
      fun h => h.agree_exhausted hA, fun h => h.agree_exhausted hA,
      fun h _ _ _ _ => h.agree_exhausted hA, fun h => h.agree_exhausted hA,
      fun h => h.agree_exhausted hA⟩
  | succ n ih =>
    constructor
    · intro p p' h least
      apply (ih.unary h).bind
      rintro left _ q q' rfl h
      exact ih.chain h least rfl 0 false
    · exact ih.chain_succ hA
    · exact ih.unary_succ hA
    · exact ih.primary_succ hA
    · exact ih.call_succ hA
    · exact ih.arguments_succ hA
    · exact ih.argumentsFrom_succ hA

theorem Beside.agree_expression (h : Beside μ A p p') (hA : Aligned μ.place A) :
    Together μ A (Remarked μ) (expression p) (expression p') := by
  -- more steps than either needs, so that both take the same number
  rw [expression_eq_binary h.closed p'.steps, expression_eq_binary h.closed' p.steps,
    Nat.add_comm p'.steps]
  exact (hA.all _).binary h 0

theorem Beside.run (h : Beside μ A p p') (hA : Aligned μ.place A) {e : Expr} {q : Parser}
    (he : Run p (.binary 0 e) q) :
    ∃ q', Run p' (.binary 0 (e.remark μ.mark)) q' ∧ Beside μ A q q' := by
  have hagree := h.agree_expression hA
  rw [(expression_eq_ok_iff h.closed).2 he] at hagree
  generalize he' : expression p' = x' at hagree
  cases hagree with
  | ok hremark hq =>
    rw [hremark] at he'
    exact ⟨_, (expression_eq_ok_iff h.closed').1 he', hq⟩

theorem Beside.run_of (h : Beside μ A p p') (hA : Aligned μ.place A) {e' : Expr} {q' : Parser}
    (he' : Run p' (.binary 0 e') q') :
    ∃ e q, Run p (.binary 0 e) q ∧ e' = e.remark μ.mark ∧ Beside μ A q q' := by
  have hagree := h.agree_expression hA
  rw [(expression_eq_ok_iff h.closed').2 he'] at hagree
  generalize he : expression p = x at hagree
  cases hagree with
  | ok hremark hq => exact ⟨_, _, (expression_eq_ok_iff h.closed).1 he, hremark, hq⟩

end Recursive

/-- Tokens that are alike to the end, and not only to that of a statement. -/
def Abreast (place : Nat → Nat) : List Token → List Token → Prop :=
  List.Forall₂ fun t t' => t.kind.Alike t'.kind ∧ t'.position = place t.position

theorem aligned_abreast (place : Nat → Nat) : Aligned place (Abreast place) where
  kind h := .inl (List.forall₂_cons.1 h).1.1
  position h := (List.forall₂_cons.1 h).1.2
  tail h _ := (List.forall₂_cons.1 h).2

section Formula
variable {μ : Shift} {p p' : Parser}

theorem Beside.step_abreast (h : Beside μ (Abreast μ.place) p p') :
    Beside μ (Abreast μ.place) p.step p'.step := by
  refine ⟨?_, by simpa using h.nextId, by simpa using h.depth, by simpa using h.limit,
    step_closed h.closed, step_closed h.closed'⟩
  obtain ⟨hcurrent, hahead⟩ := List.forall₂_cons.1 h.tokens
  unfold Parser.step
  generalize hts : p.ahead = ts at hahead
  generalize hts' : p'.ahead = ts' at hahead
  cases hahead with
  | nil => exact h.tokens
  | cons ht hothers => exact .cons ht hothers

theorem Beside.eq_iff_abreast (h : Beside μ (Abreast μ.place) p p') (kind : Token.Kind)
    (hkind : kind.isIdentifier = false) :
    p'.current.kind = kind ↔ p.current.kind = kind :=
  (List.forall₂_cons.1 h.tokens).1.1.eq_iff hkind

theorem agree_statements (h : Beside μ (Abreast μ.place) p p') (n : Nat) :
    Together μ (Abreast μ.place) (RemarkedAll μ) (statements n p) (statements n p') := by
  induction n generalizing p p' with
  | zero => exact h.agree_exhausted (aligned_abreast _)
  | succ n ih =>
    apply (h.agree_expression (aligned_abreast _)).bind
    rintro first _ q q' rfl h
    rw [peek_bind, peek_bind]
    have hkind := h.eq_iff_abreast .semicolon rfl
    by_cases hk : q.current.kind = .semicolon
    · rw [if_pos hk, if_pos (hkind.2 hk), advance_bind, advance_bind, peek_bind, peek_bind]
      have h := h.step_abreast
      have hkind := h.eq_iff_abreast .eof rfl
      by_cases hk : q.step.current.kind = .eof
      · rw [if_pos hk, if_pos (hkind.2 hk)]
        exact h.agree_pure rfl
      · rw [if_neg hk, if_neg (mt hkind.1 hk)]
        apply (ih h).bind
        rintro others _ q q' rfl h
        exact h.agree_pure rfl
    · rw [if_neg hk, if_neg (mt hkind.1 hk)]
      exact h.agree_pure rfl

theorem agree_formula (h : Beside μ (Abreast μ.place) p p')
    (horigin : p'.origin = μ.place p.origin) :
    Together μ (Abreast μ.place) (Remarked μ) (formula p) (formula p') := by
  have hsteps : p'.steps = p.steps := by
    have hlength := List.Forall₂.length_eq h.tokens
    rw [remaining, remaining, List.length_cons, List.length_cons] at hlength
    rw [steps, steps, hlength]
  rw [formula, get_bind, get_bind, hsteps, horigin]
  apply (agree_statements h p.steps).bind
  rintro items _ q q' rfl h
  have hexpect := agree_expect_of (h.position (aligned_abreast _)) (h.eq_iff_abreast .eof rfl)
    (fun _ => h.step_abreast) "end of formula"
  apply hexpect.bind
  intro _ _ q q' _ h
  cases items with
  | nil => exact h.agree_node _ fun m => rfl
  | cons item items =>
    cases items with
    | nil => exact h.agree_pure rfl
    | cons next items => exact h.agree_node _ fun m => rfl

end Formula

end Parser
end FieldFormula
