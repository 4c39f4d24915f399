import FieldFormula.Proofs.Parser.Consumption
import FieldFormula.Proofs.Text.Case

/-!
Properties of parsing that hold whether a run succeeds or fails. A property of single steps that
sequencing keeps is a property of every function of the parser (`Inherited.all`). Main statements:
whatever a parser answers, it has only moved on and given out numbers, and an error is blamed on
one of its tokens (`accountable_expression`, `accountable_formula`).
-/
namespace FieldFormula

def ParseError.Cause.Blames : ParseError.Cause → Token.Kind → Prop
  | unknownFunction name, kind | wrongArity name _ _, kind =>
    ∃ written, kind = .identifier written ∧ Text.upper written = Text.upper name
  | _, _ => True

def ParseError.BlamedOn (tokens : List Token) (e : ParseError) : Prop :=
  ∃ t ∈ tokens, t.position = e.position ∧ e.cause.Blames t.kind

namespace Parser

/-- A property of parsing steps that the functions of the parser have if its primitive steps have
it, where the tokens looked at satisfy `Q`. -/
structure Inherited (Q : Token → Prop) (P : (α : Type) → ParseM α → Prop) : Prop where
  pure {α : Type} (a : α) : P α (pure a)
  bind {α β : Type} {m : ParseM α} {f : α → ParseM β} : P α m → (∀ a, P β (f a)) → P β (m >>= f)
  peek {α : Type} {f : Token → ParseM α} : (∀ t, Q t → P α (f t)) → P α (peek >>= f)
  advance : P Unit advance
  enter {t : Token} : Q t → P Unit (enter t.position)
  leave (levels : Nat) : P Unit (leave levels)
  mark (position : Nat) : P Mark (mark position)
  exhausted {α : Type} : P α exhausted
  throw {α : Type} {t : Token} {cause : ParseError.Cause} :
    Q t → cause.Blames t.kind → P α (throw ⟨cause, t.position⟩)

/-- The property can be shown parser by parser: a step has it that does, from every parser, what
some step with the property does from all those with as many tokens left and the same origin. -/
def Local (P : (α : Type) → ParseM α → Prop) : Prop :=
  ∀ {α : Type} {m : ParseM α}, (∀ p : Parser, ∃ m', P α m' ∧
    ∀ q : Parser, q.steps = p.steps → q.origin = p.origin → m q = m' q) → P α m

structure AllInherit (Q : Token → Prop) (P : (α : Type) → ParseM α → Prop) (n : Nat) : Prop where
  binary : ∀ least, P Expr (binary n least)
  chain : ∀ least left length compared, P Expr (chain n least left length compared)
  unary : P Expr (unary n)
  primary : P Expr (primary n)
  call : ∀ (t : Token) name, Q t → t.kind = .identifier name → P Expr (call n name t.position)
  arguments : P (List Expr) (arguments n)
  argumentsFrom : P (List Expr) (argumentsFrom n)

section Inherited
variable {Q : Token → Prop} {P : (α : Type) → ParseM α → Prop}

theorem Inherited.expect (h : Inherited Q P) (kind : Token.Kind) (wanted : String) :
    P Unit (expect kind wanted) := by
  apply h.peek
  intro t ht
  split
  · exact h.advance
  · exact h.throw ht trivial

theorem Inherited.node (h : Inherited Q P) (position : Nat) (make : Mark → Expr) :
    P Expr (do let m ← Parser.mark position; Pure.pure (make m)) :=
  h.bind (h.mark position) fun m => h.pure (make m)

variable {n : Nat}

theorem AllInherit.chain_succ (ih : AllInherit Q P n) (h : Inherited Q P) (least : Nat)
    (left : Expr) (length : Nat) (compared : Bool) :
    P Expr (Parser.chain (n + 1) least left length compared) := by
  apply h.peek
  intro t ht
  split
  · exact h.bind (h.leave length) fun _ => h.pure left
  · apply h.bind h.advance
    intro _
    apply h.bind (h.enter ht)
    intro _
    apply h.bind (ih.binary _)
    intro right
    apply h.bind (h.mark _)
    intro m
    exact ih.chain _ _ _ _

theorem AllInherit.unary_succ (ih : AllInherit Q P n) (h : Inherited Q P) :
    P Expr (Parser.unary (n + 1)) := by
  apply h.peek
  intro t ht
  split
  · exact ih.primary
  · apply h.bind h.advance
    intro _
    apply h.bind (h.enter ht)
    intro _
    apply h.bind ih.unary
    intro operand
    exact h.bind (h.leave 1) fun _ => h.node _ _

theorem AllInherit.primary_succ (ih : AllInherit Q P n) (h : Inherited Q P) :
    P Expr (Parser.primary (n + 1)) := by
  apply h.peek
  intro t ht
  split
  · exact h.bind h.advance fun _ => h.node _ _
  · exact h.bind h.advance fun _ => h.node _ _
  · apply h.bind h.advance
    intro _
    apply h.bind (h.enter ht)
    intro _
    apply h.bind (ih.binary 0)
    intro inner
    apply h.bind (h.expect _ _)
    intro _
    exact h.bind (h.leave 1) fun _ => h.node _ _
  · apply h.bind h.advance
    intro _
    apply h.bind (h.expect _ _)
    intro _
    apply h.bind (h.enter ht)
    intro _
    apply h.bind (ih.binary 0)
    intro condition
    apply h.bind (h.expect _ _)
    intro _
    apply h.bind (ih.binary 0)
    intro yes
    apply h.bind (h.expect _ _)
    intro _
    apply h.bind (ih.binary 0)
    intro no
    apply h.bind (h.expect _ _)
    intro _
    exact h.bind (h.leave 1) fun _ => h.node _ _
  · rename_i name hname
    exact h.bind h.advance fun _ => ih.call t name ht hname
  · exact h.throw ht trivial

theorem AllInherit.call_succ (ih : AllInherit Q P n) (h : Inherited Q P) {t : Token} {name : String}
    (ht : Q t) (hname : t.kind = .identifier name) :
    P Expr (Parser.call (n + 1) name t.position) := by
  apply h.peek
  intro next _
  split
  · split
    · exact h.throw ht ⟨name, hname, rfl⟩
    · rename_i f hf
      apply h.bind h.advance
      intro _
      apply h.bind (h.enter ht)
      intro _
      apply h.bind ih.arguments
      intro args
      apply h.bind (h.expect _ _)
      intro _
      apply h.bind (h.leave 1)
      intro _
      split
      · exact h.node _ _
      · refine h.throw ht ⟨name, hname, ?_⟩
        rw [(Builtin.mem_of_find? hf).2, Text.upper_upper]
  · exact h.throw ht trivial

theorem AllInherit.argumentsFrom_succ (ih : AllInherit Q P n) (h : Inherited Q P) :
    P (List Expr) (Parser.argumentsFrom (n + 1)) := by
  apply h.bind (ih.binary 0)
  intro first
  apply h.peek
  intro t _
  split
  · apply h.bind h.advance
    intro _
    exact h.bind ih.argumentsFrom fun others => h.pure (first :: others)
  · exact h.pure [first]

theorem Inherited.all (h : Inherited Q P) (n : Nat) : AllInherit Q P n := by
  induction n with
  | zero =>
    exact ⟨fun _ => h.exhausted, fun _ _ _ _ => h.exhausted, h.exhausted, h.exhausted,
      fun _ _ _ _ => h.exhausted, h.exhausted, h.exhausted⟩
  | succ n ih =>
    constructor
    · exact fun least => h.bind ih.unary fun left => ih.chain _ _ _ _
    · exact ih.chain_succ h
    · exact ih.unary_succ h
    · exact ih.primary_succ h
    · exact fun t name ht hname => ih.call_succ h ht hname
    · apply h.peek
      intro t _
      split
      · exact h.pure []
      · exact ih.argumentsFrom
    · exact ih.argumentsFrom_succ h

theorem Inherited.expression (h : Inherited Q P) (hlocal : Local P) :
    P Expr Parser.expression := by
  refine hlocal fun p => ⟨Parser.binary p.steps 0, (h.all p.steps).binary 0, fun q hsteps _ => ?_⟩
  rw [Parser.expression, hsteps]

theorem Inherited.statements (h : Inherited Q P) (hexpression : P Expr Parser.expression)
    (n : Nat) : P (List Expr) (Parser.statements n) := by
  induction n with
  | zero => exact h.exhausted
  | succ n ih =>
    apply h.bind hexpression
    intro first
    apply h.peek
    intro t _
    split
    · apply h.bind h.advance
      intro _
      apply h.peek
      intro next _
      split
      · exact h.pure [first]
      · exact h.bind ih fun others => h.pure (first :: others)
    · exact h.pure [first]

theorem Inherited.formula (h : Inherited Q P) (hlocal : Local P) : P Expr Parser.formula := by
  apply hlocal
  intro p
  -- the step that is meant is what reading the numbers of `p` leaves to do
  apply Exists.intro
  constructor
  case h.right =>
    intro q hsteps horigin
    rw [Parser.formula, get_bind, hsteps, horigin]
  apply h.bind (h.statements (h.expression hlocal) p.steps)
  intro items
  apply h.bind (h.expect _ _)
  intro _
  split
  · exact h.pure _
  · exact h.node _ _

end Inherited

def after {α : Type} (m : ParseM α) (p : Parser) : Parser :=
  match m p with
  | .ok _ q | .error _ q => q

def GoesOn (p q : Parser) : Prop := q.Within p ∧ p.nextId ≤ q.nextId

theorem GoesOn.refl (p : Parser) : p.GoesOn p := ⟨.refl p, Nat.le_refl _⟩

theorem GoesOn.trans {p q r : Parser} (h : p.GoesOn q) (k : q.GoesOn r) : p.GoesOn r :=
  ⟨k.1.trans h.1, Nat.le_trans h.2 k.2⟩

theorem GoesOn.subset {p q : Parser} {tokens : List Token} (h : p.GoesOn q)
    (hp : p.remaining ⊆ tokens) : q.remaining ⊆ tokens :=
  fun _ ht => hp (h.1.subset ht)

def Accountable (tokens : List Token) (α : Type) (m : ParseM α) : Prop :=
  ∀ p, p.remaining ⊆ tokens →
    p.GoesOn (after m p) ∧ ∀ e q, m p = .error e q → e.BlamedOn tokens

theorem accountable_of_ok {tokens : List Token} {α : Type} {m : ParseM α}
    (h : ∀ p, ∃ a q, m p = .ok a q ∧ p.GoesOn q) : Accountable tokens α m := by
  intro p _
  obtain ⟨a, q, hq, hgoes⟩ := h p
  rw [after, hq]
  exact ⟨hgoes, fun _ _ he => nomatch he⟩

theorem accountable_throw {tokens : List Token} {α : Type} {t : Token} {cause : ParseError.Cause}
    (ht : t ∈ tokens) (hcause : cause.Blames t.kind) :
    Accountable tokens α (throw ⟨cause, t.position⟩) := by
  intro p _
  refine ⟨.refl p, fun e q he => ?_⟩
  cases he
  exact ⟨t, ht, rfl, hcause⟩

theorem Accountable.bind {tokens : List Token} {α β : Type} {m : ParseM α} {f : α → ParseM β}
    (hm : Accountable tokens α m) (hf : ∀ a, Accountable tokens β (f a)) :
    Accountable tokens β (m >>= f) := by
  intro p hp
  obtain ⟨hgoes, hblamed⟩ := hm p hp
  unfold after at hgoes ⊢
  simp only [Bind.bind, EStateM.bind]
  cases hq : m p with
  | ok a q =>
    rw [hq] at hgoes
    obtain ⟨hnext, hothers⟩ := hf a q (hgoes.subset hp)
    exact ⟨hgoes.trans hnext, hothers⟩
  | error e q =>
    rw [hq] at hgoes
    refine ⟨hgoes, fun e' q' he => ?_⟩
    cases he
    exact hblamed e q hq

theorem accountable_enter {tokens : List Token} {t : Token} (ht : t ∈ tokens) :
    Accountable tokens Unit (enter t.position) := by
  intro p _
  have hgoes : p.GoesOn p.deeper := ⟨List.suffix_refl _, Nat.le_refl _⟩
  unfold after enter
  by_cases hdepth : p.depth < p.limit
  · simp only [hdepth, if_true]
    exact ⟨hgoes, fun _ _ he => nomatch he⟩
  · simp only [hdepth, if_false]
    refine ⟨hgoes, fun e q he => ?_⟩
    cases he
    exact ⟨t, ht, rfl, trivial⟩

theorem inherited_accountable (tokens : List Token) :
    Inherited (· ∈ tokens) (Accountable tokens) where
  pure a := accountable_of_ok fun p => ⟨a, p, rfl, .refl p⟩
  bind := Accountable.bind
  peek hf p hp := hf p.current (hp List.mem_cons_self) p hp
  advance := accountable_of_ok fun p => ⟨(), p.step, rfl, step_within p, by simp⟩
  enter := accountable_enter
  leave levels := accountable_of_ok fun p =>
    ⟨(), p.shallower levels, rfl, List.suffix_refl _, Nat.le_refl _⟩
  mark position := accountable_of_ok fun p =>
    ⟨p.markAt position, p.numbered, rfl, List.suffix_refl _, Nat.le_succ _⟩
  exhausted := by
    intro _ p hp
    refine ⟨.refl p, fun e q he => ?_⟩
    cases he
    exact ⟨p.current, hp List.mem_cons_self, rfl, trivial⟩
  throw := accountable_throw

theorem local_accountable (tokens : List Token) : Local (Accountable tokens) := by
  intro α m h p hp
  obtain ⟨m', hm', heq⟩ := h p
  rw [after, heq p rfl rfl]
  exact hm' p hp

theorem accountable_expression (tokens : List Token) : Accountable tokens Expr expression :=
  (inherited_accountable tokens).expression (local_accountable tokens)

theorem accountable_formula (tokens : List Token) : Accountable tokens Expr formula :=
  (inherited_accountable tokens).formula (local_accountable tokens)

end Parser
end FieldFormula
