import FieldFormula.Compilation

/-!
Logical terms of the targets: how their lexemes are read and what they mean. Lexemes are read in one
pass by precedence, with the operators that wait for an operand on a stack: negation binds tightest,
then conjunction, then disjunction. Main statement: a term whose operands bind tightly enough is
read back from its lexemes (`read_flatten`).
-/
namespace FieldFormula.Logic

/-- `orElse` is the operator that replaces a missing value. -/
inductive Connective where
  | and | or | orElse
  deriving DecidableEq, Repr

def Connective.level : Connective → Nat
  | or | orElse => 1
  | and => 2

inductive Lexeme where
  | constant (value : Bool)
  | field (name : String)
  | not
  | connective (op : Connective)
  | leftParen | coalesce | comma | rightParen
  deriving DecidableEq, Repr

inductive Term where
  | constant (value : Bool)
  | field (name : String)
  | not (operand : Term)
  | binary (op : Connective) (left right : Term)
  | coalesce (first second : Term)
  | group (inner : Term)
  deriving DecidableEq, Repr

namespace Term

def level : Term → Nat
  | binary op _ _ => op.level
  | not _ => 3
  | _ => 4

def flatten : Term → List Lexeme
  | constant b => [.constant b]
  | field name => [.field name]
  | not t => .not :: t.flatten
  | binary op l r => l.flatten ++ .connective op :: r.flatten
  | coalesce a b => .coalesce :: .leftParen :: (a.flatten ++ .comma :: (b.flatten ++ [.rightParen]))
  | group t => .leftParen :: (t.flatten ++ [.rightParen])

def Graded : Term → Prop
  | constant _ | field _ => True
  | not t => t.Graded ∧ 3 ≤ t.level
  | binary op l r => l.Graded ∧ r.Graded ∧ op.level ≤ l.level ∧ op.level < r.level
  | coalesce a b => a.Graded ∧ b.Graded
  | group t => t.Graded

def clashes (op : Connective) (t : Term) : Bool :=
  match t with
  | binary other _ _ => (op == .orElse) != (other == .orElse)
  | _ => false

def unmixed : Term → Bool
  | constant _ | field _ => true
  | not t => t.unmixed
  | binary op l r => l.unmixed && r.unmixed && !l.clashes op && !r.clashes op
  | coalesce a b => a.unmixed && b.unmixed
  | group t => t.unmixed

/-- `!` takes whatever is not true for false; `NOT` leaves a missing value missing. -/
def negate : Target → Option Bool → Option Bool
  | .script, v => some (v != some true)
  | .sql, v => v.map (!·)

/-- The operators of a script give one of their operands; SQL reckons with three truth values. -/
def combine : Target → Connective → Option Bool → Option Bool → Option Bool
  | _, .orElse, a, b => a.or b
  | .script, .and, a, b => if a = some true then b else a
  | .script, .or, a, b => if a = some true then a else b
  | .sql, .and, a, b =>
    if a = some false ∨ b = some false then some false
    else if a = some true ∧ b = some true then some true else none
  | .sql, .or, a, b =>
    if a = some true ∨ b = some true then some true
    else if a = some false ∧ b = some false then some false else none

def eval (target : Target) (env : String → Option Bool) : Term → Option Bool
  | constant b => some b
  | field name => env name
  | not t => negate target (t.eval target env)
  | binary op l r => combine target op (l.eval target env) (r.eval target env)
  | coalesce a b => (a.eval target env).or (b.eval target env)
  | group t => t.eval target env

end Term

inductive Frame where
  | paren
  | named
  | argument (first : Term)
  | negation
  | operation (left : Term) (op : Connective)
  deriving DecidableEq, Repr

inductive Reader where
  | wanting (stack : List Frame)
  | holding (stack : List Frame) (operand : Term)
  deriving DecidableEq, Repr

namespace Reader

def reduce (level : Nat) : List Frame → Term → List Frame × Term
  | .negation :: stack, t =>
    if level ≤ 3 then reduce level stack (.not t) else (.negation :: stack, t)
  | .operation left op :: stack, t =>
    if level ≤ op.level then reduce level stack (.binary op left t)
    else (.operation left op :: stack, t)
  | stack, t => (stack, t)

def operator (op : Connective) : List Frame × Term → Reader
  | (stack, t) => wanting (.operation t op :: stack)

def separate : List Frame × Term → Option Reader
  | (.paren :: .named :: stack, t) => some (wanting (.argument t :: stack))
  | _ => none

def close : List Frame × Term → Option Reader
  | (.paren :: stack, t) => some (holding stack (.group t))
  | (.argument first :: stack, t) => some (holding stack (.coalesce first t))
  | _ => none

def step : Reader → Lexeme → Option Reader
  | wanting stack, .constant b => some (holding stack (.constant b))
  | wanting stack, .field name => some (holding stack (.field name))
  | wanting stack, .not => some (wanting (.negation :: stack))
  | wanting stack, .leftParen => some (wanting (.paren :: stack))
  | wanting stack, .coalesce => some (wanting (.named :: stack))
  | holding stack t, .connective op => some (operator op (reduce op.level stack t))
  | holding stack t, .comma => separate (reduce 0 stack t)
  | holding stack t, .rightParen => close (reduce 0 stack t)
  | _, _ => none

def run : Reader → List Lexeme → Option Reader
  | r, [] => some r
  | r, l :: ls => (r.step l).bind fun r => run r ls

def finish : Reader → Option Term
  | holding stack t =>
    match reduce 0 stack t with
    | ([], t) => if t.unmixed then some t else none
    | _ => none
  | wanting _ => none

end Reader

def read (ls : List Lexeme) : Option Term := (Reader.run (.wanting []) ls).bind Reader.finish

namespace Reader

theorem run_append (r : Reader) (ls ms : List Lexeme) :
    run r (ls ++ ms) = (run r ls).bind fun r => run r ms := by
  induction ls generalizing r with
  | nil => rfl
  | cons l ls ih =>
    rw [List.cons_append, run, run]
    cases r.step l with
    | none => rfl
    | some r => exact ih r

/-- No operator on top of the stack takes an operand of that level from what follows it. -/
def Loose (level : Nat) : List Frame → Prop
  | .negation :: _ => 3 ≤ level
  | .operation _ op :: _ => op.level < level
  | _ => True

theorem Loose.mono {level tighter : Nat} {stack : List Frame} (h : Loose level stack)
    (hle : level ≤ tighter) : Loose tighter stack := by
  match stack with
  | [] | .paren :: _ | .named :: _ | .argument _ :: _ => exact h
  | .negation :: _ => exact Nat.le_trans h hle
  | .operation _ _ :: _ => exact Nat.lt_of_lt_of_le h hle

theorem reduce_of_loose {stack : List Frame} {op : Connective} (h : Loose op.level stack)
    (t : Term) : reduce op.level stack t = (stack, t) := by
  have hop : op.level ≤ 2 := by cases op <;> decide
  match stack with
  | [] | .paren :: _ | .named :: _ | .argument _ :: _ => rfl
  | .negation :: _ =>
    have h : 3 ≤ op.level := h
    omega
  | .operation left other :: stack =>
    have h : other.level < op.level := h
    rw [reduce, if_neg (by omega)]

/-- The lexemes of a term leave the reader as if it held the whole term, for every operator that
does not bind more tightly than the term. -/
theorem run_flatten {t : Term} (h : t.Graded) (stack : List Frame) (hs : Loose t.level stack) :
    ∃ stack' t', run (wanting stack) t.flatten = some (holding stack' t') ∧
      ∀ level ≤ t.level, reduce level stack' t' = reduce level stack t := by
  induction t generalizing stack with
  | constant b => exact ⟨stack, .constant b, rfl, fun _ _ => rfl⟩
  | field name => exact ⟨stack, .field name, rfl, fun _ _ => rfl⟩
  | not t ih =>
    obtain ⟨stack', t', hrun, hred⟩ := ih h.1 (.negation :: stack) h.2
    refine ⟨stack', t', hrun, fun level hl => ?_⟩
    have hl : level ≤ 3 := hl
    rw [hred level (Nat.le_trans hl h.2), reduce, if_pos hl]
  | binary op l r ihl ihr =>
    -- `op` collects what the left operand left on the stack, then waits below the right one
    obtain ⟨hl, hr, hle, hlt⟩ := h
    obtain ⟨stack₁, t₁, hrun₁, hred₁⟩ := ihl hl stack (hs.mono hle)
    obtain ⟨stack₂, t₂, hrun₂, hred₂⟩ := ihr hr (.operation l op :: stack) hlt
    have hleft : reduce op.level stack₁ t₁ = (stack, l) :=
      (hred₁ op.level hle).trans (reduce_of_loose hs l)
    refine ⟨stack₂, t₂, ?_, fun level hlevel => ?_⟩
    · rw [Term.flatten, run_append, hrun₁, Option.bind_some, run, step, hleft, operator,
        Option.bind_some, hrun₂]
    · have hlevel : level ≤ op.level := hlevel
      rw [hred₂ level (by omega), reduce, if_pos hlevel]
  | coalesce a b iha ihb =>
    obtain ⟨stack₁, t₁, hrun₁, hred₁⟩ := iha h.1 (.paren :: .named :: stack) trivial
    obtain ⟨stack₂, t₂, hrun₂, hred₂⟩ := ihb h.2 (.argument a :: stack) trivial
    have hfirst : reduce 0 stack₁ t₁ = (.paren :: .named :: stack, a) := hred₁ 0 (Nat.zero_le _)
    have hsecond : reduce 0 stack₂ t₂ = (.argument a :: stack, b) := hred₂ 0 (Nat.zero_le _)
    refine ⟨stack, .coalesce a b, ?_, fun _ _ => rfl⟩
    have hopen : run (wanting stack) (Term.coalesce a b).flatten =
      run (wanting (.paren :: .named :: stack))
        (a.flatten ++ .comma :: (b.flatten ++ [.rightParen])) := rfl
    rw [hopen, run_append, hrun₁, Option.bind_some, run, step, hfirst, separate,
      Option.bind_some, run_append, hrun₂, Option.bind_some, run, step, hsecond]
    rfl
  | group t ih =>
    obtain ⟨stack', t', hrun, hred⟩ := ih h (.paren :: stack) trivial
    have hinner : reduce 0 stack' t' = (.paren :: stack, t) := hred 0 (Nat.zero_le _)
    refine ⟨stack, .group t, ?_, fun _ _ => rfl⟩
    have hopen : run (wanting stack) (Term.group t).flatten =
      run (wanting (.paren :: stack)) (t.flatten ++ [.rightParen]) := rfl
    rw [hopen, run_append, hrun, Option.bind_some, run, step, hinner]
    rfl

end Reader

theorem read_flatten {t : Term} (h : t.Graded) (hu : t.unmixed = true) :
    read t.flatten = some t := by
  obtain ⟨stack, t', hrun, hred⟩ := Reader.run_flatten h [] trivial
  rw [read, hrun, Option.bind_some, Reader.finish, hred 0 (Nat.zero_le _)]
  simp [Reader.reduce, hu]

end FieldFormula.Logic
