import FieldFormula.Compilation

/-!
Expressions of the targets as their languages read them, from lexemes by precedence. The reader
goes through the lexemes once, with the operators and brackets that wait for an operand on a stack.
Every operator has a level in each target, and takes from its surroundings what binds more tightly.
Main statement: a tree whose operands bind tightly enough to stand where they do is read back from
its lexemes (`run_lexemes`).
-/
namespace FieldFormula.Reading

inductive Quote where
  | single | double
  deriving DecidableEq, Repr

/-- Operators between operands. `loose` is the equality of scripts that has one null, and `orElse`
replaces a null. -/
inductive Link where
  | binary (op : BinaryOp)
  | loose (negated : Bool)
  | orElse
  | comma
  deriving DecidableEq, Repr

inductive Sign where
  | minus | not
  deriving DecidableEq, Repr

inductive Suffix where
  | cast (type : String)
  | isNull (negated : Bool)
  | member (name : String)
  | invoke
  deriving DecidableEq, Repr

inductive Lexeme where
  | text (quote : Quote) (value : String)
  | number (value : Decimal)
  | constant (value : Bool)
  | null
  | name (word : String)
  | link (op : Link)
  | bang | cast | is | dot | question | colon
  | leftParen | rightParen | leftBracket | rightBracket | leftBrace | rightBrace
  | caseMark | whenMark | thenMark | elseMark | endMark
  | templateStart | templateNext | templateEnd
  deriving DecidableEq, Repr

/-- `branch` is `CASE WHEN ... END`, and `choose` the operator `?` of scripts. -/
inductive Tree where
  | text (quote : Quote) (value : String)
  | number (value : Decimal)
  | constant (value : Bool)
  | null
  | name (word : String)
  | sign (op : Sign) (operand : Tree)
  | link (op : Link) (left right : Tree)
  | suffix (op : Suffix) (operand : Tree)
  | group (inner : Tree)
  | apply (function args : Tree)
  | index (subject key : Tree)
  | object (key : String) (value : Tree)
  | template (first second : Tree)
  | branch (condition yes no : Tree)
  | choose (condition yes no : Tree)
  deriving DecidableEq, Repr

/-- How tightly the operators of SQL bind; `&` is none of them. -/
def sqlLevel : BinaryOp → Nat
  | .concat => 1
  | .or => 2
  | .and => 3
  | .equal | .notEqual | .less | .greater | .lessEqual | .greaterEqual => 6
  | .add | .subtract => 7
  | .multiply | .divide | .modulo => 8
  | .power => 9

/-- How tightly the operators of scripts bind; `&` and `^` are none of them. -/
def scriptLevel : BinaryOp → Nat
  | .concat | .power => 1
  | .or => 3
  | .and => 4
  | .equal | .notEqual => 5
  | .less | .greater | .lessEqual | .greaterEqual => 6
  | .add | .subtract => 7
  | .multiply | .divide | .modulo => 8

def Link.level : Target → Link → Nat
  | .sql, binary op => sqlLevel op
  | .script, binary op => scriptLevel op
  | _, loose _ => 5
  | _, orElse => 3
  | _, comma => 1

/-- In SQL, comparisons do not stand side by side. -/
def Link.chains : Target → Link → Bool
  | .sql, binary op => !op.isComparison
  | _, _ => true

def Sign.level : Target → Sign → Nat
  | .sql, not => 4
  | _, _ => 10

def Suffix.level : Suffix → Nat
  | isNull _ => 5
  | cast _ => 11
  | member _ | invoke => 12

def callLevel : Nat := 12

def chooseLevel : Nat := 2

def Sign.lexeme : Sign → Lexeme
  | minus => .link (.binary .subtract)
  | not => .bang

def Suffix.lexemes : Suffix → List Lexeme
  | cast type => [.cast, .name type]
  | isNull false => [.is, .null]
  | isNull true => [.is, .bang, .null]
  | member name => [.dot, .name name]
  | invoke => [.leftParen, .rightParen]

namespace Tree

def lexemes : Tree → List Lexeme
  | text quote s => [.text quote s]
  | number d => [.number d]
  | constant b => [.constant b]
  | null => [.null]
  | name word => [.name word]
  | sign op t => op.lexeme :: t.lexemes
  | link op l r => l.lexemes ++ .link op :: r.lexemes
  | suffix op t => t.lexemes ++ op.lexemes
  | group t => .leftParen :: (t.lexemes ++ [.rightParen])
  | apply f args => f.lexemes ++ .leftParen :: (args.lexemes ++ [.rightParen])
  | index t key => t.lexemes ++ .leftBracket :: (key.lexemes ++ [.rightBracket])
  | object key t => .leftBrace :: .name key :: .colon :: (t.lexemes ++ [.rightBrace])
  | template a b =>
    .templateStart :: (a.lexemes ++ .templateNext :: (b.lexemes ++ [.templateEnd]))
  | branch c y n =>
    .caseMark :: .whenMark :: (c.lexemes ++ .thenMark :: (y.lexemes ++ .elseMark ::
      (n.lexemes ++ [.endMark])))
  | choose c y n => c.lexemes ++ .question :: (y.lexemes ++ .colon :: n.lexemes)

/-- How tightly an operator behind the tree may bind without reaching into it. -/
def level (target : Target) : Tree → Nat
  | sign op _ => op.level target
  | link op _ _ => op.level target
  | suffix op _ => op.level
  | apply _ _ | index _ _ => callLevel
  | choose _ _ _ => chooseLevel
  | _ => 13

/-- An operator before the tree that binds less tightly does not reach into it. -/
def reach (target : Target) : Tree → Nat
  | sign _ _ => 13
  | choose _ _ _ => chooseLevel + 1
  | t => t.level target

/-- Operands bind tightly enough to stand where they do. -/
def Graded (target : Target) : Tree → Prop
  | text _ _ | number _ | constant _ | null | name _ => True
  | sign op t => t.Graded target ∧ op.level target < t.reach target ∧
      op.level target ≤ t.level target
  | link op l r => l.Graded target ∧ r.Graded target ∧
      (if op.chains target then op.level target ≤ l.level target
        else op.level target < l.level target) ∧
      op.level target < r.reach target ∧ op.level target ≤ r.level target
  | suffix op t => t.Graded target ∧ op.level ≤ t.level target
  | group t | object _ t => t.Graded target
  | apply f args => f.Graded target ∧ args.Graded target ∧ callLevel ≤ f.level target
  | index t key => t.Graded target ∧ key.Graded target ∧ callLevel ≤ t.level target
  | template a b => a.Graded target ∧ b.Graded target
  | branch c y n => c.Graded target ∧ y.Graded target ∧ n.Graded target
  | choose c y n => c.Graded target ∧ y.Graded target ∧ n.Graded target ∧
      chooseLevel < c.level target ∧ chooseLevel < n.reach target ∧ chooseLevel ≤ n.level target

def isLogical : Tree → Bool
  | link (.binary .and) _ _ | link (.binary .or) _ _ => true
  | _ => false

def isOrElse : Tree → Bool
  | link .orElse _ _ => true
  | _ => false

def clashes (t operand : Tree) : Bool :=
  t.isLogical && operand.isOrElse || t.isOrElse && operand.isLogical

def unmixed : Tree → Bool
  | text _ _ | number _ | constant _ | null | name _ => true
  | link op l r =>
    l.unmixed && r.unmixed && !(link op l r).clashes l && !(link op l r).clashes r
  | sign _ t | suffix _ t | group t | object _ t => t.unmixed
  | apply a b | index a b | template a b => a.unmixed && b.unmixed
  | branch c y n | choose c y n => c.unmixed && y.unmixed && n.unmixed

end Tree

inductive Bracket where
  | paren
  | call (function : Tree)
  | index (subject : Tree)
  | property (key : String)
  | hole
  | nextHole (first : Tree)
  | condition
  | yes (condition : Tree)
  | no (condition yes : Tree)
  | question (condition : Tree)

inductive Frame where
  | operator (level : Nat) (apply : Tree → Tree)
  | bracket (b : Bracket)

inductive Reader where
  | wanting (stack : List Frame)
  | holding (stack : List Frame) (operand : Tree)

def reduce (level : Nat) : List Frame → Tree → List Frame × Tree
  | .operator l apply :: stack, t =>
    if level ≤ l then reduce level stack (apply t) else (.operator l apply :: stack, t)
  | stack, t => (stack, t)

def topLevel : List Frame → Nat
  | .operator l _ :: _ => l
  | _ => 0

namespace Reader

def await (level : Nat) (apply : Tree → Tree → Tree) : List Frame × Tree → Reader
  | (stack, t) => wanting (.operator level (apply t) :: stack)

def enter (bracket : Tree → Bracket) : List Frame × Tree → Reader
  | (stack, t) => wanting (.bracket (bracket t) :: stack)

def complete (apply : Tree → Tree) : List Frame × Tree → Reader
  | (stack, t) => holding stack (apply t)

/-- An operator that does not chain is not read where another of its level waits. -/
def link (target : Target) (op : Link) (stack : List Frame) (t : Tree) : Option Reader :=
  let level := op.level target
  if op.chains target then some (await level (.link op) (reduce level stack t))
  else if topLevel (reduce (level + 1) stack t).1 = level then none
  else some (await level (.link op) (reduce (level + 1) stack t))

def close : Lexeme → List Frame × Tree → Option Reader
  | .rightParen, (.bracket .paren :: stack, t) => some (holding stack (.group t))
  | .rightParen, (.bracket (.call f) :: stack, t) => some (holding stack (.apply f t))
  | .rightBracket, (.bracket (.index s) :: stack, t) => some (holding stack (.index s t))
  | .rightBrace, (.bracket (.property key) :: stack, t) => some (holding stack (.object key t))
  | .templateNext, (.bracket .hole :: stack, t) => some (wanting (.bracket (.nextHole t) :: stack))
  | .templateEnd, (.bracket (.nextHole a) :: stack, t) => some (holding stack (.template a t))
  | .thenMark, (.bracket .condition :: stack, t) => some (wanting (.bracket (.yes t) :: stack))
  | .elseMark, (.bracket (.yes c) :: stack, t) => some (wanting (.bracket (.no c t) :: stack))
  | .endMark, (.bracket (.no c y) :: stack, t) => some (holding stack (.branch c y t))
  | .colon, (.bracket (.question c) :: stack, t) =>
    some (wanting (.operator chooseLevel (.choose c t) :: stack))
  | _, _ => none

def finish : List Frame × Tree → Option Tree
  | ([], t) => if t.unmixed then some t else none
  | _ => none

def run (target : Target) : Reader → List Lexeme → Option Tree
  | holding stack t, [] => finish (reduce 0 stack t)
  | wanting stack, .text quote s :: ls => run target (holding stack (.text quote s)) ls
  | wanting stack, .number d :: ls => run target (holding stack (.number d)) ls
  | wanting stack, .constant b :: ls => run target (holding stack (.constant b)) ls
  | wanting stack, .null :: ls => run target (holding stack .null) ls
  | wanting stack, .name word :: ls => run target (holding stack (.name word)) ls
  | wanting stack, .link (.binary .subtract) :: ls =>
    run target (wanting (.operator (Sign.minus.level target) (.sign .minus) :: stack)) ls
  | wanting stack, .bang :: ls =>
    run target (wanting (.operator (Sign.not.level target) (.sign .not) :: stack)) ls
  | wanting stack, .leftParen :: ls => run target (wanting (.bracket .paren :: stack)) ls
  | wanting (.bracket (.call f) :: stack), .rightParen :: ls =>
    run target (holding stack (.suffix .invoke f)) ls
  | wanting stack, .leftBrace :: .name key :: .colon :: ls =>
    run target (wanting (.bracket (.property key) :: stack)) ls
  | wanting stack, .templateStart :: ls => run target (wanting (.bracket .hole :: stack)) ls
  | wanting stack, .caseMark :: .whenMark :: ls =>
    run target (wanting (.bracket .condition :: stack)) ls
  | wanting _, _ => none
  | holding stack t, .link op :: ls => (link target op stack t).bind fun r => run target r ls
  | holding stack t, .is :: .null :: ls =>
    run target (complete (.suffix (.isNull false)) (reduce 5 stack t)) ls
  | holding stack t, .is :: .bang :: .null :: ls =>
    run target (complete (.suffix (.isNull true)) (reduce 5 stack t)) ls
  | holding stack t, .cast :: .name type :: ls =>
    run target (complete (.suffix (.cast type)) (reduce 11 stack t)) ls
  | holding stack t, .dot :: .name name :: ls =>
    run target (complete (.suffix (.member name)) (reduce callLevel stack t)) ls
  | holding stack t, .leftParen :: ls => run target (enter .call (reduce callLevel stack t)) ls
  | holding stack t, .leftBracket :: ls => run target (enter .index (reduce callLevel stack t)) ls
  | holding stack t, .question :: ls =>
    run target (enter .question (reduce (chooseLevel + 1) stack t)) ls
  | holding stack t, l :: ls => (close l (reduce 0 stack t)).bind fun r => run target r ls

variable {target : Target} {ls : List Lexeme} {t : Tree} {stack : List Frame}

theorem reduce_of_lt {level : Nat} (h : topLevel stack < level) (t : Tree) :
    reduce level stack t = (stack, t) := by
  match stack with
  | [] | .bracket _ :: _ => rfl
  | .operator l apply :: stack =>
    have hl : l < level := h
    rw [reduce, if_neg (Nat.not_le.2 hl)]

theorem reduce_bracket (level : Nat) (b : Bracket) (stack : List Frame) (t : Tree) :
    reduce level (.bracket b :: stack) t = (.bracket b :: stack, t) := rfl

/-- Before any stack whose last operator binds less tightly than `reach`, the lexemes leave the
reader as if it held the whole tree, for every operator that binds at most as tightly as
`level`. -/
def Reads (target : Target) (ls : List Lexeme) (t : Tree) (reach level : Nat) : Prop :=
  ∀ stack rest, topLevel stack < reach → ∃ stack' t',
    run target (wanting stack) (ls ++ rest) = run target (holding stack' t') rest ∧
    ∀ l ≤ level, reduce l stack' t' = reduce l stack t

theorem reads_of_run {reach level : Nat} (h : ∀ stack rest, topLevel stack < reach →
    run target (wanting stack) (ls ++ rest) = run target (holding stack t) rest) :
    Reads target ls t reach level :=
  fun stack rest hs => ⟨stack, t, h stack rest hs, fun _ _ => rfl⟩

theorem Reads.sign {op : Sign} {reach level : Nat} (h : Reads target ls t reach level)
    (hr : op.level target < reach) (hl : op.level target ≤ level) (any : Nat) :
    Reads target (op.lexeme :: ls) (.sign op t) any (op.level target) := by
  intro stack rest _
  obtain ⟨stack', t', hrun, hred⟩ := h (.operator (op.level target) (.sign op) :: stack) rest hr
  refine ⟨stack', t', ?_, fun l hle => ?_⟩
  · rw [← hrun]
    cases op <;> rfl
  · rw [hred l (Nat.le_trans hle hl), reduce, if_pos hle]

theorem link_of_lt {op : Link} {stack' : List Frame} {t' : Tree} {level : Nat}
    (hred : ∀ l ≤ level, reduce l stack' t' = reduce l stack t)
    (hlevel : if op.chains target then op.level target ≤ level else op.level target < level)
    (hs : topLevel stack < op.level target) :
    link target op stack' t' =
      some (wanting (.operator (op.level target) (.link op t) :: stack)) := by
  unfold link
  by_cases hc : op.chains target = true
  · rw [if_pos hc] at hlevel
    simp only [hc, if_true, hred _ hlevel, reduce_of_lt hs, await]
  · rw [if_neg hc] at hlevel
    have hnext : topLevel stack < op.level target + 1 := Nat.lt_succ_of_lt hs
    simp only [hc, hred _ hlevel, reduce_of_lt hnext, await, Nat.ne_of_lt hs, if_false]
    rfl

theorem Reads.link {op : Link} {ms : List Lexeme} {r : Tree} {reach level reach' level' : Nat}
    (hl : Reads target ls t reach level) (hr : Reads target ms r reach' level')
    (hlreach : op.level target ≤ reach)
    (hlevel : if op.chains target then op.level target ≤ level else op.level target < level)
    (hrreach : op.level target < reach') (hrlevel : op.level target ≤ level') :
    Reads target (ls ++ .link op :: ms) (.link op t r) (op.level target) (op.level target) := by
  intro stack rest hs
  -- the operator collects what its left operand left on the stack, then waits for the right one
  obtain ⟨stack₁, t₁, hrun₁, hred₁⟩ := hl stack (.link op :: (ms ++ rest)) (by omega)
  obtain ⟨stack₂, t₂, hrun₂, hred₂⟩ := hr (.operator (op.level target) (.link op t) :: stack) rest
    hrreach
  refine ⟨stack₂, t₂, ?_, fun l hle => ?_⟩
  · rw [List.append_assoc, List.cons_append, hrun₁, run, link_of_lt hred₁ hlevel hs,
      Option.bind_some, hrun₂]
  · rw [hred₂ l (Nat.le_trans hle hrlevel), reduce, if_pos hle]

theorem Reads.behind {reach level outer : Nat} (h : Reads target ls t reach level)
    (hr : outer ≤ reach) (hl : outer ≤ level) (ms : List Lexeme) (next : List Frame × Tree → Reader)
    (hms : ∀ stack t rest, run target (holding stack t) (ms ++ rest) =
      run target (next (reduce outer stack t)) rest)
    (hs : topLevel stack < outer) (rest : List Lexeme) :
    run target (wanting stack) (ls ++ (ms ++ rest)) = run target (next (stack, t)) rest := by
  obtain ⟨stack', t', hrun, hred⟩ := h stack (ms ++ rest) (by omega)
  rw [hrun, hms, hred outer hl, reduce_of_lt hs]

theorem Reads.suffix {op : Suffix} {reach level : Nat} (h : Reads target ls t reach level)
    (hr : op.level ≤ reach) (hl : op.level ≤ level) :
    Reads target (ls ++ op.lexemes) (.suffix op t) op.level op.level := by
  apply reads_of_run
  intro stack rest hs
  rw [List.append_assoc]
  cases op with
  | cast type => exact h.behind hr hl _ (complete _) (fun _ _ _ => rfl) hs rest
  | isNull negated =>
    cases negated <;> exact h.behind hr hl _ (complete _) (fun _ _ _ => rfl) hs rest
  | member name => exact h.behind hr hl _ (complete _) (fun _ _ _ => rfl) hs rest
  | invoke =>
    -- the parenthesis opens a call, which ends at once
    exact h.behind hr hl [.leftParen] (enter .call) (fun _ _ _ => rfl) hs (.rightParen :: rest)

theorem Reads.closed {reach level : Nat} (h : Reads target ls t reach level) (hr : 0 < reach)
    {b : Bracket} {l : Lexeme} {r : Reader}
    (hl : ∀ stack t rest, run target (holding stack t) (l :: rest) =
      (close l (reduce 0 stack t)).bind fun r => run target r rest)
    (hclose : close l (.bracket b :: stack, t) = some r) (rest : List Lexeme) :
    run target (wanting (.bracket b :: stack)) (ls ++ l :: rest) = run target r rest := by
  obtain ⟨stack', t', hrun, hred⟩ := h (.bracket b :: stack) (l :: rest) hr
  rw [hrun, hl, hred 0 (Nat.zero_le _), reduce_bracket, hclose, Option.bind_some]

end Reader

namespace Tree
variable {target : Target}

theorem level_le_reach (target : Target) (t : Tree) : t.level target ≤ t.reach target := by
  cases t with
  | sign op t => cases target <;> cases op <;> simp [level, reach, Sign.level]
  | choose c y n => exact Nat.le_succ _
  | _ => exact Nat.le_refl _

theorem level_pos (target : Target) (t : Tree) : 0 < t.level target := by
  cases t with
  | sign op t => cases target <;> cases op <;> simp [level, Sign.level]
  | link op l r =>
    cases op with
    | binary op => cases target <;> cases op <;> simp [level, Link.level, sqlLevel, scriptLevel]
    | _ => cases target <;> simp [level, Link.level]
  | suffix op t => cases op <;> simp [level, Suffix.level]
  | _ => simp [level, callLevel, chooseLevel]

theorem reach_pos (target : Target) (t : Tree) : 0 < t.reach target :=
  Nat.lt_of_lt_of_le (t.level_pos target) (t.level_le_reach target)

open Reader in
theorem reads_lexemes {t : Tree} (h : t.Graded target) :
    Reads target t.lexemes t (t.reach target) (t.level target) := by
  induction t with
  | text _ _ | number _ | constant _ | null | name _ => exact reads_of_run fun _ _ _ => rfl
  | sign op t ih =>
    obtain ⟨ht, hr, hl⟩ := h
    exact (ih ht).sign hr hl 13
  | link op l r ihl ihr =>
    obtain ⟨hl, hr, hlevel, hreach, hright⟩ := h
    have hle : op.level target ≤ l.level target := by
      split at hlevel
      · exact hlevel
      · exact Nat.le_of_lt hlevel
    exact (ihl hl).link (ihr hr) (Nat.le_trans hle (l.level_le_reach target)) hlevel hreach hright
  | suffix op t ih =>
    obtain ⟨ht, hl⟩ := h
    exact (ih ht).suffix (Nat.le_trans hl (t.level_le_reach target)) hl
  | group t ih =>
    refine reads_of_run fun stack rest _ => ?_
    rw [lexemes, List.cons_append, List.append_assoc]
    exact (ih h).closed (t.reach_pos target) (fun _ _ _ => rfl) rfl rest
  | apply f args ihf iha =>
    obtain ⟨hf, ha, hl⟩ := h
    refine reads_of_run fun stack rest hs => ?_
    rw [lexemes, List.append_assoc, List.cons_append, List.append_assoc]
    refine ((ihf hf).behind (Nat.le_trans hl (f.level_le_reach target)) hl [.leftParen]
      (enter .call) (fun _ _ _ => rfl) hs _).trans ?_
    exact (iha ha).closed (args.reach_pos target) (fun _ _ _ => rfl) rfl rest
  | index t key iht ihk =>
    obtain ⟨ht, hk, hl⟩ := h
    refine reads_of_run fun stack rest hs => ?_
    rw [lexemes, List.append_assoc, List.cons_append, List.append_assoc]
    refine ((iht ht).behind (Nat.le_trans hl (t.level_le_reach target)) hl [.leftBracket]
      (enter .index) (fun _ _ _ => rfl) hs _).trans ?_
    exact (ihk hk).closed (key.reach_pos target) (fun _ _ _ => rfl) rfl rest
  | object key t ih =>
    refine reads_of_run fun stack rest _ => ?_
    rw [lexemes, List.cons_append, List.cons_append, List.cons_append, List.append_assoc]
    exact (ih h).closed (t.reach_pos target) (fun _ _ _ => rfl) rfl rest
  | template a b iha ihb =>
    obtain ⟨ha, hb⟩ := h
    refine reads_of_run fun stack rest _ => ?_
    rw [lexemes, List.cons_append, List.append_assoc, List.cons_append, List.append_assoc]
    refine ((iha ha).closed (a.reach_pos target) (fun _ _ _ => rfl) rfl _).trans ?_
    exact (ihb hb).closed (b.reach_pos target) (fun _ _ _ => rfl) rfl rest
  | branch c y n ihc ihy ihn =>
    obtain ⟨hc, hy, hn⟩ := h
    refine reads_of_run fun stack rest _ => ?_
    simp only [lexemes, List.cons_append, List.append_assoc]
    refine ((ihc hc).closed (c.reach_pos target) (fun _ _ _ => rfl) rfl _).trans ?_
    refine ((ihy hy).closed (y.reach_pos target) (fun _ _ _ => rfl) rfl _).trans ?_
    exact (ihn hn).closed (n.reach_pos target) (fun _ _ _ => rfl) rfl rest
  | choose c y n ihc ihy ihn =>
    obtain ⟨hc, hy, hn, hcl, hnr, hnl⟩ := h
    intro stack rest hs
    obtain ⟨stack', t', hrun, hred⟩ :=
      ihn hn (.operator chooseLevel (.choose c y) :: stack) rest hnr
    refine ⟨stack', t', ?_, fun l hl => ?_⟩
    · rw [lexemes, List.append_assoc, List.cons_append, List.append_assoc]
      refine ((ihc hc).behind (Nat.le_trans hcl (c.level_le_reach target)) hcl [.question]
        (enter .question) (fun _ _ _ => rfl) hs _).trans ?_
      refine Eq.trans ?_ hrun
      exact (ihy hy).closed (y.reach_pos target) (fun _ _ _ => rfl) rfl _
    · have hl : l ≤ chooseLevel := hl
      rw [hred l (Nat.le_trans hl hnl), reduce, if_pos hl]

theorem run_lexemes {t : Tree} (h : t.Graded target) (hu : t.unmixed = true) :
    Reader.run target (.wanting []) t.lexemes = some t := by
  obtain ⟨stack, t', hrun, hred⟩ := reads_lexemes h [] [] (t.reach_pos target)
  rw [List.append_nil] at hrun
  rw [hrun, Reader.run, hred 0 (Nat.zero_le _), reduce, Reader.finish, if_pos hu]
  simp

end Tree

end FieldFormula.Reading
