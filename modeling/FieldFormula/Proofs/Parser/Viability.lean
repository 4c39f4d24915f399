import FieldFormula.Proofs.Compilation.Stages
import FieldFormula.Proofs.Parser.Lookahead
import FieldFormula.Proofs.Parser.Positions
import FieldFormula.Proofs.Token.Faults
import Mathlib.Data.List.Nodup

/-!
Errors of syntax are found at the first token that is to blame. A task that was taken up can always
be completed, by a null for an operand and by the tokens that close what has been opened. Main
statement: the tokens before the reported one go on to a formula without errors of syntax, and the
error is the same whatever follows the token that the parser was left on
(`syntax_error_at_first_offense`).
-/
namespace FieldFormula

def ParseError.Cause.IsSyntax : ParseError.Cause → Prop
  | unexpected _ | expected _ _ => True
  | _ => False

def ParseError.Cause.IsArity : ParseError.Cause → Prop
  | wrongArity _ _ _ => True
  | _ => False

theorem ParseError.Cause.IsSyntax.inTokens {cause : ParseError.Cause} (h : cause.IsSyntax) :
    cause.InTokens := by
  cases cause <;> trivial

theorem ParseError.Cause.IsArity.inTokens {cause : ParseError.Cause} (h : cause.IsArity) :
    cause.InTokens := by
  cases cause <;> trivial

/-- The tokens go on in some way without an error of syntax. A number of arguments that no
further token can mend may remain: a call of a function without arguments has been given some. -/
def Viable (tokens : List Token) : Prop :=
  ∃ others least, ∀ limit err, least ≤ limit →
    parseTokens limit (tokens ++ others) = .error err → err.cause.IsArity

namespace Parser

def Task.Before (kind : Token.Kind) : Task → Prop
  | arguments | argumentsFrom => kind = .rightParen
  | toEnd => kind = .eof
  | _ => ∀ op, kind ≠ .operator op

def Task.EndsBefore (t : Task) (ts : List Token) : Prop :=
  ∃ s us, ts = s :: us ∧ t.Before s.kind

def Task.Done (p q : Parser) : Task → Prop
  | binary least => ∃ e, Run p (.binary least e) q
  | chain least left length compared => ∃ e, Run p (.chain least left length compared e) q
  | unary => ∃ e, Run p (.unary e) q
  | primary => ∃ e, Run p (.primary e) q
  | arguments => ∃ es, Run p (.arguments es) q
  | argumentsFrom => ∃ es, Run p (.argumentsFrom es) q
  | toEnd => ∃ es, Statements p es q ∧ q.current.kind = .eof

def Task.Settles (t : Task) (p : Parser) (rest : List Token) : Prop :=
  (∃ q, t.Done p q ∧ q.remaining = rest) ∨ ∃ err q, Halts p t err q ∧ err.cause.IsArity

section Finish
variable {p q r : Parser} {rest closing : List Token} {t u : Task}

theorem Task.EndsBefore.ne_nil (h : t.EndsBefore rest) : rest ≠ [] := by
  obtain ⟨s, us, rfl, -⟩ := h
  exact List.cons_ne_nil s us

theorem Task.EndsBefore.before {s : Token} {us : List Token} (h : t.EndsBefore (s :: us)) :
    t.Before s.kind := by
  obtain ⟨_, _, heq, hs⟩ := h
  obtain ⟨rfl, rfl⟩ := List.cons.inj heq
  exact hs

theorem Task.EndsBefore.imp (h : t.EndsBefore rest)
    (hu : ∀ kind, t.Before kind → u.Before kind) : u.EndsBefore rest := by
  obtain ⟨s, us, rfl, hs⟩ := h
  exact ⟨s, us, rfl, hu s.kind hs⟩

theorem Task.EndsBefore.current (h : t.EndsBefore rest) (hq : q.remaining = rest) :
    t.Before q.current.kind := by
  rw [← hq] at h
  exact h.before

theorem endsBefore_cons {kind : Token.Kind} (h : t.Before kind) (rest : List Token) :
    t.EndsBefore (.bare kind :: rest) :=
  ⟨.bare kind, rest, rfl, h⟩

theorem endsBefore_moreParts (count least : Nat) (rest : List Token) :
    (Task.binary least).EndsBefore (moreParts count ++ rest) := by
  cases count with
  | zero => exact endsBefore_cons (by simp [Task.Before]) _
  | succ count => exact endsBefore_cons (by simp [Task.Before]) _

theorem run_null (hp : p.remaining = .bare (.literal .null) :: rest) (hrest : rest ≠ []) :
    ∃ e q, Run p (.primary e) q ∧ q.remaining = rest := by
  have hcurrent : p.current = .bare (.literal .null) := List.head_eq_of_cons_eq hp
  exact ⟨_, p.step.numbered, .literal (by rw [hcurrent]; rfl), remaining_step_of_cons hp hrest⟩

theorem run_of_unary {least : Nat} {e : Expr} (hrun : Run p (.unary e) q)
    (hq : ∀ op, q.current.kind ≠ .operator op) : Run p (.binary least e) (q.shallower 0) :=
  .binary hrun (.chainEnd (infixOp?_of_not_operator hq least false))

theorem run_null_binary {least : Nat} (hp : p.remaining = .bare (.literal .null) :: rest)
    (hrest : (Task.binary least).EndsBefore rest) :
    ∃ e q, Run p (.binary least e) q ∧ q.remaining = rest := by
  obtain ⟨e, q, hrun, hq⟩ := run_null hp hrest.ne_nil
  have hcurrent : p.current = .bare (.literal .null) := List.head_eq_of_cons_eq hp
  refine ⟨e, q.shallower 0, run_of_unary (.unaryPrimary ?_ hrun) (hrest.current hq), hq⟩
  rw [hcurrent]
  rfl

theorem Slots.conditional {e : Expr} (h : Slots p 2 q) (hrun : Run q (.binary 0 e) r)
    (hr : r.current.kind = .rightParen) :
    ∃ e, Run p (.primary e) (r.step.shallower 1).numbered := by
  cases h with
  | next h _ hyes hk =>
    cases h with
    | next h _ hcondition hk' =>
      cases h with
      | opened hif hopen hd => exact ⟨_, .conditional hif hopen hd hcondition hk' hyes hk hrun hr⟩

theorem Slots.finish {count more : Nat} {e : Expr} (h : Slots p count q) (hcount : count + more = 2)
    (hrun : Run q (.binary 0 e) r) (hr : r.remaining = moreParts more ++ rest) (hrest : rest ≠ []) :
    ∃ e s, Run p (.primary e) s ∧ s.remaining = rest := by
  -- The induction is on the parts that are still to come: each is a null.
  induction more generalizing count q r e with
  | zero =>
    obtain rfl : count = 2 := hcount
    have hcurrent : r.current = .bare .rightParen := List.head_eq_of_cons_eq hr
    obtain ⟨e', hrun'⟩ := h.conditional hrun (by rw [hcurrent]; rfl)
    exact ⟨e', _, hrun', remaining_step_of_cons hr hrest⟩
  | succ more ih =>
    have hcurrent : r.current = .bare .comma := List.head_eq_of_cons_eq hr
    have hnext : Slots p (count + 1) r.step := .next h (by omega) hrun (by rw [hcurrent]; rfl)
    have hpart := remaining_step_of_cons hr (by simp)
    obtain ⟨e', s, hrun', hs⟩ := run_null_binary hpart (endsBefore_moreParts more 0 rest)
    exact ih hnext (by omega) hrun' hs

theorem Slots.count_le {count : Nat} (h : Slots p count q) : count ≤ 2 := by
  cases h with
  | opened => exact Nat.zero_le 2
  | next _ hlt => exact hlt

theorem Enters.endsBefore (h : Enters p t closing q u) (hrest : t.EndsBefore rest) :
    u.EndsBefore (closing ++ rest) := by
  cases h with
  | left | links _ | right _ _ | nextLink _ _ _ | primary _ | operand _ _ | someArguments _
  | nextArgument _ _ | nextStatement _ _ _ => exact hrest
  | inner _ _ => exact endsBefore_cons (by simp [Task.Before]) rest
  | call _ => exact endsBefore_cons (show Task.arguments.Before .rightParen from rfl) rest
  | slot _ => exact endsBefore_moreParts _ 0 rest
  | argument => exact hrest.imp fun _ => not_operator_of_rightParen
  | statement =>
    refine hrest.imp fun kind hkind op => ?_
    rw [show kind = .eof from hkind]
    simp

theorem Enters.finish (h : Enters p t closing q u) (hu : u.Done q r)
    (hr : r.remaining = closing ++ rest) (hrest : t.EndsBefore rest) : t.Settles p rest := by
  cases h with
  | left =>
    obtain ⟨e, hrun⟩ := hu
    exact .inl ⟨_, ⟨e, run_of_unary hrun (hrest.current hr)⟩, hr⟩
  | links hleft =>
    obtain ⟨e, hrun⟩ := hu
    exact .inl ⟨r, ⟨e, .binary hleft hrun⟩, hr⟩
  | right hop hd =>
    obtain ⟨e, hrun⟩ := hu
    have hend := infixOp?_of_not_operator (hrest.current hr)
    exact .inl ⟨_, ⟨_, .chainLink hop hd hrun (.chainEnd (hend _ _))⟩, hr⟩
  | nextLink hop hd hright =>
    obtain ⟨e, hrun⟩ := hu
    exact .inl ⟨r, ⟨e, .chainLink hop hd hright hrun⟩, hr⟩
  | primary hop =>
    obtain ⟨e, hrun⟩ := hu
    exact .inl ⟨r, ⟨e, .unaryPrimary hop hrun⟩, hr⟩
  | operand hop hd =>
    obtain ⟨e, hrun⟩ := hu
    exact .inl ⟨_, ⟨_, .unaryOperator hop hd hrun⟩, hr⟩
  | inner hk hd =>
    obtain ⟨e, hrun⟩ := hu
    have hcurrent : r.current = .bare .rightParen := List.head_eq_of_cons_eq hr
    exact .inl ⟨_, ⟨_, .group hk hd hrun (by rw [hcurrent]; rfl)⟩,
      remaining_step_of_cons hr hrest.ne_nil⟩
  | slot hs =>
    obtain ⟨e, hrun⟩ := hu
    have hle := hs.count_le
    obtain ⟨e', s, hrun', hs'⟩ := hs.finish (by omega) hrun hr hrest.ne_nil
    exact .inl ⟨s, ⟨e', hrun'⟩, hs'⟩
  | @call f ho =>
    obtain ⟨args, hrun⟩ := hu
    have hcurrent : r.current = .bare .rightParen := List.head_eq_of_cons_eq hr
    have hparen : r.current.kind = .rightParen := by rw [hcurrent]; rfl
    -- The one task that need not end well: no token takes an argument back.
    by_cases harity : f.arity.accepts args.length = true
    · obtain ⟨⟨name, hk, hf⟩, hopen, hd⟩ := ho
      have hcall : Run p.step (.call name p.current.position _) _ :=
        .call hopen hf (by simpa using hd) hrun hparen harity
      exact .inl ⟨_, ⟨_, .identifier hk hcall⟩, remaining_step_of_cons hr hrest.ne_nil⟩
    · exact .inr ⟨_, _, .here (.arity ho hrun hparen (by simpa using harity)), trivial⟩
  | someArguments hk =>
    obtain ⟨es, hrun⟩ := hu
    exact .inl ⟨r, ⟨es, .someArguments hk hrun⟩, hr⟩
  | argument =>
    obtain ⟨e, hrun⟩ := hu
    have hparen : r.current.kind = .rightParen := hrest.current hr
    exact .inl ⟨r, ⟨[e], .lastArgument hrun (by simp [hparen])⟩, hr⟩
  | nextArgument hfirst hk =>
    obtain ⟨es, hrun⟩ := hu
    exact .inl ⟨r, ⟨_, .nextArgument hfirst hk hrun⟩, hr⟩
  | statement =>
    obtain ⟨e, hrun⟩ := hu
    have heof : r.current.kind = .eof := hrest.current hr
    exact .inl ⟨r, ⟨[e], .last hrun (by simp [heof]), heof⟩, hr⟩
  | nextStatement hfirst hk hne =>
    obtain ⟨es, hrun, heof⟩ := hu
    exact .inl ⟨r, ⟨_, .next hfirst hk hne hrun, heof⟩, hr⟩

theorem Enters.settles (h : Enters p t closing q u) (hu : u.Settles q (closing ++ rest))
    (hrest : t.EndsBefore rest) : t.Settles p rest := by
  rcases hu with ⟨r, hdone, hr⟩ | ⟨err, r, hhalts, harity⟩
  · exact h.finish hdone hr hrest
  · exact .inr ⟨err, r, .within h hhalts, harity⟩

end Finish

/-- Behind the tokens `before`, the tokens `others` complete the task under any limit from `least`
on. -/
structure Task.Resumable (t : Task) (p : Parser) (before others : List Token) (least : Nat) :
    Prop where
  resumes : ∀ rest, Resumes p (before ++ (others ++ rest))
  settles {bound : Nat} {rest : List Token} {p' : Parser} : least ≤ bound →
    Mirrors bound (before ++ (others ++ rest)) p p' → t.EndsBefore rest → t.Settles p' rest

section Resume
variable {p q : Parser} {us others closing : List Token} {t u : Task} {err : ParseError}

theorem resumes_of_append {ts : List Token} (h : p.remaining = us ++ ts) (hus : us ≠ [])
    (rest : List Token) : Resumes p (us ++ rest) := by
  cases us with
  | nil => exact absurd rfl hus
  | cons u us =>
    have hcurrent : p.current = u := List.head_eq_of_cons_eq h
    exact ⟨u, us ++ rest, rfl, .inl (by rw [hcurrent])⟩

theorem resumable_null (p : Parser) :
    Task.primary.Resumable p [] [.bare (.literal .null)] 0 := by
  refine ⟨fun rest => ⟨_, rest, rfl, .inr rfl⟩, fun {bound rest p'} _ hp' hrest => ?_⟩
  obtain ⟨e, q, hrun, hq⟩ := run_null hp'.tokens hrest.ne_nil
  exact .inl ⟨q, ⟨e, hrun⟩, hq⟩

theorem resumable_unopened (hp : p.Closed) (hk : p.current.kind = .conditional) :
    Task.primary.Resumable p [p.current]
      (.bare .leftParen :: .bare (.literal .null) :: moreParts 2) (p.depth + 1) := by
  have htokens : p.remaining = [p.current] ++ p.step.remaining := remaining_step hp (by simp [hk])
  refine ⟨fun rest => resumes_of_append htokens (by simp) _,
    fun {bound rest p'} hle hp' hrest => ?_⟩
  have hcurrent := hp'.current
  have hparen := hp'.step (by simp)
  have hroom : p'.depth < p'.limit := by
    rw [hp'.depth, hp'.limit]
    exact hle
  have hslots : Slots p' 0 p'.step.step.deeper :=
    .opened (by rw [hcurrent, hk]) (by rw [hparen.current]; rfl) hroom
  have hpart := (hparen.step (by simp)).deeper
  obtain ⟨e, q, hrun, hq⟩ := run_null_binary hpart.tokens (endsBefore_moreParts 2 0 rest)
  obtain ⟨e', s, hrun', hs⟩ := hslots.finish rfl hrun hq hrest.ne_nil
  exact .inl ⟨s, ⟨e', hrun'⟩, hs⟩

/-- A task within the other one has been done, and what should close the other one is missing. -/
theorem Repeats.resumable {s : Phrase} {R : Parser → Parser → Prop}
    (h : Repeats us (s.EndsAt q) R p q) (hus : us ≠ [])
    (hend : ∀ rest, t.EndsBefore rest → s.EndsAt q (closing ++ rest))
    (hR : ∀ p' r', R p' r' → ∃ q' u, Enters p' t closing q' u ∧ u.Done q' r') :
    t.Resumable p us closing 0 := by
  refine ⟨fun rest => resumes_of_append h.tokens hus _, fun {bound rest p'} _ hp' hrest => ?_⟩
  obtain ⟨r', hr', hmirror⟩ := h.again hp' (hend rest hrest)
  obtain ⟨q', u, henters, hdone⟩ := hR p' r' hr'
  exact henters.finish hdone hmirror.tokens hrest

theorem Task.EndsBefore.endsAt {e : Expr} {ts : List Token} (h : (Task.binary 0).EndsBefore ts)
    (q : Parser) : (Phrase.binary 0 e).EndsAt q ts := by
  obtain ⟨s, us, rfl, hs⟩ := h
  exact ⟨s, us, rfl, .inr hs⟩

theorem Slots.resumable {count : Nat} {e : Expr} {r : Parser} (h : Slots p count q) (hp : p.Closed)
    (hrun : Run q (.binary 0 e) r) :
    ∃ us, p.remaining = us ++ r.remaining ∧
      Task.primary.Resumable p us (moreParts (2 - count)) 0 := by
  obtain ⟨us, hus, hslots⟩ := h.replay hp
  obtain ⟨vs, hread⟩ := hslots.read (h.closed hp) hrun
  refine ⟨us ++ vs, hread.tokens, hread.resumable (by simp [hus]) ?_ ?_⟩
  · exact fun rest _ => (endsBefore_moreParts _ 0 rest).endsAt r
  · rintro p' r' ⟨q', hslots', hrun'⟩
    exact ⟨q', _, .slot hslots', e, hrun'⟩

theorem Faults.resumable (h : Faults p t err q) (hp : p.Closed) (herr : err.cause.IsSyntax) :
    ∃ before j after others least, p.remaining = before ++ j :: after ∧
      j.position = err.position ∧ t.Resumable p before others least := by
  cases h with
  | noOperand _ => exact ⟨[], p.current, p.ahead, _, 0, rfl, rfl, resumable_null p⟩
  | bareName _ _ => exact ⟨[], p.current, p.ahead, _, 0, rfl, rfl, resumable_null p⟩
  | unknown _ _ _ => exact herr.elim
  | arity _ _ _ _ => exact herr.elim
  | unopened hk _ =>
    exact ⟨[p.current], p.step.current, p.step.ahead, _, _, remaining_step hp (by simp [hk]), rfl,
      resumable_unopened hp hk⟩
  | unclosedGroup hk hd hrun _ =>
    obtain ⟨us, hread⟩ := (repeats_open hp (by simp [hk]) hd).read (step_closed hp) hrun
    refine ⟨_, q.current, q.ahead, [.bare .rightParen], 0, hread.tokens, rfl,
      hread.resumable (by simp) ?_ ?_⟩
    · exact fun rest hrest => ((Enters.inner hk hd).endsBefore hrest).endsAt q
    · rintro p' r' ⟨_, ⟨hcurrent, hroom, rfl⟩, hrun'⟩
      exact ⟨_, _, .inner (by rw [hcurrent, hk]) hroom, _, hrun'⟩
  | unseparated hs _ hrun _ =>
    obtain ⟨us, hus, hresume⟩ := hs.resumable hp hrun
    exact ⟨us, q.current, q.ahead, _, 0, hus, rfl, hresume⟩
  | unclosedConditional hs hrun _ =>
    obtain ⟨us, hus, hresume⟩ := hs.resumable hp hrun
    exact ⟨us, q.current, q.ahead, _, 0, hus, rfl, hresume⟩
  | unclosedCall ho hrun _ =>
    obtain ⟨us, hread⟩ := (ho.replay hp).read (step_closed (step_closed hp)) hrun
    refine ⟨_, q.current, q.ahead, [.bare .rightParen], 0, hread.tokens, rfl,
      hread.resumable (by simp) ?_ ?_⟩
    · exact fun rest _ => ⟨.bare .rightParen, rest, rfl, .inr rfl⟩
    · rintro p' r' ⟨_, ⟨ho', -, rfl⟩, hrun'⟩
      exact ⟨_, _, .call ho', _, hrun'⟩
  | unended hrun _ _ =>
    obtain ⟨us, hne, hrun'⟩ := hrun.replay hp
    refine ⟨us, q.current, q.ahead, [], 0, hrun'.tokens, rfl,
      hrun'.resumable (hne trivial) ?_ fun p' r' hr' => ⟨p', _, .statement, _, hr'⟩⟩
    exact fun rest hrest => ((Enters.statement (p := p)).endsBefore hrest).endsAt q

theorem Enters.resumable {before : List Token} {least : Nat} (h : Enters p t closing q u)
    (hp : p.Closed) (hu : u.Resumable q before others least) {after : List Token} :
    q.remaining = before ++ after → ∃ us, p.remaining = us ++ after ∧
      t.Resumable p us (others ++ closing) least := by
  intro hq
  obtain ⟨us, henters⟩ := h.replay hp
  have hassoc (rest : List Token) : us ++ before ++ (others ++ closing ++ rest) =
      us ++ (before ++ (others ++ (closing ++ rest))) := by
    simp only [List.append_assoc]
  refine ⟨us ++ before, by rw [henters.tokens, hq, List.append_assoc], fun rest => ?_,
    fun {bound rest p'} hle hp' hrest => ?_⟩
  · rw [hassoc]
    by_cases hus : us = []
    · subst hus
      have hcurrent : p.current = q.current := List.head_eq_of_cons_eq henters.tokens
      rw [Resumes, hcurrent]
      exact hu.resumes _
    · exact resumes_of_append henters.tokens hus _
  · rw [hassoc] at hp'
    obtain ⟨q', henters', hq'⟩ := henters.again hp' (hu.resumes _)
    exact henters'.settles (hu.settles hle hq' (h.endsBefore hrest)) hrest

theorem Halts.resumable (h : Halts p t err q) (hp : p.Closed) (herr : err.cause.IsSyntax) :
    ∃ before j after others least, p.remaining = before ++ j :: after ∧
      j.position = err.position ∧ t.Resumable p before others least := by
  induction h with
  | here hf => exact hf.resumable hp herr
  | within he _ ih =>
    obtain ⟨before, j, after, others, least, hq, hj, hu⟩ := ih (he.closed hp) herr
    obtain ⟨us, hus, ht⟩ := he.resumable hp hu hq
    exact ⟨us, j, after, _, least, hus, hj, ht⟩

end Resume

theorem exists_of_parseTokens_eq_error {limit : Nat} {tokens : List Token} {err : ParseError}
    (h : parseTokens limit tokens = .error err) :
    ∃ q, formula (.ofTokens limit tokens) = .error err q := by
  unfold parseTokens at h
  split at h
  · cases h
  · rename_i q hq
    cases h
    exact ⟨q, hq⟩

theorem parseTokens_eq_error {limit : Nat} {tokens : List Token} {err : ParseError} {q : Parser}
    (h : formula (.ofTokens limit tokens) = .error err q) :
    parseTokens limit tokens = .error err := by
  rw [parseTokens, h]

section Tokens
variable {limit : Nat} {tokens : List Token} {err : ParseError} {q : Parser}

theorem mirrors_ofTokens {bound : Nat} (hle : limit ≤ bound) (tokens others : List Token) :
    Mirrors bound (ofTokens bound others).remaining (ofTokens limit tokens)
      (ofTokens bound others) := by
  cases tokens <;> cases others <;> exact ⟨rfl, rfl, rfl, rfl, hle⟩

theorem parseTokens_of_statements {items : List Expr}
    (h : Statements (ofTokens limit tokens) items q) (hq : q.current.kind = .eof) :
    ∃ e, parseTokens limit tokens = .ok e := by
  by_cases hone : items.length = 1
  · obtain ⟨e, rfl⟩ := List.length_eq_one_iff.1 hone
    exact ⟨e, parseTokens_eq_ok_iff.2 ⟨[e], q, h, hq, .inl rfl⟩⟩
  · exact ⟨_, parseTokens_eq_ok_iff.2 ⟨items, q, h, hq, .inr ⟨hone, rfl⟩⟩⟩

theorem viable_of_resumable {before others : List Token} {least : Nat}
    (h : Task.toEnd.Resumable (ofTokens limit tokens) before others least) : Viable before := by
  refine ⟨others ++ [.bare .eof], max least limit, fun bound err hbound herr => ?_⟩
  have hleast : least ≤ bound := Nat.le_trans (Nat.le_max_left least limit) hbound
  have hlimit : limit ≤ bound := Nat.le_trans (Nat.le_max_right least limit) hbound
  have hclosed := closed_ofTokens bound (before ++ (others ++ [.bare .eof]))
  have hmirror := mirrors_ofTokens hlimit tokens (before ++ (others ++ [.bare .eof]))
  rw [remaining_ofTokens_of_eof (by simp; rfl)] at hmirror
  rcases h.settles hleast hmirror ⟨.bare .eof, [], rfl, rfl⟩ with
    ⟨q, ⟨items, hitems, hq⟩, -⟩ | ⟨err', q, hhalts, harity⟩
  · obtain ⟨e, he⟩ := parseTokens_of_statements hitems hq
    rw [he] at herr
    cases herr
  · have hformula := (formula_eq_error_iff hclosed harity.inTokens).2 hhalts
    rw [parseTokens_eq_error hformula] at herr
    cases herr
    exact harity

theorem exists_read (h : formula (ofTokens limit tokens) = .error err q)
    (herr : err.cause.InTokens) :
    ∃ read, (ofTokens limit tokens).remaining = read ++ q.remaining ∧
      ∀ others, parseTokens limit (read ++ q.current :: others) = .error err := by
  have hhalts := (formula_eq_error_iff (closed_ofTokens limit tokens) herr).1 h
  obtain ⟨read, hread⟩ := hhalts.replay (closed_ofTokens limit tokens)
  refine ⟨read, hread.tokens, fun others => ?_⟩
  have hmirror := mirrors_ofTokens (Nat.le_refl limit) tokens (read ++ q.current :: others)
  obtain ⟨tail, htail, -⟩ := remaining_ofTokens limit (read ++ q.current :: others)
  rw [htail, List.append_assoc] at hmirror
  obtain ⟨q', hq', -⟩ := hread.again hmirror ⟨others ++ tail, rfl⟩
  exact parseTokens_eq_error ((formula_eq_error_iff (closed_ofTokens limit _) herr).2 hq')

end Tokens

end Parser

theorem eq_of_position_eq {source : String} {tokens : List Token} {s t : Token}
    (h : tokenize source = .ok tokens) (hs : s ∈ tokens) (ht : t ∈ tokens)
    (hposition : s.position = t.position) : s = t :=
  List.inj_on_of_nodup_map (Scanner.scanned_of_tokens h).nodup_positions hs ht hposition

theorem syntax_error_at_first_offense (source : String) (tokens : List Token) (limit : Nat)
    (err : ParseError) (htokens : tokenize source = .ok tokens)
    (h : parseTokens limit tokens = .error err) (herr : err.cause.IsSyntax) :
    (∃ before j after, tokens = before ++ j :: after ∧ j.position = err.position ∧
      (∀ t ∈ tokens, t.position = err.position → t = j) ∧ Viable before) ∧
    ∃ q read, Parser.formula (.ofTokens limit tokens) = .error err q ∧
      tokens = read ++ q.remaining ∧
      ∀ others, parseTokens limit (read ++ q.current :: others) = .error err := by
  obtain ⟨q, hq⟩ := Parser.exists_of_parseTokens_eq_error h
  have hclosed := Parser.closed_ofTokens limit tokens
  have hremaining : (Parser.ofTokens limit tokens).remaining = tokens :=
    Parser.remaining_ofTokens_of_eof (getLast?_of_tokenize htokens)
  constructor
  · have hhalts := (Parser.formula_eq_error_iff hclosed herr.inTokens).1 hq
    obtain ⟨before, j, after, others, least, hbefore, hj, hresume⟩ := hhalts.resumable hclosed herr
    rw [hremaining] at hbefore
    refine ⟨before, j, after, hbefore, hj, fun t ht hposition => ?_,
      Parser.viable_of_resumable hresume⟩
    exact eq_of_position_eq htokens ht (by simp [hbefore]) (by rw [hposition, hj])
  · obtain ⟨read, hread, hsame⟩ := Parser.exists_read hq herr.inTokens
    rw [hremaining] at hread
    exact ⟨q, read, hq, hread, hsame⟩

/-- No further token mends the call of `NOW`, which takes no arguments. -/
theorem syntax_error_in_arguments :
    let source := "IF(1 < 2, now(3 4"
    let err : ParseError := ⟨.expected "')'" "'4'", 16⟩
    ∃ tokens before j after, tokenize source = .ok tokens ∧ parseTokens 64 tokens = .error err ∧
      tokens = before ++ j :: after ∧ j.position = 16 ∧ Viable before := by
  intro source err
  obtain ⟨tokens, htokens, herr⟩ := Parser.exists_ok (x := tokenize source)
    (P := fun tokens => (parseTokens 64 tokens).map Expr.mark = .error err) (by decide +kernel)
  replace herr := eq_error_of_map herr
  obtain ⟨⟨before, j, after, heq, hj, -, hviable⟩, -⟩ :=
    syntax_error_at_first_offense source tokens 64 err htokens herr trivial
  exact ⟨tokens, before, j, after, htokens, herr, heq, hj, hviable⟩

end FieldFormula
