import FieldFormula.Proofs.Parser.Alarm
import FieldFormula.Proofs.Parser.Invariants

/-!
A parser that is asked again and again. Its tokens end with the end of the formula, and it stands on
the one at its index. Main statement: whatever it has been asked before and however it has answered,
its index is in range and never goes back, levels are left only after they have been entered, a
success gives back the depth, a failure does not lower it, and every call comes to its end
(`session_valid`).
-/
namespace FieldFormula.Parser

inductive Query where
  | expression
  | formula
  deriving DecidableEq, Repr

namespace Query

def parse : Query → ParseM Expr
  | expression => Parser.expression
  | formula => Parser.formula

def guarded (x : Alarm) : Query → ParseM Expr
  | expression => x.expression
  | formula => x.formula

end Query

def serve (p : Parser) (queries : List Query) : Parser :=
  queries.foldl (fun p query => after query.parse p) p

def completed (tokens : List Token) : List Token :=
  tokens ++ tokens.getLast?.elim [⟨.eof, "", 0⟩] closing

def index (all : List Token) (p : Parser) : Nat := all.length - p.remaining.length

section Tokens
variable {p q : Parser} {all : List Token}

theorem remaining_eq_completed (limit : Nat) (tokens : List Token) :
    (ofTokens limit tokens).remaining = completed tokens := by
  cases tokens with
  | nil => rfl
  | cons t ts =>
    rw [completed, List.getLast?_cons, Option.elim_some, ← List.getLastD_eq_getLast?]
    rfl

theorem getLast?_completed (tokens : List Token) :
    (completed tokens).getLast?.map Token.kind = some .eof := by
  rw [← remaining_eq_completed 0]
  exact closed_ofTokens 0 tokens

theorem drop_index (h : p.remaining <:+ all) : all.drop (p.index all) = p.remaining :=
  (List.suffix_iff_eq_drop.1 h).symm

theorem index_lt (h : p.remaining <:+ all) : p.index all < all.length := by
  have hle := h.length_le
  have hpos : 0 < p.remaining.length := Nat.zero_lt_succ _
  unfold index
  omega

theorem Within.index_le (h : q.Within p) : p.index all ≤ q.index all :=
  Nat.sub_le_sub_left (List.IsSuffix.length_le h) _

end Tokens

section Queries
variable {p : Parser} (x : Alarm)

theorem after_within (query : Query) (p : Parser) : (after query.parse p).Within p := by
  cases query with
  | expression => exact (accountable_expression p.remaining p (List.Subset.refl _)).1.1
  | formula => exact (accountable_formula p.remaining p (List.Subset.refl _)).1.1

theorem serve_within (queries : List Query) (p : Parser) : (serve p queries).Within p := by
  induction queries generalizing p with
  | nil => exact .refl p
  | cons query queries ih => exact (ih (after query.parse p)).trans (after_within query p)

theorem Query.quiet (query : Query) (hp : p.Closed) :
    Quiet p.depth p.depth p.ahead.length (query.guarded x) query.parse p := by
  have hat : p.At p.depth p.ahead.length := ⟨hp, rfl, Nat.le_refl _⟩
  cases query with
  | expression => exact quiet_expression x hat
  | formula => exact quiet_formula x hat

end Queries

/-- The alarm is any: what would be done where too many levels are left, or where the steps run out,
changes no answer, so that neither happens. -/
theorem session_valid (x : Alarm) (limit : Nat) (tokens : List Token) (earlier : List Query)
    (query : Query) :
    let all := completed tokens
    let p := (ofTokens limit tokens).serve earlier
    let q := after query.parse p
    all.getLast?.map Token.kind = some .eof ∧
      all.drop (p.index all) = p.remaining ∧ p.index all < all.length ∧
      p.index all ≤ q.index all ∧ q.index all < all.length ∧
      query.guarded x p = query.parse p ∧
      (∀ e r, query.parse p = .ok e r → r.depth = p.depth) ∧
      (∀ err r, query.parse p = .error err r → p.depth ≤ r.depth) := by
  intro all p q
  have hserved : p.Within (ofTokens limit tokens) := serve_within earlier _
  have hp : p.remaining <:+ completed tokens := by
    rw [← remaining_eq_completed limit]
    exact hserved
  have hnext : q.Within p := after_within query p
  obtain ⟨hsame, houtcome⟩ := query.quiet x (hserved.closed (closed_ofTokens limit tokens))
  refine ⟨getLast?_completed tokens, drop_index hp, index_lt hp, hnext.index_le,
    index_lt (List.IsSuffix.trans hnext hp), hsame, ?_, ?_⟩
  · intro e r hr
    rw [hr] at houtcome
    exact houtcome.depth_eq
  · intro err r hr
    rw [hr] at houtcome
    exact houtcome

/-- A group that is not closed fails at the token that should close it and leaves its level open.
From there the next expression is read, but not a whole formula. -/
theorem session_valid_after_failure :
    let number (digit : Fin 10) (position : Nat) : Token :=
      ⟨.literal (.number (.ofDigit digit)), toString digit, position⟩
    let tokens : List Token := [⟨.leftParen, "(", 0⟩, number 1 1, number 2 3, number 3 5]
    let p := (ofTokens 64 tokens).serve [.formula]
    p.depth = 1 ∧ p.index (completed tokens) = 2 ∧
      (∃ e r, Query.expression.parse p = .ok e r ∧ r.depth = 1) ∧
      ∃ err r, Query.formula.parse p = .error err r ∧ 1 ≤ r.depth := by
  intro number tokens p
  have hdepth : p.depth = 1 := by decide +kernel
  have hindex : p.index (completed tokens) = 2 := by decide +kernel
  have hread : ∃ e r, Query.expression.parse p = .ok e r := ⟨_, _, rfl⟩
  have hfailed : ∃ err r, Query.formula.parse p = .error err r := ⟨_, _, rfl⟩
  have hvalid := session_valid ⟨fun _ => exhausted, exhausted⟩ 64 tokens [.formula]
  obtain ⟨e, r, hr⟩ := hread
  obtain ⟨err, t, ht⟩ := hfailed
  obtain ⟨-, -, -, -, -, -, hrestored, -⟩ := hvalid .expression
  obtain ⟨-, -, -, -, -, -, -, hkept⟩ := hvalid .formula
  exact ⟨hdepth, hindex, ⟨e, r, hr, (hrestored e r hr).trans hdepth⟩,
    err, t, ht, Nat.le_trans (Nat.le_of_eq hdepth.symm) (hkept err t ht)⟩

end FieldFormula.Parser
