import FieldFormula.Proofs.Expr.Grammar

/-!
Comparisons one after another. `Token.chains` finds them in a row of tokens. Main statement: on the
tokens of an expression whose nodes all obey the table of precedence or are chained comparisons, it
finds one exactly when some node does not obey (`passed_or_caught`).
-/
namespace FieldFormula

/-- Two comparisons stand within the same parentheses and no `&&`, `||`, comma or semicolon between
them. There was one already if `seen`, and `outer` says so for the parentheses around. -/
def Token.chains : Bool → List Bool → List Token.Kind → Bool
  | _, _, [] => false
  | seen, outer, kind :: kinds =>
    match kind with
    | .eof => false
    | .leftParen => chains false (seen :: outer) kinds
    | .rightParen => chains (outer.headD false) outer.tail kinds
    | .comma | .semicolon => chains false outer kinds
    | .operator op =>
      if op.isComparison then seen || chains true outer kinds
      else if op.strength < 3 then chains false outer kinds
      else chains seen outer kinds
    | _ => chains seen outer kinds

namespace Expr

open Token (chains)

def opensCompared : Expr → Bool
  | binary _ op left _ => op.isComparison || decide (op.strength < 3) && left.opensCompared
  | _ => false

def endsCompared : Expr → Bool
  | binary _ op _ right => op.isComparison || decide (op.strength < 3) && right.endsCompared
  | _ => false

theorem comparison_iff {op : BinaryOp} : op.isComparison = true ↔ op.strength = 3 := by
  simp [BinaryOp.isComparison]

theorem isComparison_iff {e : Expr} : e.isComparison = true ↔ e.strength = 3 := by
  cases e with
  | binary _ op _ _ => exact comparison_iff
  | _ => simp [isComparison, strength]

def seenAfter (seen : Bool) (e : Expr) : Bool :=
  if e.strength < 3 then e.endsCompared else seen || e.endsCompared

theorem seenAfter_of_lt {e : Expr} (h : 3 < e.strength) (seen : Bool) :
    seenAfter seen e = seen ∧ e.opensCompared = false := by
  cases e with
  | binary m op left right =>
    rw [strength_binary] at h
    have hop : ¬ op.strength < 3 ∧ op.strength ≠ 3 := by omega
    have hcmp : op.isComparison = false := by simp [BinaryOp.isComparison, hop]
    simp [seenAfter, endsCompared, opensCompared, hcmp, hop]
  | _ => simp [seenAfter, strength, endsCompared, opensCompared]

section Operators
variable {op : BinaryOp} (seen : Bool) (outer : List Bool) (rest : List Token.Kind) (m : Mark)
  (left right : Expr)

theorem chains_logical (h : op.strength < 3) :
    chains seen outer (.operator op :: rest) = chains false outer rest ∧
      (binary m op left right).opensCompared = left.opensCompared ∧
      seenAfter seen (binary m op left right) = right.endsCompared := by
  have hcmp : op.isComparison = false := by
    simp only [BinaryOp.isComparison, beq_eq_false_iff_ne]
    omega
  simp [chains, opensCompared, endsCompared, seenAfter, hcmp, h]

theorem chains_comparison (h : op.isComparison = true) :
    chains seen outer (.operator op :: rest) = (seen || chains true outer rest) ∧
      (binary m op left right).opensCompared = true ∧
      seenAfter seen (binary m op left right) = true := by
  simp [chains, opensCompared, endsCompared, seenAfter, h, comparison_iff.1 h]

theorem chains_tight (h : 3 < op.strength) :
    chains seen outer (.operator op :: rest) = chains seen outer rest := by
  have hop : ¬ op.strength < 3 := by omega
  have hcmp : op.isComparison = false := by
    simp only [BinaryOp.isComparison, beq_eq_false_iff_ne]
    omega
  simp [chains, hcmp, hop]

theorem chains_operator (h : ∀ b, chains b outer rest = true) :
    chains seen outer (.operator op :: rest) = true := by
  simp only [chains, h]
  split
  · exact Bool.or_true seen
  · split <;> rfl

end Operators

def Passed (e : Expr) : Prop := ∀ seen outer rest,
  chains seen outer (e.kinds ++ rest) =
    (seen && e.opensCompared || chains (seenAfter seen e) outer rest)

def Caught (e : Expr) : Prop := ∀ seen outer rest, chains seen outer (e.kinds ++ rest) = true

section Lists
variable {separator : Token.Kind} (hs : separator = .comma ∨ separator = .semicolon)
include hs

theorem chains_separator (seen : Bool) (outer : List Bool) (kinds : List Token.Kind) :
    chains seen outer (separator :: kinds) = chains false outer kinds := by
  rcases hs with rfl | rfl <;> rfl

theorem chains_kindsOf {es : List Expr} (h : ∀ e ∈ es, Passed e) (outer : List Bool)
    (rest : List Token.Kind) :
    ∃ seen, chains false outer (kindsOf separator es ++ rest) = chains seen outer rest := by
  induction es with
  | nil => exact ⟨false, rfl⟩
  | cons e es ih =>
    have he := h e List.mem_cons_self false outer
    cases es with
    | nil => exact ⟨seenAfter false e, by simpa [kindsOf] using he rest⟩
    | cons next es =>
      obtain ⟨seen, hseen⟩ := ih fun e he => h e (List.mem_cons_of_mem _ he)
      refine ⟨seen, ?_⟩
      rw [kindsOf, List.append_assoc, he, List.cons_append, chains_separator hs, hseen]
      simp

theorem chains_kindsOf_caught {es : List Expr} (h : ∀ e ∈ es, Passed e ∨ Caught e)
    (hc : ∃ e ∈ es, Caught e) (seen : Bool) (outer : List Bool) (rest : List Token.Kind) :
    chains seen outer (kindsOf separator es ++ rest) = true := by
  induction es generalizing seen with
  | nil => obtain ⟨e, he, -⟩ := hc; cases he
  | cons e es ih =>
    obtain ⟨hd, htl⟩ := List.forall_mem_cons.1 h
    obtain ⟨c, hmem, hcaught⟩ := hc
    cases es with
    | nil =>
      obtain rfl := List.mem_singleton.1 hmem
      exact hcaught seen outer rest
    | cons next es =>
      rw [kindsOf, List.append_assoc, List.cons_append]
      rcases hd with hpass | hcatch
      · rcases List.mem_cons.1 hmem with rfl | hmem
        · exact hcaught _ _ _
        · rw [hpass, chains_separator hs, ih htl ⟨c, hmem, hcaught⟩, Bool.or_true]
      · exact hcatch _ _ _

end Lists

theorem passed_of_obeys {e : Expr} (he : e.All Obeys) (hp : e.All Placed) : Passed e := by
  induction e with
  | literal m value =>
    intro seen outer rest
    simp [kinds, chains, seenAfter, strength, opensCompared, endsCompared]
  | field m name =>
    intro seen outer rest
    simp [kinds, chains, seenAfter, strength, opensCompared, endsCompared]
  | binary m op left right ihl ihr =>
    intro seen outer rest
    obtain ⟨hel, her, hle, hcmp, hlt⟩ := all_binary.1 he
    obtain ⟨hpl, hpr, -⟩ := all_binary.1 hp
    simp only [kinds, List.append_assoc, List.cons_append]
    rw [ihl hel hpl]
    rcases Nat.lt_trichotomy op.strength 3 with hop | hop | hop
    · obtain ⟨hops, hopens, hafter⟩ := chains_logical (seenAfter seen left) outer
        (right.kinds ++ rest) m left right hop
      have hends : seenAfter false right = right.endsCompared := by simp [seenAfter]
      rw [hops, hopens, ihr her hpr, hends, (chains_logical seen outer rest m left right hop).2.2,
        Bool.false_and, Bool.false_or]
    · have hc := comparison_iff.2 hop
      obtain ⟨hl, hlo⟩ := seenAfter_of_lt (hop ▸ hcmp hc) seen
      obtain ⟨hr, hro⟩ := seenAfter_of_lt (hop ▸ hlt) true
      obtain ⟨hops, hopens, hafter⟩ := chains_comparison seen outer (right.kinds ++ rest) m left
        right hc
      rw [hl, hlo, hops, hopens, hafter, ihr her hpr, hr, hro]
      simp
    · obtain ⟨hl, hlo⟩ := seenAfter_of_lt (e := left) (by omega) seen
      obtain ⟨hr, hro⟩ := seenAfter_of_lt (e := right) (by omega) seen
      obtain ⟨hb, hbo⟩ := seenAfter_of_lt (e := binary m op left right) hop seen
      rw [hl, hlo, chains_tight seen outer _ hop, ihr her hpr, hr, hro, hb, hbo]
      simp
  | unary m op operand ih =>
    intro seen outer rest
    obtain ⟨heo, htight⟩ := all_unary.1 he
    have hpass := seenAfter_of_lt (e := operand) (by rw [htight]; decide) seen
    have hkinds := ih heo (all_unary.1 hp).1 seen outer rest
    rw [hpass.1, hpass.2] at hkinds
    cases op <;> simpa [kinds, chains, BinaryOp.isComparison, BinaryOp.strength, seenAfter,
      strength, opensCompared, endsCompared] using hkinds
  | group m inner ih =>
    intro seen outer rest
    have hkinds := ih (all_group.1 he).1 (all_group.1 hp).1 false (seen :: outer)
      (.rightParen :: rest)
    simp [kinds, chains, hkinds, seenAfter, strength, opensCompared, endsCompared]
  | conditional m c y n ihc ihy ihn =>
    intro seen outer rest
    obtain ⟨hec, hey, hen, -⟩ := all_conditional.1 he
    obtain ⟨hpc, hpy, hpn, -⟩ := all_conditional.1 hp
    have hc := ihc hec hpc false (seen :: outer)
    have hy := ihy hey hpy false (seen :: outer)
    have hn := ihn hen hpn false (seen :: outer)
    simp [kinds, chains, hc, hy, hn, seenAfter, strength, opensCompared, endsCompared]
  | call m name args ih =>
    intro seen outer rest
    obtain ⟨hea, -⟩ := all_call.1 he
    obtain ⟨hpa, -⟩ := all_call.1 hp
    obtain ⟨b, hb⟩ := chains_kindsOf (.inl rfl) (fun e h => ih e h (hea e h) (hpa e h))
      (seen :: outer) (.rightParen :: rest)
    simp [kinds, chains, hb, seenAfter, strength, opensCompared, endsCompared]
  | sequence m items ih => exact hp.root.elim

theorem Passed.or_true {e : Expr} (h : Passed e) {seen : Bool} {outer : List Bool}
    {rest : List Token.Kind} (hrest : chains (seenAfter seen e) outer rest = true) :
    chains seen outer (e.kinds ++ rest) = true := by
  rw [h, hrest, Bool.or_true]

theorem chained_caught {m : Mark} {op : BinaryOp} {left right : Expr}
    (h : (binary m op left right).Chained) (seen : Bool) (outer : List Bool)
    (rest : List Token.Kind) :
    chains (seenAfter seen left) outer (.operator op :: rest) = true := by
  obtain ⟨hop, hjoin, -⟩ := h
  cases left with
  | binary k inner first last =>
    obtain ⟨hin, hlast⟩ := hjoin
    have hends : last.endsCompared = true := by
      cases last with
      | binary _ deep _ _ => simp [endsCompared, show deep.isComparison = true from hlast]
      | _ => cases hlast
    rw [(chains_logical seen outer [] k first last hin).2.2, hends,
      (chains_comparison true outer rest m last last hop).1, Bool.true_or]
  | _ => exact hjoin.elim

theorem passed_or_caught {e : Expr} (he : e.All fun n => n.Obeys ∨ n.Chained)
    (hp : e.All Placed) : e.All Obeys ∧ Passed e ∨ ¬ e.All Obeys ∧ Caught e := by
  by_cases ho : e.All Obeys
  · exact .inl ⟨ho, passed_of_obeys ho hp⟩
  · refine .inr ⟨ho, ?_⟩
    induction e with
    | literal m value => exact absurd (all_literal.2 trivial) ho
    | field m name => exact absurd (all_field.2 trivial) ho
    | binary m op left right ihl ihr =>
      obtain ⟨hel, her, hnode⟩ := all_binary.1 he
      obtain ⟨hpl, hpr, -⟩ := all_binary.1 hp
      intro seen outer rest
      simp only [kinds, List.append_assoc, List.cons_append]
      by_cases hol : left.All Obeys
      · have hpass := passed_of_obeys hol hpl
        refine hpass.or_true ?_
        by_cases hor : right.All Obeys
        · have hchained : (binary m op left right).Chained :=
            hnode.resolve_left fun h => ho (all_binary.2 ⟨hol, hor, h⟩)
          exact chained_caught hchained seen outer _
        · exact chains_operator _ _ _ fun b => ihr her hpr hor b outer rest
      · exact ihl hel hpl hol _ _ _
    | unary m op operand ih =>
      obtain ⟨heo, hnode⟩ := all_unary.1 he
      have hoo : ¬ operand.All Obeys :=
        fun h => ho (all_unary.2 ⟨h, hnode.resolve_right fun k => k⟩)
      have hcaught := ih heo (all_unary.1 hp).1 hoo
      intro seen outer rest
      cases op with
      | negate => exact chains_operator _ _ _ fun b => hcaught b outer rest
      | not => exact hcaught seen outer rest
    | group m inner ih =>
      have hoi : ¬ inner.All Obeys := fun h => ho (all_group.2 ⟨h, trivial⟩)
      have hcaught := ih (all_group.1 he).1 (all_group.1 hp).1 hoi
      intro seen outer rest
      rw [kinds, List.cons_append, List.append_assoc]
      exact hcaught false (seen :: outer) _
    | conditional m c y n ihc ihy ihn =>
      obtain ⟨hec, hey, hen, -⟩ := all_conditional.1 he
      obtain ⟨hpc, hpy, hpn, -⟩ := all_conditional.1 hp
      intro seen outer rest
      simp only [kinds, List.append_assoc, List.cons_append]
      change chains false (seen :: outer) _ = true
      by_cases hoc : c.All Obeys
      · refine (passed_of_obeys hoc hpc).or_true ?_
        change chains false (seen :: outer) _ = true
        by_cases hoy : y.All Obeys
        · refine (passed_of_obeys hoy hpy).or_true ?_
          exact ihn hen hpn (fun h => ho (all_conditional.2 ⟨hoc, hoy, h, trivial⟩)) false _ _
        · exact ihy hey hpy hoy _ _ _
      · exact ihc hec hpc hoc _ _ _
    | call m name args ih =>
      obtain ⟨hea, -⟩ := all_call.1 he
      obtain ⟨hpa, -⟩ := all_call.1 hp
      intro seen outer rest
      rw [kinds, List.cons_append, List.cons_append, List.append_assoc]
      change chains false (seen :: outer) _ = true
      have hargs : ∀ e ∈ args, Passed e ∨ Caught e := fun e h => by
        by_cases hoe : e.All Obeys
        · exact .inl (passed_of_obeys hoe (hpa e h))
        · exact .inr (ih e h (hea e h) (hpa e h) hoe)
      have hsome : ∃ e ∈ args, Caught e := by
        have hnot : ¬ ∀ e ∈ args, e.All Obeys := fun h => ho (all_call.2 ⟨h, trivial⟩)
        obtain ⟨e, h⟩ := Classical.not_forall.1 hnot
        obtain ⟨hmem, hoe⟩ := Classical.not_imp.1 h
        exact ⟨e, hmem, ih e hmem (hea e hmem) (hpa e hmem) hoe⟩
      exact chains_kindsOf_caught (.inl rfl) hargs hsome _ _ _
    | sequence m items ih => exact hp.root.elim

end Expr
end FieldFormula
