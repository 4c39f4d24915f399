import FieldFormula.Proofs.Parser.Precedence
import FieldFormula.Proofs.Parser.Run
import FieldFormula.Proofs.Script.Evaluation

/-!
Null operands of joined text. An operand that may be null is interpolated with `?? ''`, so that a
null counts as empty text. A conditional passes on the value of one of its branches (`passed`), and
`&&` and `||` pass on that of an operand, but are never interpolated so. Main statement: an operand
counts as empty text whenever it is null, except where what it passes on is an `&&` or `||` that
comes out null (`interpolation_guards`).
-/
namespace FieldFormula.Script
open Reading

section
variable {N : Type} (host : Host N) (vars : String → Value N)

def passed : Tree → Tree
  | .choose c y n =>
    match (value host vars c).map host.truthy with
    | some true => passed y
    | some false => passed n
    | none => .choose c y n
  | t => t

/-- The script is an `&&` or `||`, and the operand that it gives is null. -/
def ComesOutNull : Tree → Prop
  | .link (.binary .and) a b => value host vars a = some .null ∨
      (value host vars a).map host.truthy = some true ∧ value host vars b = some .null
  | .link (.binary .or) a b =>
      (value host vars a).map host.truthy = some false ∧ value host vars b = some .null
  | _ => False

def joined (v : Value N) : String := if v.isNullish then "" else host.textOf v

theorem value_passed (t : Tree) : value host vars (passed host vars t) = value host vars t := by
  induction t with
  | choose c y n _ ihy ihn =>
    cases hc : value host vars c with
    | none => rw [passed, hc]; rfl
    | some v =>
      rw [passed, value_choose hc, hc, Option.map_some]
      cases host.truthy v with
      | true => exact ihy
      | false => exact ihn
  | _ => rfl

end

def joinedOperands (types : TypeTable) : Expr → Option (Expr × Expr)
  | .binary m op l r =>
    if op = .concat ∨ op = .add ∧ types.typeOf (.binary m op l r) = .string then some (l, r)
    else none
  | _ => none

theorem joinedOperands_eq_some {types : TypeTable} {n l r : Expr}
    (h : joinedOperands types n = some (l, r)) : ∃ m op, n = .binary m op l r ∧
      (op = .concat ∨ op = .add ∧ types.typeOf (.binary m op l r) = .string) := by
  cases n with
  | binary m op _ _ =>
    rw [joinedOperands] at h
    split at h
    · cases h
      exact ⟨m, op, rfl, ‹_›⟩
    · cases h
  | _ => cases h

def hole (types : TypeTable) (e : Expr) : String :=
  Target.script.generate types e ++ if nullable types e then " ?? ''" else ""

section
variable {N : Type} {host : Host N} {vars : String → Value N} {a b : Tree} {v : Value N}

theorem value_of_comesOutNull {t : Tree} (h : ComesOutNull host vars t) :
    value host vars t = some .null := by
  unfold ComesOutNull at h
  split at h
  · rcases h with ha | ⟨htruthy, hb⟩
    · rw [value, ha]
      rfl
    · obtain ⟨v, hv, htruthy⟩ := Option.map_eq_some_iff.1 htruthy
      rw [value_link _ hv hb, Host.decides, htruthy]
      rfl
  · obtain ⟨v, hv, htruthy⟩ := Option.map_eq_some_iff.1 h.1
    rw [value_link _ hv h.2, Host.decides, htruthy]
    rfl
  · exact h.elim

theorem comesOutNull_of_value {op : Link} (hop : op.isBare = true)
    (h : value host vars (.link op a b) = some .null) : ComesOutNull host vars (.link op a b) := by
  cases hlogical : op.isLogical with
  | false =>
    have hnullish := isNullish_link hop hlogical h
    cases hnullish
  | true =>
    rw [value] at h
    obtain ⟨v, hv, h⟩ := Option.bind_eq_some_iff.1 h
    have hright (hdecides : host.decides op v = false) : value host vars b = some .null := by
      rw [hdecides] at h
      obtain ⟨w, hw, hcombine⟩ := Option.map_eq_some_iff.1 h
      rw [combine_of_isLogical hlogical] at hcombine
      rw [hw, hcombine]
    have hleft (hdecides : host.decides op v = true) : v = .null := by
      rw [hdecides] at h
      exact Option.some.inj h
    cases op with
    | binary op =>
      cases op with
      | and =>
        cases htruthy : host.truthy v with
        | true =>
          have hdecides : host.decides (.binary .and) v = false := by
            rw [Host.decides, htruthy]
            rfl
          exact .inr ⟨by rw [hv, Option.map_some, htruthy], hright hdecides⟩
        | false =>
          have hdecides : host.decides (.binary .and) v = true := by
            rw [Host.decides, htruthy]
            rfl
          exact .inl (by rw [hv, hleft hdecides])
      | or =>
        cases htruthy : host.truthy v with
        | true =>
          rw [hleft htruthy] at htruthy
          cases htruthy
        | false => exact ⟨by rw [hv, Option.map_some, htruthy], hright htruthy⟩
      | _ => cases hlogical
    | _ => cases hlogical

end

/-- A null that no `?? ''` is written for comes from an `&&` or `||`. -/
def Guarded (types : TypeTable) (e : Expr) (t : Tree) : Prop :=
  ∀ (N : Type) (host : Host N) (vars : String → Value N), value host vars t = some .null →
    nullable types e = true ∨ ComesOutNull host vars (passed host vars t)

structure Reads (types : TypeTable) (e : Expr) (t : Tree) : Prop where
  linked : ∃ level, Linked Evaluates (ofExpr types e).render t level
  operand : e.strength = 8 → Operand .script (ofExpr types e).render t 10 11
  guarded : Guarded types e t

section
variable {types : TypeTable} {e : Expr} {t a b : Tree}

theorem reads_of_operand (h : Operand .script (ofExpr types e).render t 10 11) (ht : Evaluates t)
    (hguarded : Guarded types e t) : Reads types e t :=
  ⟨⟨10, .operand (h.mono (Nat.le_refl 10) (by decide)) ht⟩, fun _ => h, hguarded⟩

theorem reads_of_isNullish (h : Operand .script (ofExpr types e).render t 10 11)
    (hvalue : ∀ (N : Type) (host : Host N) (vars : String → Value N),
      ∃ v, value host vars t = some v ∧ v.isNullish = false) : Reads types e t := by
  apply reads_of_operand h
  · intro N host vars
    obtain ⟨v, hv, hnullish⟩ := hvalue N host vars
    refine ⟨v, hv, ?_⟩
    rintro rfl
    cases hnullish
  · intro N host vars hnull
    obtain ⟨v, hv, hnullish⟩ := hvalue N host vars
    rw [hv] at hnull
    cases hnull
    cases hnullish

theorem Reads.evaluates (h : Reads types e t) : Evaluates t := by
  obtain ⟨level, hlinked⟩ := h.linked
  exact hlinked.all fun _ _ _ => Evaluates.link

theorem Reads.operand_three (h : Reads types e t) :
    Operand .script (ofExpr types e).render t 3 3 := by
  obtain ⟨level, hlinked⟩ := h.linked
  exact hlinked.toOperand.mono hlinked.three_le hlinked.three_le

theorem Reads.operand_two (h : Reads types e t) : Operand .script (ofExpr types e).render t 2 2 :=
  h.operand_three.mono (by decide) (by decide)

theorem Reads.reading (h : Reads types e t) : reading types e = some t :=
  reading_of_operand h.operand_three

theorem Reads.outcome (h : Reads types e t) {N : Type} (host : Host N) (vars : String → Value N) :
    outcome host vars types e = value host vars t := by
  rw [Script.outcome, h.reading, Option.bind_some]

theorem strength_of_nullable (h : nullable types e = true) : e.strength = 8 := by
  cases e with
  | binary _ _ _ _ => cases h
  | _ => rfl

theorem Reads.denotes_interpolated (h : Reads types e t) :
    Denotes .script (interpolated types e (ofExpr types e)).render (holeTree types e t) := by
  by_cases hnull : nullable types e = true
  · exact Script.denotes_interpolated (h.operand (strength_of_nullable hnull)) fun _ => by decide
  · exact Script.denotes_interpolated h.operand_three fun h => absurd h hnull

section Binary
variable {m : Mark} {op : BinaryOp} {l r : Expr}

/-- Whatever precedence makes of the texts of two operands, it is an operation again. -/
theorem exists_reads_linked {o : Link} {s u : String} {i j : Nat} (ho : o.isBare = true)
    (hs : Linked Evaluates s a i) (hu : Linked Evaluates u b j)
    (htext : (ofExpr types (.binary m op l r)).render = s ++ o.spelling .script ++ u) :
    ∃ t, Reads types (.binary m op l r) t := by
  obtain ⟨o', x, y, k, ho', hlinked⟩ := hs.append ho hu
  refine ⟨_, ⟨k, htext ▸ hlinked⟩, ?_, ?_⟩
  · intro hstrength
    cases op <;> cases hstrength
  · exact fun N host vars hnull => .inr (comesOutNull_of_value ho' hnull)

theorem isBare_binary (hc : op ≠ .concat) (hp : op ≠ .power) : (Link.binary op).isBare = true := by
  cases op with
  | concat => exact absurd rfl hc
  | power => exact absurd rfl hp
  | _ => rfl

theorem render_binary (op : BinaryOp) (x y : Script) :
    (binary op x y).render = x.render ++ (Link.binary op).spelling .script ++ y.render := by
  have hrender : (binary op x y).render = x.render ++ " " ++ operator op ++ " " ++ y.render := rfl
  have hspelling : (Link.binary op).spelling .script = " " ++ (operator op ++ " ") := rfl
  rw [hrender, hspelling]
  simp only [String.append_assoc]

theorem reads_template (hl : Reads types l a) (hr : Reads types r b)
    (hjoin : op = .concat ∨ op = .add ∧ types.typeOf (.binary m op l r) = .string) :
    Reads types (.binary m op l r) (.template (holeTree types l a) (holeTree types r b)) := by
  have hoperand := hl.denotes_interpolated.template hr.denotes_interpolated
  have hform : ofExpr types (.binary m op l r) = interpolate
      (interpolated types l (ofExpr types l)) (interpolated types r (ofExpr types r)) := by
    rw [ofExpr, ofBinary, if_pos hjoin]
  apply reads_of_isNullish
  · rw [hform]
    exact hoperand.mono (by decide) (by decide)
  · intro N host vars
    obtain ⟨v, hv, -⟩ := hl.evaluates N host vars
    obtain ⟨w, hw, -⟩ := hr.evaluates N host vars
    exact ⟨_, value_template types l r hv hw, rfl⟩

theorem reads_power (hl : Reads types l a) (hr : Reads types r b) :
    Reads types (.binary m .power l r) (powerTree a b) := by
  apply reads_of_isNullish
  · exact (operand_power hl.operand_two hr.operand_two).mono (by decide) (by decide)
  · intro N host vars
    obtain ⟨v, hv, -⟩ := hl.evaluates N host vars
    obtain ⟨w, hw, -⟩ := hr.evaluates N host vars
    rw [powerTree, value, hv, hw]
    exact ⟨_, rfl, rfl⟩

theorem exists_reads_unary {op : UnaryOp} (h : Reads types e t) (hstrength : e.strength = 8) :
    ∃ t, Reads types (.unary m op e) t := by
  have hoperand := h.operand hstrength
  cases op with
  | negate =>
    refine ⟨_, reads_of_isNullish (operand_negated hoperand) fun N host vars => ?_⟩
    obtain ⟨v, hv, -⟩ := h.evaluates N host vars
    rw [value, hv]
    exact ⟨_, rfl, rfl⟩
  | not =>
    refine ⟨_, reads_of_isNullish (operand_not hoperand) fun N host vars => ?_⟩
    obtain ⟨v, hv, -⟩ := h.evaluates N host vars
    rw [value, hv]
    exact ⟨_, rfl, rfl⟩

theorem exists_reads_binary (hl : Reads types l a) (hr : Reads types r b) :
    ∃ t, Reads types (.binary m op l r) t := by
  obtain ⟨i, hleft⟩ := hl.linked
  obtain ⟨j, hright⟩ := hr.linked
  have hform : ofExpr types (.binary m op l r) = ofBinary types op
      (types.typeOf (.binary m op l r)) l r (ofExpr types l) (ofExpr types r) := by rw [ofExpr]
  have hnull : Linked Evaluates "null" .null 10 :=
    .operand (operand_null.mono (by decide) (by decide)) fun _ _ _ => ⟨_, rfl, by simp⟩
  have hcall {x : Script} {u : Tree} (hx : Operand .script x.render u 12 12) (hu : Evaluates u) :
      Linked Evaluates x.render u 10 := .operand (hx.mono (by decide) (by decide)) hu
  have hmethod {method : String} {e : Expr} {t : Tree} (h : Reads types e t)
      (hmethod : method = "toString" ∨ method = "toMillis") :
      Evaluates (instantTree method (dateTree e t)) := (h.evaluates.dateTree e).instantTree hmethod
  have hbinary {x y : Script} {u v : Tree} {i j : Nat} (hop : (Link.binary op).isBare = true)
      (hx : Linked Evaluates x.render u i) (hy : Linked Evaluates y.render v j)
      (hform : ofExpr types (.binary m op l r) = binary op x y) :
      ∃ t, Reads types (.binary m op l r) t :=
    exists_reads_linked hop hx hy (by rw [hform, render_binary])
  have hcomparison (h : op.isComparison = true) : (Link.binary op).isBare = true := by
    cases op <;> first | rfl | cases h
  simp only [ofBinary] at hform
  split_ifs at hform with hjoin hequal hleftNull hrightNull htypes hdate horder hpower
  · exact ⟨_, reads_template hl hr hjoin⟩
  · exact exists_reads_linked rfl hright hnull (by rw [hform, render_isNull])
  · exact exists_reads_linked rfl hleft hnull (by rw [hform, render_isNull])
  · exact hbinary (hcomparison (isComparison_of_isEquality hequal))
      (hcall (operand_stringOf hl.operand_two) hl.evaluates.stringTree)
      (hcall (operand_stringOf hr.operand_two) hr.evaluates.stringTree) hform
  · exact hbinary (hcomparison (isComparison_of_isEquality hequal))
      (hcall (operand_isoText hl.operand_two) (hmethod hl (.inl rfl)))
      (hcall (operand_isoText hr.operand_two) (hmethod hr (.inl rfl))) hform
  · exact hbinary (hcomparison (isComparison_of_isEquality hequal)) hleft hright hform
  · exact hbinary (hcomparison (Bool.and_eq_true_iff.1 horder.1).1)
      (hcall (operand_millis hl.operand_two) (hmethod hl (.inr rfl)))
      (hcall (operand_millis hr.operand_two) (hmethod hr (.inr rfl))) hform
  · subst hpower
    exact ⟨_, reads_power hl hr⟩
  · exact hbinary (isBare_binary (fun h => hjoin (.inl h)) hpower) hleft hright hform

end Binary

theorem reads_conditional {m : Mark} {c y n : Expr} {tc ty tn : Tree} (hc : Reads types c tc)
    (hy : Reads types y ty) (hn : Reads types n tn) :
    Reads types (.conditional m c y n) (.choose tc ty tn) := by
  have hgroup := (hc.operand_three.choose hy.operand_three hn.operand_three).group
  apply reads_of_operand
  · have hrender : (ofExpr types (.conditional m c y n)).render =
        "(" ++ (ofExpr types c).render ++ " ? " ++ (ofExpr types y).render ++ " : " ++
          (ofExpr types n).render ++ ")" := rfl
    rw [hrender]
    simp only [String.append_assoc] at hgroup ⊢
    exact hgroup.mono (by decide) (by decide)
  · exact hc.evaluates.choose hy.evaluates hn.evaluates
  · intro N host vars hnull
    obtain ⟨v, hv, -⟩ := hc.evaluates N host vars
    rw [value_choose hv] at hnull
    rw [passed, hv, Option.map_some, nullable, Bool.or_eq_true]
    cases htruthy : host.truthy v with
    | true =>
      rw [htruthy] at hnull
      exact (hy.guarded N host vars hnull).imp_left .inl
    | false =>
      rw [htruthy] at hnull
      exact (hn.guarded N host vars hnull).imp_left .inr

theorem exists_reads (types : TypeTable) (hplain : e.All fun n => n.isPlain = true)
    (hyielded : e.All fun n => n.Obeys ∨ n.Chained) : ∃ t, Reads types e t := by
  induction e with
  | literal m literal =>
    refine ⟨literalTree literal, reads_of_operand ?_ (evaluates_literal literal) ?_⟩
    · exact (operand_ofLiteral (Expr.all_literal.1 hplain)).mono (by decide) (Nat.le_refl 11)
    · intro N host vars hnull
      cases literal with
      | null => exact .inl rfl
      | _ => cases hnull
  | field m name =>
    refine ⟨_, reads_of_operand ((operand_field name _).mono (by decide) (Nat.le_refl 11))
      (evaluates_field name _) ?_⟩
    intro N host vars hnull
    obtain ⟨v, hv, -, hzero⟩ := exists_field host vars name (types.typeOf (.field m name))
    rw [hv] at hnull
    exact .inl (hzero (Option.some.inj hnull))
  | binary m op l r ihl ihr =>
    obtain ⟨hpl, hpr, -⟩ := Expr.all_binary.1 hplain
    obtain ⟨hyl, hyr, -⟩ := Expr.all_binary.1 hyielded
    obtain ⟨a, ha⟩ := ihl hpl hyl
    obtain ⟨b, hb⟩ := ihr hpr hyr
    exact exists_reads_binary ha hb
  | unary m op e ih =>
    obtain ⟨hye, hobeys⟩ := Expr.all_unary.1 hyielded
    obtain ⟨t, ht⟩ := ih (Expr.all_unary.1 hplain).1 hye
    exact exists_reads_unary ht (hobeys.elim id False.elim)
  | group m e ih =>
    obtain ⟨t, ht⟩ := ih (Expr.all_group.1 hplain).1 (Expr.all_group.1 hyielded).1
    exact ⟨t, reads_of_operand (ht.operand_two.denotes.group.mono (by decide) (by decide))
      ht.evaluates ht.guarded⟩
  | conditional m c y n ihc ihy ihn =>
    obtain ⟨hpc, hpy, hpn, -⟩ := Expr.all_conditional.1 hplain
    obtain ⟨hyc, hyy, hyn, -⟩ := Expr.all_conditional.1 hyielded
    obtain ⟨tc, htc⟩ := ihc hpc hyc
    obtain ⟨ty, hty⟩ := ihy hpy hyy
    obtain ⟨tn, htn⟩ := ihn hpn hyn
    exact ⟨_, reads_conditional htc hty htn⟩
  | call m name args _ => cases (Expr.all_call.1 hplain).2
  | sequence m items _ => cases (Expr.all_sequence.1 hplain).2

section Values
variable {N : Type} {host : Host N} {vars : String → Value N} {v : Value N}

theorem Reads.null_imp_nullable_iff (h : Reads types e t) (hv : value host vars t = some v) :
    (v = .null → nullable types e = true) ↔
      nullable types e = true ∨ ¬ComesOutNull host vars (passed host vars t) := by
  constructor
  · intro hguarded
    by_cases hnull : ComesOutNull host vars (passed host vars t)
    · have hvalue := value_of_comesOutNull hnull
      rw [value_passed, hv] at hvalue
      exact .inl (hguarded (Option.some.inj hvalue))
    · exact .inr hnull
  · rintro hguarded rfl
    rcases h.guarded N host vars hv with hnullable | hnull
    · exact hnullable
    · exact hguarded.resolve_right fun hnot => hnot hnull

theorem Reads.shown_eq_joined_iff (h : Reads types e t) (hv : value host vars t = some v) :
    shown host types e v = joined host v ↔
      nullable types e = true ∨ ¬ComesOutNull host vars (passed host vars t) := by
  rw [← h.null_imp_nullable_iff hv]
  obtain ⟨u, hu, hdefined⟩ := h.evaluates N host vars
  obtain rfl : v = u := Option.some.inj (hv.symm.trans hu)
  unfold shown joined
  cases nullable types e with
  | true => simp
  | false =>
    cases v with
    | undefined => exact absurd rfl hdefined
    | null => simp [Value.isNullish, Host.textOf]
    | _ => simp [Value.isNullish]

end Values

theorem generate_template {m : Mark} {op : BinaryOp} {l r : Expr}
    (hjoin : op = .concat ∨ op = .add ∧ types.typeOf (.binary m op l r) = .string) :
    Target.script.generate types (.binary m op l r) =
      "\x60$\x7b" ++ hole types l ++ "\x7d$\x7b" ++ hole types r ++ "\x7d\x60" := by
  have hhole (e : Expr) : (interpolated types e (ofExpr types e)).render = hole types e := by
    unfold interpolated hole
    split
    · rfl
    · exact (String.append_empty).symm
  change (ofExpr types (.binary m op l r)).render = _
  rw [ofExpr, ofBinary, if_pos hjoin, ← hhole, ← hhole]
  rfl

end

theorem interpolation_guards (types : TypeTable) {e n l r : Expr} (he : Parser.Yields e)
    (hn : n ∈ e.nodes) (hplain : n.All fun n => n.isPlain = true)
    (hjoin : joinedOperands types n = some (l, r)) :
    Target.script.generate types n =
      "\x60$\x7b" ++ hole types l ++ "\x7d$\x7b" ++ hole types r ++ "\x7d\x60" ∧
    (∀ (N : Type) (host : Host N) (vars : String → Value N), ∃ v w,
      outcome host vars types l = some v ∧ outcome host vars types r = some w ∧
      outcome host vars types n =
        some (.text (shown host types l v ++ shown host types r w))) ∧
    ∀ o ∈ [l, r], ∃ t, reading types o = some t ∧ (o.All Expr.Obeys → t = tree types o) ∧
      ∀ (N : Type) (host : Host N) (vars : String → Value N) v,
        outcome host vars types o = some v →
        ((v = .null → nullable types o = true) ↔
          nullable types o = true ∨ ¬ComesOutNull host vars (passed host vars t)) ∧
        (shown host types o v = joined host v ↔
          nullable types o = true ∨ ¬ComesOutNull host vars (passed host vars t)) := by
  obtain ⟨m, op, rfl, hop⟩ := joinedOperands_eq_some hjoin
  obtain ⟨hyl, hyr, -⟩ := Expr.all_binary.1 (he.obeys_or_chained.below _ hn)
  obtain ⟨hpl, hpr, -⟩ := Expr.all_binary.1 hplain
  obtain ⟨a, ha⟩ := exists_reads types hpl hyl
  obtain ⟨b, hb⟩ := exists_reads types hpr hyr
  refine ⟨generate_template hop, ?_, ?_⟩
  · intro N host vars
    obtain ⟨v, hv, -⟩ := ha.evaluates N host vars
    obtain ⟨w, hw, -⟩ := hb.evaluates N host vars
    refine ⟨v, w, (ha.outcome host vars).trans hv, (hb.outcome host vars).trans hw, ?_⟩
    rw [(reads_template ha hb hop).outcome, value_template types l r hv hw]
  · intro o ho
    obtain ⟨t, ht, hplain⟩ : ∃ t, Reads types o t ∧ o.All fun n => n.isPlain = true := by
      obtain rfl | rfl : o = l ∨ o = r := by simpa using ho
      · exact ⟨a, ha, hpl⟩
      · exact ⟨b, hb, hpr⟩
    refine ⟨t, ht.reading, ?_, ?_⟩
    · intro hobeys
      have htree := reading_of_operand (operand_ofExpr types hplain hobeys)
      exact Option.some.inj (ht.reading.symm.trans htree)
    · intro N host vars v hv
      rw [ht.outcome] at hv
      exact ⟨ht.null_imp_nullable_iff hv, ht.shown_eq_joined_iff hv⟩

/-- In `IF([b], null, [b] && null) & (null && 1 == 1 == [b])` the first operand has its `?? ''` for
the sake of the null literal. The second one is an equality in the formula and an `&&` in the
script; it has none. -/
theorem interpolation_guards_regrouped :
    let b := "\x7b\x7bb\x7d\x7d"
    let source := "IF(" ++ b ++ ", null, " ++ b ++ " && null) & (null && 1 == 1 == " ++ b ++ ")"
    let schema : Schema := ⟨[("b", ⟨"b1", .boolean⟩)], by decide⟩
    ∃ e l r types, parse 64 source = .ok e ∧ Typing.infer schema e = .ok (.string, types) ∧
      joinedOperands types e = some (l, r) ∧ (e.All fun n => n.isPlain = true) ∧
      nullable types l = true ∧ nullable types r = false ∧ ¬r.All Expr.Obeys ∧
      ∀ (N : Type) (host : Host N) (vars : String → Value N), ∃ v w,
        outcome host vars types l = some v ∧ outcome host vars types r = some w ∧
        outcome host vars types e =
          some (.text (shown host types l v ++ shown host types r w)) ∧
        shown host types l v = joined host v ∧
        (shown host types r w = joined host w ↔ w ≠ .null) := by
  intro b source schema
  obtain ⟨e, he, hplain, ⟨_, types⟩, hx, rfl, ⟨l, r⟩, hjoin, hl, hr, hobeys⟩ :=
    Parser.exists_ok (x := parse 64 source)
      (P := fun e => (e.All fun n => n.isPlain = true) ∧
        ∃ x ∈ (Typing.infer schema e).toOption, x.1 = .string ∧
          ∃ p ∈ joinedOperands x.2 e, nullable x.2 p.1 = true ∧ nullable x.2 p.2 = false ∧
            ¬p.2.All Expr.Obeys) (by decide +kernel)
  have hinfer := Parser.eq_ok_of_mem_toOption hx
  obtain ⟨-, hvalues, hoperands⟩ := interpolation_guards types (Parser.yields_of_parse he)
    e.mem_nodes_self hplain hjoin
  obtain ⟨_, -, -, hfirst⟩ := hoperands l (by simp)
  obtain ⟨_, -, -, hsecond⟩ := hoperands r (by simp)
  refine ⟨e, l, r, types, he, hinfer, hjoin, hplain, hl, hr, hobeys, fun N host vars => ?_⟩
  obtain ⟨v, w, hv, hw, hvalue⟩ := hvalues N host vars
  refine ⟨v, w, hv, hw, hvalue, ?_, ?_⟩
  · exact (hfirst N host vars v hv).2.2 (.inl hl)
  · obtain ⟨hnull, hshown⟩ := hsecond N host vars w hw
    rw [hshown, ← hnull, hr]
    simp

/-- `(null && true) & "x"` gives the text `nullx`. -/
theorem and_operand_unguarded :
    let o : Expr := .group ⟨3, 0⟩ (.binary ⟨2, 6⟩ .and (.literal ⟨0, 1⟩ .null)
      (.literal ⟨1, 9⟩ (.boolean true)))
    let e : Expr := .binary ⟨5, 15⟩ .concat o (.literal ⟨4, 17⟩ (.text "x"))
    ∃ types, Typing.infer .empty e = .ok (.string, types) ∧
      compile .empty 64 .script "(null && true) & 'x'" = .ok (Target.script.generate types e) ∧
      nullable types o = false ∧
      ∀ (N : Type) (host : Host N) (vars : String → Value N),
        outcome host vars types o = some .null ∧
        outcome host vars types e = some (.text "nullx") := by
  intro o e
  have hplain : e.All fun n => n.isPlain = true := by decide +kernel
  have hobeys : e.All Expr.Obeys := by decide +kernel
  obtain ⟨types, htypes, ⟨text, htext, rfl⟩, hnullable, hvalues⟩ : ∃ types,
      Typing.infer .empty e = .ok (.string, types) ∧
      (∃ text, compile .empty 64 .script "(null && true) & 'x'" = .ok text ∧
        text = Target.script.generate types e) ∧
      nullable types o = false ∧ ∀ (N : Type) (host : Host N) (vars : String → Value N),
        value host vars (tree types o) = some .null ∧
        value host vars (tree types e) = some (.text "nullx") :=
    ⟨_, rfl, Parser.exists_ok (by decide +kernel), rfl, fun N host vars => ⟨rfl, rfl⟩⟩
  refine ⟨types, htypes, htext, hnullable, fun N host vars => ?_⟩
  obtain ⟨hpo, -⟩ := Expr.all_binary.1 hplain
  obtain ⟨hoo, -⟩ := Expr.all_binary.1 hobeys
  rw [outcome, outcome, reading_of_operand (operand_ofExpr types hpo hoo),
    reading_of_operand (operand_ofExpr types hplain hobeys)]
  exact hvalues N host vars

end FieldFormula.Script
