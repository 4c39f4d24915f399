import FieldFormula.Proofs.Parser.Precedence

/-!
Nesting and its limit. The parser counts a level for every operator of a chain, but only while it
reads what stands behind that operator. `charge` is the count it reaches, `height` the depth of the
tree. Main statement: a formula is accepted exactly under the limits that its charge allows, so the
limit bounds the height exactly when the height is no more than the charge
(`height_le_limit_iff`).
-/
namespace FieldFormula

namespace Expr

mutual

def height : Expr → Nat
  | literal _ _ | field _ _ => 0
  | binary _ _ left right => max left.height right.height + 1
  | unary _ _ operand => operand.height + 1
  | group _ inner => inner.height + 1
  | conditional _ c y n => max c.height (max y.height n.height) + 1
  | call _ _ args => heightOf args
  | sequence _ items => heightOf items

def heightOf : List Expr → Nat
  | [] => 0
  | e :: es => max (e.height + 1) (heightOf es)

end

def links : Expr → Nat
  | binary _ _ left _ => left.links + 1
  | _ => 0

mutual

/-- The levels counted at most at once while the expression is read. A link of a chain counts for
its right operand and the links behind it, not for what stands left of it. -/
def charge : Expr → Nat
  | literal _ _ | field _ _ => 0
  | binary _ _ left right => max left.charge (left.links + 1 + right.charge)
  | unary _ _ operand => operand.charge + 1
  | group _ inner => inner.charge + 1
  | conditional _ c y n => max c.charge (max y.charge n.charge) + 1
  | call _ _ args => chargeOf args + 1
  | sequence _ items => chargeOf items

def chargeOf : List Expr → Nat
  | [] => 0
  | e :: es => max e.charge (chargeOf es)

end

theorem links_of_strength {e : Expr} (h : e.strength = 8) : e.links = 0 := by
  cases e with
  | binary _ op _ _ =>
    have hop := op.strength_le
    rw [strength_binary] at h
    omega
  | _ => rfl

theorem charge_le_chargeOf {e : Expr} {es : List Expr} (h : e ∈ es) : e.charge ≤ chargeOf es := by
  induction h with
  | head es =>
    simp only [chargeOf]
    omega
  | tail _ _ ih =>
    simp only [chargeOf]
    omega

theorem links_le_charge (e : Expr) : e.links ≤ e.charge := by
  cases e with
  | binary _ _ left right =>
    simp only [links, charge]
    omega
  | _ => exact Nat.zero_le _

theorem height_le_of_links {e : Expr} (h : 2 * e.height ≤ 2 * e.links + e.charge * (e.charge + 1)) :
    2 * e.height ≤ e.charge * (e.charge + 3) := by
  have hlinks := e.links_le_charge
  calc 2 * e.height ≤ 2 * e.charge + e.charge * (e.charge + 1) := by omega
    _ = e.charge * (e.charge + 3) := by rw [Nat.mul_add, Nat.mul_add]; omega

theorem height_succ_le {e : Expr} (h : 2 * e.height ≤ 2 * e.links + e.charge * (e.charge + 1))
    {n : Nat} (hn : e.charge < n) : 2 * (e.height + 1) ≤ n * (n + 1) := by
  have hheight := height_le_of_links h
  calc 2 * (e.height + 1) ≤ e.charge * (e.charge + 3) + 2 := by omega
    _ = (e.charge + 1) * (e.charge + 2) := by
      rw [Nat.mul_add, Nat.add_mul, Nat.mul_add]
      omega
    _ ≤ n * (n + 1) := Nat.mul_le_mul hn (by omega)

theorem heightOf_le {es : List Expr} {n : Nat} (hn : chargeOf es < n)
    (h : ∀ e ∈ es, 2 * e.height ≤ 2 * e.links + e.charge * (e.charge + 1)) :
    2 * heightOf es ≤ n * (n + 1) := by
  induction es with
  | nil => simp [heightOf]
  | cons e es ih =>
    simp only [chargeOf, heightOf, List.forall_mem_cons] at hn h ⊢
    have hfirst := height_succ_le h.1 (n := n) (by omega)
    have hothers := ih (by omega) h.2
    omega

/-- A chain may be as long as the charge allows, and its first operand nearly as deep once more. -/
theorem height_le_links {e : Expr} (h : e.All Placed) :
    2 * e.height ≤ 2 * e.links + e.charge * (e.charge + 1) := by
  induction e with
  | literal _ _ | field _ _ => simp [height]
  | binary m op left right ihl ihr =>
    -- the left operand brings its own links along; the right one is charged below this node
    obtain ⟨hl, hr, -⟩ := all_binary.1 h
    have hleft := ihl hl
    have hright := height_succ_le (ihr hr)
      (n := (binary m op left right).charge) (by simp only [charge]; omega)
    have hcharge : left.charge ≤ (binary m op left right).charge := by
      simp only [charge]
      omega
    have hsquare := Nat.mul_le_mul hcharge (Nat.succ_le_succ hcharge)
    simp only [height, links, Nat.succ_eq_add_one] at hsquare ⊢
    omega
  | unary _ _ operand ih =>
    simp only [height, links, charge, Nat.mul_zero, Nat.zero_add]
    exact height_succ_le (ih (all_unary.1 h).1) (Nat.lt_succ_self _)
  | group _ inner ih =>
    simp only [height, links, charge, Nat.mul_zero, Nat.zero_add]
    exact height_succ_le (ih (all_group.1 h).1) (Nat.lt_succ_self _)
  | conditional m c y n ihc ihy ihn =>
    obtain ⟨hc, hy, hn, -⟩ := all_conditional.1 h
    have hlevels : ∀ e ∈ [c, y, n], 2 * e.height ≤ 2 * e.links + e.charge * (e.charge + 1) := by
      simpa using ⟨ihc hc, ihy hy, ihn hn⟩
    have hargs := heightOf_le (Nat.lt_succ_self _) hlevels
    have hheight : heightOf [c, y, n] = (conditional m c y n).height := by
      simp only [heightOf, height]
      omega
    have hcharge : chargeOf [c, y, n] + 1 = (conditional m c y n).charge := by
      simp only [chargeOf, charge]
      omega
    rw [Nat.succ_eq_add_one, hheight, hcharge] at hargs
    exact Nat.le_trans hargs (Nat.le_add_left _ _)
  | call _ _ args ih =>
    simp only [height, links, charge, Nat.mul_zero, Nat.zero_add]
    exact heightOf_le (Nat.lt_succ_self _) fun e he => ih e he ((all_call.1 h).1 e he)
  | sequence _ _ _ => exact absurd h.root not_false

end Expr

namespace Parser

def withLimit (limit : Nat) (p : Parser) : Parser := { p with limit := limit }

@[simp] theorem withLimit_current (limit : Nat) (p : Parser) :
    (p.withLimit limit).current = p.current := rfl

@[simp] theorem withLimit_depth (limit : Nat) (p : Parser) :
    (p.withLimit limit).depth = p.depth := rfl

@[simp] theorem withLimit_limit (limit : Nat) (p : Parser) :
    (p.withLimit limit).limit = limit := rfl

@[simp] theorem withLimit_step (limit : Nat) (p : Parser) :
    (p.withLimit limit).step = p.step.withLimit limit := by
  obtain ⟨current, ahead, origin, nextId, depth, bound⟩ := p
  cases ahead <;> rfl

def Phrase.released : Phrase → Nat
  | chain _ _ length _ _ => length
  | _ => 0

theorem Run.depth {p q : Parser} {s : Phrase} (h : Run p s q) :
    q.limit = p.limit ∧ q.depth = p.depth - s.released := by
  induction h with
  | chainLink _ _ _ _ ih₁ ih₂ =>
    simp only [Phrase.released, numbered_depth, numbered_limit, deeper_depth, deeper_limit,
      step_depth, step_limit] at ih₁ ih₂ ⊢
    exact ⟨ih₂.1.trans ih₁.1, by omega⟩
  | _ => simp_all [Phrase.released]

/-- The levels counted stay within the limit. A chain at `length` links is `length` levels deeper
than where it started. -/
def Phrase.Bounded (p : Parser) : Phrase → Prop
  | binary _ e | unary e | primary e | call _ _ e =>
    p.depth ≤ p.limit → p.depth + e.charge ≤ p.limit
  | chain _ left length _ e =>
    left.links = length → length ≤ p.depth → p.depth - length + left.charge ≤ p.limit →
    p.depth - length + e.charge ≤ p.limit
  | arguments es | argumentsFrom es =>
    p.depth ≤ p.limit → p.depth + Expr.chargeOf es ≤ p.limit

theorem Run.bounded {p q : Parser} {s : Phrase} (h : Run p s q) : s.Bounded p := by
  induction h with
  | binary hu _ ih₁ ih₂ =>
    intro hp
    obtain ⟨hlimit, hdepth⟩ := hu.depth
    have hl := ih₁ hp
    have hz := Expr.links_of_strength hu.graded.2
    have hc := ih₂ hz (Nat.zero_le _) (by simp_all [Phrase.released])
    simp_all [Phrase.released]
  | chainEnd _ => exact fun _ _ hl => hl
  | chainLink _ hd hr _ ih₁ ih₂ =>
    intro hlinks hlen hl
    have hrun := hr.depth
    simp only [Phrase.Bounded, Phrase.released, numbered_depth, numbered_limit, deeper_depth,
      deeper_limit, step_depth, step_limit, Expr.links, Expr.charge] at ih₁ ih₂ hrun ⊢
    have hright := ih₁ hd
    have hrest := ih₂ (by omega) (by omega) (by omega)
    omega
  | unaryPrimary _ _ ih => exact ih
  | unaryOperator _ hd _ ih =>
    intro _
    simp only [Phrase.Bounded, deeper_depth, deeper_limit, step_depth, step_limit,
      Expr.charge] at ih ⊢
    have hoperand := ih hd
    omega
  | literal _ => exact fun h => h
  | field _ => exact fun h => h
  | group _ hd _ _ ih =>
    intro _
    simp only [Phrase.Bounded, deeper_depth, deeper_limit, step_depth, step_limit,
      Expr.charge] at ih ⊢
    have hinner := ih hd
    omega
  | conditional _ _ hd hc _ hy _ _ _ ih₁ ih₂ ih₃ =>
    intro _
    have hcrun := hc.depth
    have hyrun := hy.depth
    simp only [Phrase.Bounded, Phrase.released, deeper_depth, deeper_limit, step_depth, step_limit,
      Expr.charge] at ih₁ ih₂ ih₃ hcrun hyrun ⊢
    have hcondition := ih₁ hd
    have hyes := ih₂ (by omega)
    have hno := ih₃ (by omega)
    omega
  | identifier _ _ ih =>
    simp only [Phrase.Bounded, step_depth, step_limit] at ih ⊢
    exact ih
  | call _ _ hd _ _ _ ih =>
    intro _
    simp only [Phrase.Bounded, deeper_depth, deeper_limit, step_depth, step_limit,
      Expr.charge] at ih ⊢
    have hargs := ih hd
    omega
  | noArguments _ => exact fun h => h
  | someArguments _ _ ih => exact ih
  | lastArgument _ _ ih => simpa only [Phrase.Bounded, Expr.chargeOf, Nat.max_zero] using ih
  | nextArgument he _ _ ih₁ ih₂ =>
    intro hp
    have hrun := he.depth
    simp only [Phrase.Bounded, Phrase.released, step_depth, step_limit, Expr.chargeOf]
      at ih₁ ih₂ hrun ⊢
    have hfirst := ih₁ hp
    have hothers := ih₂ (by omega)
    omega

def Phrase.Grows : Phrase → Prop
  | chain _ left _ _ e => left.charge ≤ e.charge
  | _ => True

theorem Run.grows {p q : Parser} {s : Phrase} (h : Run p s q) : s.Grows := by
  induction h with
  | chainEnd _ => exact Nat.le_refl _
  | chainLink _ _ _ _ _ ih =>
    simp only [Phrase.Grows, Expr.charge] at ih ⊢
    omega
  | _ => trivial

def Phrase.Fits (bound : Nat) (p : Parser) : Phrase → Prop
  | binary _ e | unary e | primary e | call _ _ e => p.depth + e.charge ≤ bound
  | chain _ left length _ e =>
    left.links = length ∧ length ≤ p.depth ∧ p.depth - length + e.charge ≤ bound
  | arguments es | argumentsFrom es => p.depth + Expr.chargeOf es ≤ bound

theorem Run.withLimit {p q : Parser} {s : Phrase} (h : Run p s q) {bound : Nat}
    (hs : s.Fits bound p) : Run (p.withLimit bound) s (q.withLimit bound) := by
  induction h with
  | binary hu hc ih₁ ih₂ =>
    have hz := Expr.links_of_strength hu.graded.2
    have hrun := hu.depth
    have hgrow := hc.grows
    simp only [Phrase.Fits, Phrase.Grows, Phrase.released] at hs hgrow hrun ih₁ ih₂
    exact .binary (ih₁ (by omega)) (ih₂ ⟨hz, by omega, by omega⟩)
  | chainEnd hop => exact .chainEnd hop
  | @chainLink p q _ _ _ _ _ _ _ _ hop _ hr hc ih₁ ih₂ =>
    obtain ⟨hlinks, hlen, hs⟩ := hs
    have hrun := hr.depth
    have hgrow := hc.grows
    simp only [Phrase.Fits, Phrase.Grows, Phrase.released, numbered_depth, deeper_depth, step_depth,
      Expr.links, Expr.charge] at hs hgrow hrun ih₁ ih₂
    have hd : p.depth < bound := by omega
    have hright := ih₁ (by omega)
    have hrest := ih₂ ⟨by omega, by omega, by omega⟩
    exact .chainLink (q := q.withLimit bound) hop hd (by rwa [withLimit_step]) hrest
  | unaryPrimary hop _ ih => exact .unaryPrimary hop (ih hs)
  | @unaryOperator p q _ _ hop _ _ ih =>
    simp only [Phrase.Fits, deeper_depth, step_depth, Expr.charge] at hs ih
    have hd : p.depth < bound := by omega
    have hoperand := ih (by omega)
    exact .unaryOperator (q := q.withLimit bound) hop hd (by rwa [withLimit_step])
  | @literal p value hk =>
    have hrun := Run.literal (p := p.withLimit bound) hk
    rwa [withLimit_step] at hrun
  | @field p name hk =>
    have hrun := Run.field (p := p.withLimit bound) hk
    rwa [withLimit_step] at hrun
  | @group p q inner hk _ _ hq ih =>
    simp only [Phrase.Fits, deeper_depth, step_depth, Expr.charge] at hs ih
    have hd : p.depth < bound := by omega
    have hinner := ih (by omega)
    have hrun := Run.group (p := p.withLimit bound) (q := q.withLimit bound) hk hd
      (by rwa [withLimit_step]) hq
    rwa [withLimit_step] at hrun
  | @conditional p q r s condition yes no hk hl _ hc hq hy hr ho ht ih₁ ih₂ ih₃ =>
    have hcrun := hc.depth
    have hyrun := hy.depth
    simp only [Phrase.Fits, Phrase.released, deeper_depth, step_depth, Expr.charge]
      at hs hcrun hyrun ih₁ ih₂ ih₃
    have hd : p.depth < bound := by omega
    have hcondition := ih₁ (by omega)
    have hyes := ih₂ (by omega)
    have hno := ih₃ (by omega)
    have hrun := Run.conditional (p := p.withLimit bound) (q := q.withLimit bound)
      (r := r.withLimit bound) (s := s.withLimit bound) hk (by rwa [withLimit_step]) hd
      (by rwa [withLimit_step, withLimit_step]) hq (by rwa [withLimit_step]) hr
      (by rwa [withLimit_step]) ht
    rwa [withLimit_step] at hrun
  | identifier hk _ ih =>
    simp only [Phrase.Fits, step_depth] at hs ih
    exact .identifier hk (by rw [withLimit_step]; exact ih hs)
  | @call p q name position f args hk hf _ _ hq hn ih =>
    simp only [Phrase.Fits, deeper_depth, step_depth, Expr.charge] at hs ih
    have hd : p.depth < bound := by omega
    have hargs := ih (by omega)
    have hrun : Run (p.withLimit bound) (.call name position _) _ :=
      Run.call (q := q.withLimit bound) hk hf hd (by rwa [withLimit_step]) hq hn
    rwa [withLimit_step] at hrun
  | noArguments hk => exact .noArguments hk
  | someArguments hk _ ih => exact .someArguments hk (ih hs)
  | lastArgument _ hk ih =>
    simp only [Phrase.Fits, Expr.chargeOf, Nat.max_zero] at hs ih
    exact .lastArgument (ih hs) hk
  | nextArgument he hk _ ih₁ ih₂ =>
    have hrun := he.depth
    simp only [Phrase.Fits, Phrase.released, step_depth, Expr.chargeOf] at hs hrun ih₁ ih₂
    have hfirst := ih₁ (by omega)
    have hothers := ih₂ (by omega)
    exact .nextArgument hfirst hk (by rwa [withLimit_step])

theorem Statements.bounded {p q : Parser} {es : List Expr} (h : Statements p es q)
    (hp : p.depth ≤ p.limit) : p.depth + Expr.chargeOf es ≤ p.limit := by
  induction h with
  | last he _ => simpa [Expr.chargeOf] using he.bounded hp
  | closed he _ _ => simpa [Expr.chargeOf] using he.bounded hp
  | next he _ _ _ ih =>
    have hfirst := he.bounded hp
    have hrun := he.depth
    simp only [Phrase.released, step_depth, step_limit, Expr.chargeOf] at hrun ih ⊢
    have hothers := ih (by omega)
    omega

theorem Statements.withLimit {p q : Parser} {es : List Expr} (h : Statements p es q) {bound : Nat}
    (hs : p.depth + Expr.chargeOf es ≤ bound) :
    Statements (p.withLimit bound) es (q.withLimit bound) := by
  induction h with
  | last he hk =>
    exact .last (he.withLimit (by simpa [Phrase.Fits, Expr.chargeOf] using hs)) hk
  | @closed p q e he hk hq =>
    have hfits : Phrase.Fits bound p (.binary 0 e) := by
      simpa [Phrase.Fits, Expr.chargeOf] using hs
    have hrun := he.withLimit hfits
    have hclosed := Statements.closed hrun hk (by rwa [withLimit_step])
    rwa [withLimit_step] at hclosed
  | @next p q r e es he hk hq _ ih =>
    have hdepth := he.depth
    simp only [Phrase.released, step_depth, Expr.chargeOf] at hdepth hs ih
    have hfits : Phrase.Fits bound p (.binary 0 e) := by
      simp only [Phrase.Fits]
      omega
    have hrun := he.withLimit hfits
    have hothers := ih (by omega)
    exact .next hrun hk (by rwa [withLimit_step]) (by rwa [withLimit_step])

theorem withLimit_ofTokens (limit bound : Nat) (tokens : List Token) :
    (ofTokens limit tokens).withLimit bound = ofTokens bound tokens := by
  cases tokens <;> rfl

theorem depth_ofTokens (limit : Nat) (tokens : List Token) :
    (ofTokens limit tokens).depth = 0 ∧ (ofTokens limit tokens).limit = limit := by
  cases tokens <;> exact ⟨rfl, rfl⟩

theorem origin_ofTokens (limit bound : Nat) (tokens : List Token) :
    (ofTokens limit tokens).origin = (ofTokens bound tokens).origin := by
  cases tokens <;> rfl

theorem parseTokens_charge {limit : Nat} {tokens : List Token} {e : Expr}
    (h : parseTokens limit tokens = .ok e) :
    e.charge ≤ limit ∧ ∀ bound, e.charge ≤ bound → parseTokens bound tokens = .ok e := by
  obtain ⟨items, q, hs, hq, hitems⟩ := parseTokens_eq_ok_iff.1 h
  obtain ⟨hdepth, hlimit⟩ := depth_ofTokens limit tokens
  have hcharge : e.charge = Expr.chargeOf items := by
    rcases hitems with rfl | ⟨-, rfl⟩
    · simp [Expr.chargeOf]
    · rw [Expr.charge]
  have hbound := hs.bounded (by omega)
  refine ⟨by omega, fun bound hle => parseTokens_eq_ok_iff.2 ⟨items, q.withLimit bound, ?_, hq, ?_⟩⟩
  · rw [← withLimit_ofTokens limit]
    exact hs.withLimit (by omega)
  · rw [withLimit_step, origin_ofTokens bound limit]
    exact hitems

theorem mem_statements {limit : Nat} {tokens : List Token} {e : Expr}
    (h : parseTokens limit tokens = .ok e) {s : Expr} (hs : s ∈ e.statements) :
    s.All Expr.Placed ∧ s.charge ≤ e.charge := by
  obtain ⟨items, q, hrun, -, hitems⟩ := parseTokens_eq_ok_iff.1 h
  have hplaced : ∀ s ∈ items, s.All Expr.Placed :=
    fun s hs => (Expr.all_and.1 (hrun.yielded s hs)).2
  rcases hitems with rfl | ⟨-, rfl⟩
  · have he := hplaced e (List.mem_singleton_self e)
    rw [Expr.statements_of_placed he.root, List.mem_singleton] at hs
    subst hs
    exact ⟨he, Nat.le_refl _⟩
  · exact ⟨hplaced s hs, by rw [Expr.charge]; exact Expr.charge_le_chargeOf hs⟩

/-- The limits that accept a formula are those from its charge on. They bound the height of its
statements exactly when none is higher than that charge; a height may grow with its square. -/
theorem height_le_limit_iff {limit : Nat} {tokens : List Token} {e : Expr}
    (h : parseTokens limit tokens = .ok e) :
    (∀ bound e', parseTokens bound tokens = .ok e' ↔ e' = e ∧ e.charge ≤ bound) ∧
      ((∀ bound e', parseTokens bound tokens = .ok e' → ∀ s ∈ e'.statements, s.height ≤ bound) ↔
        ∀ s ∈ e.statements, s.height ≤ e.charge) ∧
      ∀ s ∈ e.statements, 2 * s.height ≤ e.charge * (e.charge + 3) := by
  have haccept : ∀ bound e', parseTokens bound tokens = .ok e' ↔ e' = e ∧ e.charge ≤ bound := by
    intro bound e'
    constructor
    · intro h'
      -- both parses can be repeated under the larger limit, where they agree
      have hwide := (parseTokens_charge h).2 (max limit bound)
        (by have := (parseTokens_charge h).1; omega)
      have hwide' := (parseTokens_charge h').2 (max limit bound)
        (by have := (parseTokens_charge h').1; omega)
      obtain rfl : e' = e := Except.ok.inj (hwide'.symm.trans hwide)
      exact ⟨rfl, (parseTokens_charge h').1⟩
    · rintro ⟨rfl, hle⟩
      exact (parseTokens_charge h).2 bound hle
  refine ⟨haccept, ⟨fun hheight => ?_, fun hheight bound e' h' s hs => ?_⟩, fun s hs => ?_⟩
  · exact hheight e.charge e ((haccept _ _).2 ⟨rfl, Nat.le_refl _⟩)
  · obtain ⟨rfl, hle⟩ := (haccept bound e').1 h'
    exact Nat.le_trans (hheight s hs) hle
  · obtain ⟨hplaced, hcharge⟩ := mem_statements h hs
    exact Nat.le_trans (Expr.height_le_of_links (Expr.height_le_links hplaced))
      (Nat.mul_le_mul hcharge (by omega))

/-- `1 + (2 * 3)` is as high as its charge, since nothing deep stands left of an operator. -/
theorem height_le_limit_right_nested :
    ∃ e, parseTokens 64 (([.literal (.number (.ofDigit 1)), .operator .add, .leftParen,
      .literal (.number (.ofDigit 2)), .operator .multiply, .literal (.number (.ofDigit 3)),
      .rightParen] : List Token.Kind).map fun kind => ⟨kind, "", 0⟩) = .ok e ∧
      ∀ s ∈ e.statements, s.height ≤ 64 := by
  refine (exists_ok (P := fun e => ∀ s ∈ e.statements, s.height ≤ e.charge) ?_).imp fun e he =>
    ⟨he.1, (height_le_limit_iff he.1).2.1.2 he.2 64 e he.1⟩
  decide +kernel

/-- `-1 + 2` has two levels and is read under the limit 1. -/
theorem height_exceeds_limit :
    ∃ e, parseTokens 1 (([.operator .subtract, .literal (.number (.ofDigit 1)), .operator .add,
      .literal (.number (.ofDigit 2))] : List Token.Kind).map fun kind => ⟨kind, "", 0⟩) = .ok e ∧
      ¬ ∀ s ∈ e.statements, s.height ≤ 1 :=
  exists_ok (by decide +kernel)

end Parser
end FieldFormula
