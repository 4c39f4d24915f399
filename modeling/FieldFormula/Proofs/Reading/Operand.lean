import FieldFormula.Proofs.Expr.Grammar
import FieldFormula.Proofs.Reading.Spelling

/-!
Texts by what they are read as, parentheses left out: `Denotes` for texts that stand alone and
`Operand` for texts that may stand beside operators up to a level. One lemma for each form of a text
says what its parts have to be; no lemma looks into the parts. Main statement: such a text is read
as the tree it denotes (`Operand.read`).
-/
namespace FieldFormula.Reading

def Tree.ungrouped : Tree → Tree
  | group t => t.ungrouped
  | sign op t => sign op t.ungrouped
  | link op l r => link op l.ungrouped r.ungrouped
  | suffix op t => suffix op t.ungrouped
  | apply f args => apply f.ungrouped args.ungrouped
  | index t key => index t.ungrouped key.ungrouped
  | object key t => object key t.ungrouped
  | template a b => template a.ungrouped b.ungrouped
  | branch c y n => branch c.ungrouped y.ungrouped n.ungrouped
  | choose c y n => choose c.ungrouped y.ungrouped n.ungrouped
  | t => t

/-- In the tree, `??` and `?` stand only in parentheses or in a hole of a template; the tree itself
stands there if `enclosed`. -/
def Tree.sheltered (enclosed : Bool) : Tree → Bool
  | text _ _ | number _ | constant _ | null | name _ => true
  | link .orElse l r => enclosed && l.sheltered false && r.sheltered false
  | link _ l r => l.sheltered false && r.sheltered false
  | choose c y n => enclosed && c.sheltered false && y.sheltered false && n.sheltered false
  | sign _ t | suffix _ t | object _ t => t.sheltered false
  | group t => t.sheltered true
  | apply f args => f.sheltered false && args.sheltered true
  | index t key => t.sheltered false && key.sheltered false
  | template a b => a.sheltered true && b.sheltered true
  | branch c y n => c.sheltered false && y.sheltered false && n.sheltered false

/-- The text `s` of the tree `t`, which the target reads back and which is `meaning` without its
parentheses. -/
structure Written (target : Target) (s : String) (meaning t : Tree) : Prop where
  spelling : t.spelling target = s
  ungrouped : t.ungrouped = meaning
  of : t.Of target
  graded : t.Graded target
  unmixed : t.unmixed = true

def Denotes (target : Target) (s : String) (meaning : Tree) : Prop :=
  ∃ t, Written target s meaning t ∧ t.sheltered true = true

/-- Operators behind the text that bind at most as tightly as `level`, and operators before it that
bind less tightly than `reach`, leave the text whole. -/
def Operand (target : Target) (s : String) (meaning : Tree) (level reach : Nat) : Prop :=
  ∃ t, Written target s meaning t ∧ t.sheltered false = true ∧ level ≤ t.level target ∧
    reach ≤ t.reach target

namespace Tree

theorem sheltered_of_false {t : Tree} (h : t.sheltered false = true) :
    t.sheltered true = true := by
  match t with
  | link .orElse _ _ | choose _ _ _ => cases h
  | link (.binary _) _ _ | link (.loose _) _ _ | link .comma _ _ | text _ _ | number _ | constant _
  | null | name _ | sign _ _ | suffix _ _ | object _ _ | group _ | apply _ _ | index _ _
  | template _ _ | branch _ _ _ => exact h

theorem isOrElse_eq_false {t : Tree} (h : t.sheltered false = true) : t.isOrElse = false := by
  match t with
  | link .orElse _ _ => cases h
  | link (.binary _) _ _ | link (.loose _) _ _ | link .comma _ _ | text _ _ | number _ | constant _
  | null | name _ | sign _ _ | suffix _ _ | object _ _ | group _ | apply _ _ | index _ _
  | template _ _ | branch _ _ _ | choose _ _ _ => rfl

theorem isLogical_eq_false {t : Tree} (h : 5 ≤ t.level .script) : t.isLogical = false := by
  match t with
  | link (.binary op) l r =>
    cases op with
    | and | or => exact absurd h (by simp [Tree.level, Link.level, scriptLevel])
    | _ => rfl
  | link (.loose _) _ _ | link .orElse _ _ | link .comma _ _ | text _ _ | number _ | constant _
  | null | name _ | sign _ _ | suffix _ _ | object _ _ | group _ | apply _ _ | index _ _
  | template _ _ | branch _ _ _ | choose _ _ _ => rfl

end Tree

variable {target : Target} {s t f : String} {a b c m : Tree} {level reach level' reach' : Nat}

attribute [local simp] Tree.spelling Tree.ungrouped

theorem Operand.read (h : Operand target s m level reach) :
    ∃ t, read target s = some t ∧ t.ungrouped = m ∧ t.Graded target ∧ t.sheltered false = true ∧
      t.unmixed = true := by
  obtain ⟨tree, h, hs, -⟩ := h
  refine ⟨tree, ?_, h.ungrouped, h.graded, hs, h.unmixed⟩
  rw [← h.spelling, Tree.read_spelling h.of h.graded h.unmixed]

theorem Operand.denotes (h : Operand target s m level reach) : Denotes target s m := by
  obtain ⟨tree, h, hs, -⟩ := h
  exact ⟨tree, h, Tree.sheltered_of_false hs⟩

theorem Operand.mono (h : Operand target s m level reach) (hl : level' ≤ level)
    (hr : reach' ≤ reach) : Operand target s m level' reach' := by
  obtain ⟨tree, h, hs, hlevel, hreach⟩ := h
  exact ⟨tree, h, hs, Nat.le_trans hl hlevel, Nat.le_trans hr hreach⟩

theorem operand_text (quote : Quote) (value : String) (h : target = .sql → quote = .single) :
    Operand target (quoted target quote value) (.text quote value) 13 13 :=
  ⟨.text quote value, ⟨rfl, rfl, h, trivial, rfl⟩, rfl, Nat.le_refl _, Nat.le_refl _⟩

theorem operand_number {d : Decimal} (h : d.negative = false) :
    Operand target d.toText (.number d) 13 13 :=
  ⟨.number d, ⟨rfl, rfl, h, trivial, rfl⟩, rfl, Nat.le_refl _, Nat.le_refl _⟩

theorem operand_constant (value : Bool) :
    Operand target (boolText value) (.constant value) 13 13 :=
  ⟨.constant value, ⟨rfl, rfl, trivial, trivial, rfl⟩, rfl, Nat.le_refl _, Nat.le_refl _⟩

theorem operand_null : Operand target (nullWord target) .null 13 13 :=
  ⟨.null, ⟨rfl, rfl, trivial, trivial, rfl⟩, rfl, Nat.le_refl _, Nat.le_refl _⟩

theorem operand_name (h : isName target s = true) : Operand target s (.name s) 13 13 :=
  ⟨.name s, ⟨rfl, rfl, h, trivial, rfl⟩, rfl, Nat.le_refl _, Nat.le_refl _⟩

theorem Denotes.group (h : Denotes target s m) : Operand target ("(" ++ s ++ ")") m 13 13 := by
  obtain ⟨tree, h, hs⟩ := h
  refine ⟨.group tree, ⟨?_, h.ungrouped, h.of, h.graded, h.unmixed⟩, hs, Nat.le_refl _,
    Nat.le_refl _⟩
  rw [Tree.spelling, h.spelling, String.append_assoc]

theorem Operand.sign (h : Operand target s m level reach) (op : Sign)
    (hr : op.level target < reach) (hl : op.level target ≤ level)
    (hs : op = .minus → s.toList.head? ≠ some '-') :
    Operand target (op.spelling target ++ s) (.sign op m) (op.level target) 13 := by
  obtain ⟨tree, h, hsheltered, hlevel, hreach⟩ := h
  refine ⟨.sign op tree, ⟨?_, ?_, ⟨h.of, ?_⟩, ⟨h.graded, ?_, ?_⟩, h.unmixed⟩, hsheltered,
    Nat.le_refl _, Nat.le_refl _⟩
  · rw [Tree.spelling, h.spelling]
  · rw [Tree.ungrouped, h.ungrouped]
  · rw [h.spelling]
    exact hs
  · exact Nat.lt_of_lt_of_le hr hreach
  · exact Nat.le_trans hl hlevel

theorem Operand.negated (h : Operand target s m 10 11) :
    Operand target ("-" ++ if s.toList.head? = some '-' then "(" ++ s ++ ")" else s)
      (.sign .minus m) 10 13 := by
  have hlevel : Sign.minus.level target = 10 := by cases target <;> rfl
  have hspelling : Sign.minus.spelling target = "-" := by cases target <;> rfl
  have hminus {s : String} (h : Operand target s m 10 11) (hs : s.toList.head? ≠ some '-') :
      Operand target ("-" ++ s) (.sign .minus m) 10 13 := by
    have hsign := h.sign .minus (by omega) (by omega) fun _ => hs
    rwa [hlevel, hspelling] at hsign
  by_cases hfirst : s.toList.head? = some '-'
  · rw [if_pos hfirst]
    exact hminus (h.denotes.group.mono (by decide) (by decide)) (by simp)
  · rw [if_neg hfirst]
    exact hminus h hfirst

theorem Operand.link {op : Link} (hl : Operand target s a level reach)
    (hr : Operand target t b level' reach') (hop : op ∈ links target) (hne : op ≠ .orElse)
    (hleft : if op.chains target then op.level target ≤ level else op.level target < level)
    (hlevel : op.level target ≤ level') (hreach : op.level target < reach') :
    Operand target (s ++ op.spelling target ++ t) (.link op a b) (op.level target)
      (op.level target) := by
  obtain ⟨l, hl, hls, hll, -⟩ := hl
  obtain ⟨r, hr, hrs, hrl, hrr⟩ := hr
  have hor : (Tree.link op l r).isOrElse = false := by
    cases op with
    | orElse => exact absurd rfl hne
    | _ => rfl
  have hsheltered : (Tree.link op l r).sheltered false = true := by
    cases op with
    | orElse => exact absurd rfl hne
    | _ => exact Bool.and_eq_true_iff.2 ⟨hls, hrs⟩
  refine ⟨.link op l r, ⟨?_, ?_, ⟨hop, hl.of, hr.of⟩, ⟨hl.graded, hr.graded, ?_, ?_, ?_⟩, ?_⟩,
    hsheltered, Nat.le_refl _, Nat.le_refl _⟩
  · rw [Tree.spelling, hl.spelling, hr.spelling, String.append_assoc]
  · rw [Tree.ungrouped, hl.ungrouped, hr.ungrouped]
  · split at hleft
    · rw [if_pos ‹_›]
      exact Nat.le_trans hleft hll
    · rw [if_neg ‹_›]
      exact Nat.lt_of_lt_of_le hleft hll
  · exact Nat.lt_of_lt_of_le hreach hrr
  · exact Nat.le_trans hlevel hrl
  · simp [Tree.unmixed, Tree.clashes, hl.unmixed, hr.unmixed, hor, Tree.isOrElse_eq_false hls,
      Tree.isOrElse_eq_false hrs]

theorem Operand.orElse (hl : Operand .script s a 5 reach) (hr : Operand .script t b 5 5) :
    Denotes .script (s ++ " ?? " ++ t) (.link .orElse a b) := by
  obtain ⟨l, hl, hls, hll, -⟩ := hl
  obtain ⟨r, hr, hrs, hrl, hrr⟩ := hr
  have hlogical : (Tree.link .orElse l r).isLogical = false := rfl
  refine ⟨.link .orElse l r, ⟨?_, ?_, ⟨by decide, hl.of, hr.of⟩,
    ⟨hl.graded, hr.graded, ?_, ?_, ?_⟩, ?_⟩, Bool.and_eq_true_iff.2 ⟨hls, hrs⟩⟩
  · rw [Tree.spelling, hl.spelling, hr.spelling, String.append_assoc]
    rfl
  · rw [Tree.ungrouped, hl.ungrouped, hr.ungrouped]
  · exact Nat.le_trans (by decide) hll
  · exact Nat.le_trans (by decide) hrr
  · exact Nat.le_trans (by decide) hrl
  · simp [Tree.unmixed, Tree.clashes, hl.unmixed, hr.unmixed, Tree.isLogical_eq_false hll,
      Tree.isLogical_eq_false hrl, hlogical]

theorem Operand.cast (h : Operand .sql s m 11 reach) (ht : isName .sql t = true) :
    Operand .sql (s ++ "::" ++ t) (.suffix (.cast t) m) 11 11 := by
  obtain ⟨tree, h, hs, hlevel, -⟩ := h
  refine ⟨.suffix (.cast t) tree, ⟨?_, ?_, ⟨rfl, ht, h.of⟩, ⟨h.graded, hlevel⟩, h.unmixed⟩, hs,
    Nat.le_refl _, Nat.le_refl _⟩
  · rw [Tree.spelling, h.spelling, Suffix.spelling, String.append_assoc]
  · rw [Tree.ungrouped, h.ungrouped]

theorem Operand.isNull (h : Operand .sql s m 5 reach) (negated : Bool) :
    Operand .sql (s ++ if negated then " IS NOT NULL" else " IS NULL")
      (.suffix (.isNull negated) m) 5 5 := by
  obtain ⟨tree, h, hs, hlevel, -⟩ := h
  refine ⟨.suffix (.isNull negated) tree, ⟨?_, ?_, ⟨rfl, h.of⟩, ⟨h.graded, hlevel⟩, h.unmixed⟩, hs,
    Nat.le_refl _, Nat.le_refl _⟩
  · rw [Tree.spelling, h.spelling]
    cases negated <;> rfl
  · rw [Tree.ungrouped, h.ungrouped]

theorem Operand.apply (hf : Operand target f a 12 reach) (h : Denotes target s m) :
    Operand target (f ++ "(" ++ s ++ ")") (.apply a m) 12 12 := by
  obtain ⟨g, hf, hfs, hlevel, -⟩ := hf
  obtain ⟨tree, h, hs⟩ := h
  refine ⟨.apply g tree, ⟨?_, ?_, ⟨hf.of, h.of⟩, ⟨hf.graded, h.graded, hlevel⟩, ?_⟩,
    Bool.and_eq_true_iff.2 ⟨hfs, hs⟩, Nat.le_refl _, Nat.le_refl _⟩
  · simp only [Tree.spelling, hf.spelling, h.spelling, String.append_assoc]
  · rw [Tree.ungrouped, hf.ungrouped, h.ungrouped]
  · exact Bool.and_eq_true_iff.2 ⟨hf.unmixed, h.unmixed⟩

theorem Operand.comma (hs : Operand target s a 2 2) (ht : Operand target t b 2 2) :
    Denotes target (s ++ ", " ++ t) (.link .comma a b) := by
  have hcomma : Link.comma ∈ links target := by cases target <;> decide
  have hspelling : Link.comma.spelling target = ", " := by cases target <;> rfl
  have hlevel : Link.comma.level target = 1 := by cases target <;> rfl
  have hchains : Link.comma.chains target = true := by cases target <;> rfl
  have hargs := hs.link ht hcomma (by decide) (by rw [if_pos hchains]; omega) (by omega) (by omega)
  rw [hspelling] at hargs
  exact hargs.denotes

theorem Operand.index (hf : Operand target f a 12 reach) (h : Operand target s m level' reach') :
    Operand target (f ++ "[" ++ s ++ "]") (.index a m) 12 12 := by
  obtain ⟨g, hf, hfs, hlevel, -⟩ := hf
  obtain ⟨tree, h, hs, -⟩ := h
  refine ⟨.index g tree, ⟨?_, ?_, ⟨hf.of, h.of⟩, ⟨hf.graded, h.graded, hlevel⟩, ?_⟩,
    Bool.and_eq_true_iff.2 ⟨hfs, hs⟩, Nat.le_refl _, Nat.le_refl _⟩
  · simp only [Tree.spelling, hf.spelling, h.spelling, String.append_assoc]
  · rw [Tree.ungrouped, hf.ungrouped, h.ungrouped]
  · exact Bool.and_eq_true_iff.2 ⟨hf.unmixed, h.unmixed⟩

theorem operand_member (hs : isName .script s = true) (ht : isName .script t = true) :
    Operand .script (s ++ "." ++ t) (.suffix (.member t) (.name s)) 12 12 := by
  refine ⟨.suffix (.member t) (.name s), ⟨?_, rfl, ⟨rfl, ht, rfl, hs⟩, ⟨trivial, ?_⟩, rfl⟩, rfl,
    Nat.le_refl _, Nat.le_refl _⟩
  · rw [Tree.spelling, Tree.spelling, Suffix.spelling, String.append_assoc]
  · exact Nat.le_succ _

theorem Operand.method (hf : Operand .script f a 12 reach) (h : Denotes .script s m)
    (ht : isName .script t = true) :
    Operand .script (f ++ "(" ++ s ++ ")" ++ "." ++ t ++ "()")
      (.suffix .invoke (.suffix (.member t) (.apply a m))) 12 12 := by
  obtain ⟨g, hf, hfs, hlevel, -⟩ := hf
  obtain ⟨tree, h, hs⟩ := h
  refine ⟨.suffix .invoke (.suffix (.member t) (.apply g tree)),
    ⟨?_, ?_, ⟨rfl, ht, rfl, hf.of, h.of⟩,
      ⟨⟨⟨hf.graded, h.graded, hlevel⟩, Nat.le_refl _⟩, Nat.le_refl _⟩, ?_⟩,
    Bool.and_eq_true_iff.2 ⟨hfs, hs⟩, Nat.le_refl _, Nat.le_refl _⟩
  · simp only [Tree.spelling, hf.spelling, h.spelling, Suffix.spelling, String.append_assoc]
  · simp only [Tree.ungrouped, hf.ungrouped, h.ungrouped]
  · exact Bool.and_eq_true_iff.2 ⟨hf.unmixed, h.unmixed⟩

theorem Operand.object (h : Operand .script s m level reach) (ht : isName .script t = true) :
    Operand .script ("\x7b " ++ t ++ ": " ++ s ++ "\x7d") (.object t m) 13 13 := by
  obtain ⟨tree, h, hs, -⟩ := h
  refine ⟨.object t tree, ⟨?_, ?_, ⟨rfl, ht, h.of⟩, h.graded, h.unmixed⟩, hs, Nat.le_refl _,
    Nat.le_refl _⟩
  · have hbrace : "\x7b " = "\x7b" ++ " " := rfl
    simp only [Tree.spelling, h.spelling, hbrace, String.append_assoc]
  · rw [Tree.ungrouped, h.ungrouped]

theorem Denotes.template (hs : Denotes .script s a) (ht : Denotes .script t b) :
    Operand .script ("\x60$\x7b" ++ s ++ "\x7d$\x7b" ++ t ++ "\x7d\x60") (.template a b) 13 13 := by
  obtain ⟨l, hs, hls⟩ := hs
  obtain ⟨r, ht, hrs⟩ := ht
  refine ⟨.template l r, ⟨?_, ?_, ⟨rfl, hs.of, ht.of⟩, ⟨hs.graded, ht.graded⟩, ?_⟩,
    Bool.and_eq_true_iff.2 ⟨hls, hrs⟩, Nat.le_refl _, Nat.le_refl _⟩
  · simp only [Tree.spelling, hs.spelling, ht.spelling, String.append_assoc]
  · rw [Tree.ungrouped, hs.ungrouped, ht.ungrouped]
  · exact Bool.and_eq_true_iff.2 ⟨hs.unmixed, ht.unmixed⟩

theorem Operand.branch (hc : Operand .sql s c level reach) (hy : Operand .sql t a level' reach')
    {i j : Nat} (hn : Operand .sql f b i j) :
    Operand .sql ("CASE WHEN " ++ s ++ " THEN " ++ t ++ " ELSE " ++ f ++ " END") (.branch c a b) 13
      13 := by
  obtain ⟨condition, hc, hcs, -⟩ := hc
  obtain ⟨yes, hy, hys, -⟩ := hy
  obtain ⟨no, hn, hns, -⟩ := hn
  refine ⟨.branch condition yes no, ⟨?_, ?_, ⟨rfl, hc.of, hy.of, hn.of⟩,
    ⟨hc.graded, hy.graded, hn.graded⟩, ?_⟩, ?_, Nat.le_refl _, Nat.le_refl _⟩
  · have hcase : "CASE WHEN " = "CASE " ++ "WHEN " := rfl
    simp only [Tree.spelling, hc.spelling, hy.spelling, hn.spelling, hcase, String.append_assoc]
  · rw [Tree.ungrouped, hc.ungrouped, hy.ungrouped, hn.ungrouped]
  · simp [Tree.unmixed, hc.unmixed, hy.unmixed, hn.unmixed]
  · simp [Tree.sheltered, hcs, hys, hns]

theorem Operand.choose (hc : Operand .script s c 3 reach) (hy : Operand .script t a level' reach')
    (hn : Operand .script f b 3 3) :
    Denotes .script (s ++ " ? " ++ t ++ " : " ++ f) (.choose c a b) := by
  obtain ⟨condition, hc, hcs, hcl, -⟩ := hc
  obtain ⟨yes, hy, hys, -⟩ := hy
  obtain ⟨no, hn, hns, hnl, hnr⟩ := hn
  refine ⟨.choose condition yes no, ⟨?_, ?_, ⟨rfl, hc.of, hy.of, hn.of⟩,
    ⟨hc.graded, hy.graded, hn.graded, hcl, hnr, Nat.le_of_succ_le hnl⟩, ?_⟩, ?_⟩
  · simp only [Tree.spelling, hc.spelling, hy.spelling, hn.spelling, String.append_assoc]
  · rw [Tree.ungrouped, hc.ungrouped, hy.ungrouped, hn.ungrouped]
  · simp [Tree.unmixed, hc.unmixed, hy.unmixed, hn.unmixed]
  · simp [Tree.sheltered, hcs, hys, hns]

def zeroTree : ValueType → Tree
  | .number => .number .zero
  | .string => .text .single ""
  | .boolean => .constant false
  | .date | .null => .null

/-- How tightly a text of the target binds that stands for an operand which binds as tightly as
`strength` in formulas. -/
def rank : Target → Nat → Nat
  | .sql, strength =>
    if strength ≤ 1 then 2 else if strength ≤ 2 then 3 else if strength ≤ 3 then 5
    else if strength ≤ 5 then 7 else if strength ≤ 6 then 8 else if strength ≤ 7 then 9 else 10
  | .script, strength =>
    if strength ≤ 1 then 3 else if strength ≤ 2 then 4 else if strength ≤ 3 then 5
    else if strength ≤ 5 then 7 else if strength ≤ 6 then 8 else 10

theorem rank_le_ten (target : Target) (strength : Nat) : rank target strength ≤ 10 := by
  cases target <;> simp only [rank] <;> split_ifs <;> decide

theorem rank_mono {i j : Nat} (h : i ≤ j) : rank target i ≤ rank target j := by
  by_cases hj : j ≤ 7
  · have htable : ∀ j ≤ 7, ∀ i ≤ j, rank target i ≤ rank target j := by cases target <;> decide
    exact htable j hj i h
  · have hten : rank target j = 10 := by
      cases target <;> simp only [rank] <;> split_ifs <;> omega
    rw [hten]
    exact rank_le_ten target i

theorem two_le_rank (target : Target) (strength : Nat) : 2 ≤ rank target strength := by
  have hzero : 2 ≤ rank target 0 := by cases target <;> decide
  exact Nat.le_trans hzero (rank_mono (Nat.zero_le strength))

section
variable {op : BinaryOp} {i j : Nat} {e : Expr}

theorem level_lt_rank (hop : .binary op ∈ links target) (h : op.strength < i) :
    (Link.binary op).level target < rank target i := by
  have hnext : (Link.binary op).level target < rank target (op.strength + 1) := by
    revert hop
    cases target <;> cases op <;> decide
  exact Nat.lt_of_lt_of_le hnext (rank_mono h)

theorem level_le_rank (hop : .binary op ∈ links target) (hc : op.isComparison = false)
    (h : op.strength ≤ i) : (Link.binary op).level target ≤ rank target i := by
  have hsame : (Link.binary op).level target ≤ rank target op.strength := by
    revert hop hc
    cases target <;> cases op <;> decide
  exact Nat.le_trans hsame (rank_mono h)

theorem rank_le_level (hop : .binary op ∈ links target) :
    rank target op.strength ≤ (Link.binary op).level target := by
  revert hop
  cases target <;> cases op <;> decide

theorem Operand.binary (hl : Operand target s a (rank target i) (rank target i))
    (hr : Operand target t b (rank target j) (rank target j)) (hop : .binary op ∈ links target)
    (hi : op.strength ≤ i) (hcomparison : op.isComparison = true → op.strength < i)
    (hj : op.strength < j) :
    Operand target (s ++ " " ++ (Link.binary op).symbol target ++ " " ++ t) (.link (.binary op) a b)
      (rank target op.strength) (rank target op.strength) := by
  have hright := level_lt_rank hop hj
  have hleft : if (Link.binary op).chains target then
      (Link.binary op).level target ≤ rank target i
      else (Link.binary op).level target < rank target i := by
    cases hc : op.isComparison with
    | true =>
      have hlt := level_lt_rank hop (hcomparison hc)
      split
      · exact Nat.le_of_lt hlt
      · exact hlt
    | false =>
      have hchains : (Link.binary op).chains target = true := by
        cases target <;> simp [Link.chains, hc]
      rw [if_pos hchains]
      exact level_le_rank hop hc hi
  have hall := hl.link hr hop (by simp) hleft (Nat.le_of_lt hright) hright
  simp only [Link.spelling, String.append_assoc] at hall ⊢
  exact hall.mono (rank_le_level hop) (rank_le_level hop)

theorem mem_links_of_isComparison (hc : op.isComparison = true) : .binary op ∈ links target := by
  revert hc
  cases target <;> cases op <;> decide

theorem Operand.comparison (hl : Operand target s a 10 10) (hr : Operand target t b 10 10)
    (hc : op.isComparison = true) :
    Operand target (s ++ " " ++ (Link.binary op).symbol target ++ " " ++ t) (.link (.binary op) a b)
      (rank target op.strength) (rank target op.strength) := by
  have hthree : op.strength = 3 := beq_iff_eq.1 hc
  have hrank : rank target 8 = 10 := by cases target <;> rfl
  rw [← hrank] at hl hr
  exact hl.binary hr (mem_links_of_isComparison hc) (by omega) (fun _ => by omega) (by omega)

def reachOf (target : Target) : Expr → Nat
  | .binary _ op _ _ => rank target op.strength
  | _ => 11

theorem rank_le_reachOf (e : Expr) : rank target e.strength ≤ reachOf target e := by
  cases e with
  | binary m op l r => exact Nat.le_refl _
  | _ => exact Nat.le_succ_of_le (rank_le_ten _ _)

theorem reachOf_of_strength (h : e.strength = 8) : reachOf target e = 11 := by
  cases e with
  | binary m op l r => cases op <;> cases h
  | _ => rfl

theorem isComparison_of_isEquality (h : op.isEquality = true) : op.isComparison = true := by
  cases op with
  | equal | notEqual => rfl
  | _ => cases h

end

end FieldFormula.Reading
