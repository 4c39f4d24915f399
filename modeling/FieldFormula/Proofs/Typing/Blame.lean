import FieldFormula.Proofs.Typing.Rules

/-!
Who is to blame for a type error. The rules give types to expressions without any regard to how
typing proceeds; a conditional whose branches have no common type has none, and its value may be
passed on through parentheses and branches before something takes it. Main statement: the node at
the position of an error is at fault by the rules, and of the conditionals within a value that is
taken the first one is blamed (`blamed_node_at_fault`).
-/
namespace FieldFormula

namespace Expr

/-- The parts whose value may become the value of the expression, those further in first. -/
def passed : Expr → List Expr
  | group m inner => inner.passed ++ [group m inner]
  | conditional m c y n => y.passed ++ n.passed ++ [conditional m c y n]
  | e => [e]

/-- The parts, other than operands, whose type the node itself asks for. -/
def taken : Expr → List Expr
  | conditional _ c _ _ => [c]
  | call _ _ args => args
  | sequence _ items => items
  | _ => []

def Takes (e part : Expr) : Prop := part = e ∨ ∃ n ∈ e.nodes, part ∈ n.taken

theorem nodes_subset_nodesOf {e : Expr} {es : List Expr} (h : e ∈ es) : e.nodes ⊆ nodesOf es := by
  intro n hn
  rw [nodesOf_eq_flatMap]
  exact List.mem_flatMap.2 ⟨e, h, hn⟩

end Expr

namespace Typing

mutual

inductive HasType (schema : Schema) : Expr → ValueType → Prop where
  | literal {m : Mark} {value : Literal} : HasType schema (.literal m value) value.type
  | field {m : Mark} {name : String} {field : Field} :
      schema.get? name = some field → HasType schema (.field m name) field.type
  | binary {m : Mark} {op : BinaryOp} {l r : Expr} {a b t : ValueType} :
      HasType schema l a → HasType schema r b →
      op.Gives (l.isConstant || r.isConstant) a b t → HasType schema (.binary m op l r) t
  | unary {m : Mark} {op : UnaryOp} {e : Expr} {a : ValueType} :
      HasType schema e a → a = op.type ∨ a = .null → HasType schema (.unary m op e) op.type
  | group {m : Mark} {e : Expr} {t : ValueType} :
      HasType schema e t → HasType schema (.group m e) t
  | conditional {m : Mark} {c y n : Expr} {t a b u : ValueType} :
      HasType schema c t → t = .boolean ∨ t = .null → HasType schema y a → HasType schema n b →
      a.Unify b u → HasType schema (.conditional m c y n) u
  | call {m : Mark} {name : String} {args : List Expr} {ts : List ValueType} :
      HaveTypes schema args ts →
      HasType schema (.call m name args) ((Builtin.find? name).elim .null Builtin.returns)
  | sequence {m : Mark} {items : List Expr} {ts : List ValueType} :
      HaveTypes schema items ts → HasType schema (.sequence m items) (ts.getLast?.getD .null)

inductive HaveTypes (schema : Schema) : List Expr → List ValueType → Prop where
  | nil : HaveTypes schema [] []
  | cons {e : Expr} {es : List Expr} {t : ValueType} {ts : List ValueType} :
      HasType schema e t → HaveTypes schema es ts → HaveTypes schema (e :: es) (t :: ts)

end

def Disagrees (schema : Schema) : Expr → Prop
  | .conditional _ _ y n =>
    ∃ a b, HasType schema y a ∧ HasType schema n b ∧ ∀ u, ¬ a.Unify b u
  | _ => False

def RaisesNoError (schema : Schema) (e : Expr) : Prop :=
  ∀ s, ∃ r s', resolveNode schema e s = .ok r s'

/-- Of the nodes that disagree, `i` comes first, and its value is passed on. -/
def FirstDisagreement (schema : Schema) (e i : Expr) : Prop :=
  i ∈ e.passed ∧ Disagrees schema i ∧
    ∃ before after, e.nodes = before ++ i :: after ∧ ∀ n ∈ before, ¬ Disagrees schema n

/-- The node is at fault for an error of this cause in the expression `root`. -/
inductive AtFault (schema : Schema) (root : Expr) : TypeError.Cause → Expr → Prop where
  | undeclared {m : Mark} {name : String} :
      schema.get? name = none → AtFault schema root (.unknownField name) (.field m name)
  | operands {m : Mark} {op : BinaryOp} {l r : Expr} {a b : ValueType} :
      HasType schema l a → HasType schema r b →
      (∀ t, ¬ op.Gives (l.isConstant || r.isConstant) a b t) →
      AtFault schema root (.mismatch (.binary op)) (.binary m op l r)
  | operandsDisagree {m : Mark} {op : BinaryOp} {l r i : Expr} :
      RaisesNoError schema l → RaisesNoError schema r → i ∈ l.passed ++ r.passed →
      Disagrees schema i → AtFault schema root (.mismatch (.binary op)) (.binary m op l r)
  | operand {m : Mark} {op : UnaryOp} {e : Expr} {a : ValueType} :
      HasType schema e a → a ≠ op.type → a ≠ .null →
      AtFault schema root (.mismatch (.unary op)) (.unary m op e)
  | operandDisagrees {m : Mark} {op : UnaryOp} {e i : Expr} :
      RaisesNoError schema e → i ∈ e.passed → Disagrees schema i →
      AtFault schema root (.mismatch (.unary op)) (.unary m op e)
  | condition {m : Mark} {c y n : Expr} {t : ValueType} :
      HasType schema c t → t ≠ .boolean → t ≠ .null →
      AtFault schema root (.mismatch .conditional) (.conditional m c y n)
  | branches {part i : Expr} :
      root.Takes part → RaisesNoError schema part → FirstDisagreement schema part i →
      (∀ n ∈ part.nodes, i ∈ n.nodes → Disagrees schema n → n = i) →
      AtFault schema root (.mismatch .conditional) i

/-- Nothing is wrong within the expression, save that conditionals may disagree whose value is only
passed on. -/
inductive Quiet (schema : Schema) : Expr → Prop where
  | typed {e : Expr} {t : ValueType} : HasType schema e t → Quiet schema e
  | group {m : Mark} {e : Expr} : Quiet schema e → Quiet schema (.group m e)
  | conditional {m : Mark} {c y n : Expr} {t : ValueType} :
      HasType schema c t → t = .boolean ∨ t = .null → Quiet schema y → Quiet schema n →
      Quiet schema (.conditional m c y n)

variable {schema : Schema} {e root : Expr}

attribute [local simp] resolveNode resolveItems

section Rules

theorem HaveTypes.unique {es : List Expr}
    (h : ∀ e ∈ es, ∀ t u, HasType schema e t → HasType schema e u → t = u)
    {ts us : List ValueType} (hts : HaveTypes schema es ts) (hus : HaveTypes schema es us) :
    ts = us := by
  induction es generalizing ts us with
  | nil =>
    cases hts
    cases hus
    rfl
  | cons e es ih =>
    obtain ⟨he, hes⟩ := List.forall_mem_cons.1 h
    cases hts with
    | cons ht hts =>
      cases hus with
      | cons hu hus => rw [he _ _ ht hu, ih hes hts hus]

theorem HasType.unique {t u : ValueType} (ht : HasType schema e t) (hu : HasType schema e u) :
    t = u := by
  induction e generalizing t u with
  | literal m value =>
    cases ht
    cases hu
    rfl
  | field m name =>
    cases ht with
    | field hfield =>
      cases hu with
      | field hother => rw [Option.some.inj (hfield.symm.trans hother)]
  | binary m op l r ihl ihr =>
    cases ht with
    | binary hl hr hop =>
      cases hu with
      | binary hl' hr' hop' =>
        rw [ihl hl hl', ihr hr hr', ← BinaryOp.type?_eq_some_iff] at hop
        rw [← BinaryOp.type?_eq_some_iff] at hop'
        exact Option.some.inj (hop.symm.trans hop')
  | unary m op operand ih =>
    cases ht
    cases hu
    rfl
  | group m inner ih =>
    cases ht with
    | group ht =>
      cases hu with
      | group hu => exact ih ht hu
  | conditional m c y n ihc ihy ihn =>
    cases ht with
    | conditional _ _ hy hn hunify =>
      cases hu with
      | conditional _ _ hy' hn' hunify' =>
        rw [ihy hy hy', ihn hn hn', ← ValueType.unify?_eq_some_iff] at hunify
        rw [← ValueType.unify?_eq_some_iff] at hunify'
        exact Option.some.inj (hunify.symm.trans hunify')
  | call m name args ih =>
    cases ht
    cases hu
    rfl
  | sequence m items ih =>
    cases ht with
    | sequence hts =>
      cases hu with
      | sequence hus => rw [hts.unique (fun e he _ _ ht hu => ih e he ht hu) hus]

theorem HaveTypes.exists_hasType {es : List Expr} {ts : List ValueType}
    (h : HaveTypes schema es ts) : ∀ e ∈ es, ∃ t, HasType schema e t := by
  induction es generalizing ts with
  | nil => exact List.forall_mem_nil _
  | cons e es ih =>
    cases h with
    | cons ht hts => exact List.forall_mem_cons.2 ⟨⟨_, ht⟩, ih hts⟩

theorem HasType.none_disagrees {t : ValueType} (h : HasType schema e t) :
    e.All fun n => ¬ Disagrees schema n := by
  induction e generalizing t with
  | literal m value => exact Expr.all_literal.2 not_false
  | field m name => exact Expr.all_field.2 not_false
  | binary m op l r ihl ihr =>
    cases h with
    | binary hl hr _ => exact Expr.all_binary.2 ⟨ihl hl, ihr hr, not_false⟩
  | unary m op operand ih =>
    cases h with
    | unary he _ => exact Expr.all_unary.2 ⟨ih he, not_false⟩
  | group m inner ih =>
    cases h with
    | group he => exact Expr.all_group.2 ⟨ih he, not_false⟩
  | conditional m c y n ihc ihy ihn =>
    cases h with
    | conditional hc _ hy hn hunify =>
      refine Expr.all_conditional.2 ⟨ihc hc, ihy hy, ihn hn, ?_⟩
      -- a type is unique, so the types that do not unify would be the ones that do
      rintro ⟨a, b, hy', hn', hnone⟩
      rw [hy.unique hy', hn.unique hn'] at hunify
      exact hnone _ hunify
  | call m name args ih =>
    cases h with
    | call hargs =>
      refine Expr.all_call.2 ⟨fun e he => ?_, not_false⟩
      obtain ⟨t, ht⟩ := hargs.exists_hasType e he
      exact ih e he ht
  | sequence m items ih =>
    cases h with
    | sequence hitems =>
      refine Expr.all_sequence.2 ⟨fun e he => ?_, not_false⟩
      obtain ⟨t, ht⟩ := hitems.exists_hasType e he
      exact ih e he ht

theorem Quiet.disagrees_alone (h : Quiet schema e) {n k : Expr} (hn : n ∈ e.nodes)
    (hdisagrees : Disagrees schema n) (hk : k ∈ n.nodes) (hwithin : Disagrees schema k) :
    k = n := by
  induction h with
  | typed ht => exact absurd hdisagrees (ht.none_disagrees n hn)
  | group _ ih =>
    rw [Expr.nodes, List.mem_append, List.mem_singleton] at hn
    rcases hn with hn | rfl
    · exact ih hn
    · exact absurd hdisagrees not_false
  | conditional hc _ _ _ ihy ihn =>
    rw [Expr.nodes] at hn
    simp only [List.mem_append, List.mem_singleton] at hn
    rcases hn with ((hn | hn) | hn) | rfl
    · exact absurd hdisagrees (hc.none_disagrees n hn)
    · exact ihy hn
    · exact ihn hn
    · -- the node itself disagrees, so all three parts have types and nothing within them disagrees
      obtain ⟨a, b, hy, hn, -⟩ := hdisagrees
      rw [Expr.nodes] at hk
      simp only [List.mem_append, List.mem_singleton] at hk
      rcases hk with ((hk | hk) | hk) | hk
      · exact absurd hwithin (hc.none_disagrees k hk)
      · exact absurd hwithin (hy.none_disagrees k hk)
      · exact absurd hwithin (hn.none_disagrees k hk)
      · exact hk

theorem HaveTypes.resolve {es : List Expr}
    (h : ∀ e ∈ es, ∀ t, HasType schema e t → ∀ s, ∃ s', resolveNode schema e s = .ok (.known t) s')
    {ts : List ValueType} (hts : HaveTypes schema es ts) (last : ValueType) (s : TypeTable) :
    ∃ s', resolveItems schema last es s = .ok (ts.getLast?.getD last) s' := by
  induction es generalizing ts last s with
  | nil =>
    cases hts
    exact ⟨s, rfl⟩
  | cons e es ih =>
    obtain ⟨he, hes⟩ := List.forall_mem_cons.1 h
    cases hts with
    | @cons _ _ t ts ht hts =>
      obtain ⟨s₁, h₁⟩ := he t ht s
      obtain ⟨s₂, h₂⟩ := ih hes hts t s₁
      refine ⟨s₂, items_eq_ok.2 ⟨t, s₁, h₁, ?_⟩⟩
      rw [h₂, List.getLast?_cons, Option.getD_some]

theorem HasType.resolve {t : ValueType} (h : HasType schema e t) (s : TypeTable) :
    ∃ s', resolveNode schema e s = .ok (.known t) s' := by
  induction e generalizing t s with
  | literal m value =>
    cases h
    exact ⟨_, rfl⟩
  | field m name =>
    cases h with
    | field hfield => exact ⟨_, field_eq_known.2 ⟨congrArg (Option.map Field.type) hfield, rfl⟩⟩
  | binary m op l r ihl ihr =>
    cases h with
    | binary hl hr hop =>
      obtain ⟨s₁, h₁⟩ := ihl hl s
      obtain ⟨s₂, h₂⟩ := ihr hr s₁
      exact ⟨_, binary_eq_known.2 ⟨_, s₁, _, s₂, h₁, h₂, hop, rfl⟩⟩
  | unary m op operand ih =>
    cases h with
    | unary he hfits =>
      obtain ⟨s₁, h₁⟩ := ih he s
      exact ⟨_, unary_eq_known.2 ⟨_, s₁, h₁, hfits, rfl, rfl⟩⟩
  | group m inner ih =>
    cases h with
    | group he =>
      obtain ⟨s₁, h₁⟩ := ih he s
      exact ⟨_, group_eq_known.2 ⟨s₁, h₁, rfl⟩⟩
  | conditional m c y n ihc ihy ihn =>
    cases h with
    | conditional hc hfits hy hn hunify =>
      obtain ⟨s₁, h₁⟩ := ihc hc s
      obtain ⟨s₂, h₂⟩ := ihy hy s₁
      obtain ⟨s₃, h₃⟩ := ihn hn s₂
      exact ⟨_, conditional_eq_known.2
        ⟨_, s₁, _, s₂, _, s₃, h₁, h₂, h₃, hfits, hunify, rfl⟩⟩
  | call m name args ih =>
    cases h with
    | call hargs =>
      obtain ⟨s₁, h₁⟩ := hargs.resolve (fun e he _ ht s => ih e he ht s) .null s
      exact ⟨_, call_eq_known.2 ⟨_, s₁, h₁, rfl, rfl⟩⟩
  | sequence m items ih =>
    cases h with
    | sequence hitems =>
      obtain ⟨s₁, h₁⟩ := hitems.resolve (fun e he _ ht s => ih e he ht s) .null s
      exact ⟨_, sequence_eq_known.2 ⟨s₁, h₁, rfl⟩⟩

theorem exists_conclude (m : Mark) (r : Resolved) (s : TypeTable) :
    ∃ s', conclude m r s = .ok r s' := by
  cases r <;> exact ⟨_, rfl⟩

theorem Quiet.raisesNoError (h : Quiet schema e) : RaisesNoError schema e := by
  induction h with
  | typed ht =>
    intro s
    obtain ⟨s', hs⟩ := ht.resolve s
    exact ⟨_, s', hs⟩
  | @group m e _ ih =>
    intro s
    obtain ⟨r, s₁, h₁⟩ := ih s
    obtain ⟨s₂, h₂⟩ := exists_conclude m r s₁
    refine ⟨r, s₂, ?_⟩
    rw [resolveNode, bind_eq_ok]
    exact ⟨r, s₁, h₁, h₂⟩
  | @conditional m c y n t hc hfits _ _ ihy ihn =>
    intro s
    obtain ⟨s₁, h₁⟩ := hc.resolve s
    obtain ⟨a, s₂, h₂⟩ := ihy s₁
    obtain ⟨b, s₃, h₃⟩ := ihn s₂
    obtain ⟨s₄, h₄⟩ := exists_conclude m (merge m.position a b) s₃
    refine ⟨merge m.position a b, s₄, ?_⟩
    rw [resolveNode, bind_eq_ok]
    refine ⟨_, s₁, h₁, bind_eq_ok.2 ⟨t, s₁, rfl, ?_⟩⟩
    rw [if_pos (ValueType.fits_iff.2 hfits), bind_eq_ok]
    exact ⟨a, s₂, h₂, bind_eq_ok.2 ⟨b, s₃, h₃, h₄⟩⟩

end Rules

section First
variable {m : Mark} {c y n i : Expr} {t a b : ValueType}

theorem FirstDisagreement.mem_nodes (h : FirstDisagreement schema e i) : i ∈ e.nodes := by
  obtain ⟨-, -, before, after, hnodes, -⟩ := h
  rw [hnodes]
  exact List.mem_append_right _ List.mem_cons_self

theorem FirstDisagreement.group (h : FirstDisagreement schema e i) :
    FirstDisagreement schema (.group m e) i := by
  obtain ⟨hpassed, hi, before, after, hnodes, hbefore⟩ := h
  refine ⟨List.mem_append_left _ hpassed, hi, before, after ++ [.group m e], ?_, hbefore⟩
  rw [Expr.nodes, hnodes, List.append_assoc, List.cons_append]

theorem FirstDisagreement.yes (hc : HasType schema c t) (h : FirstDisagreement schema y i) :
    FirstDisagreement schema (.conditional m c y n) i := by
  obtain ⟨hpassed, hi, before, after, hnodes, hbefore⟩ := h
  refine ⟨List.mem_append_left _ (List.mem_append_left _ hpassed), hi, c.nodes ++ before,
    after ++ (n.nodes ++ [.conditional m c y n]), ?_,
    List.forall_mem_append.2 ⟨hc.none_disagrees, hbefore⟩⟩
  simp only [Expr.nodes, hnodes, List.append_assoc, List.cons_append]

theorem FirstDisagreement.no (hc : HasType schema c t) (hy : HasType schema y a)
    (h : FirstDisagreement schema n i) : FirstDisagreement schema (.conditional m c y n) i := by
  obtain ⟨hpassed, hi, before, after, hnodes, hbefore⟩ := h
  refine ⟨List.mem_append_left _ (List.mem_append_right _ hpassed), hi,
    c.nodes ++ (y.nodes ++ before), after ++ [.conditional m c y n], ?_,
    List.forall_mem_append.2
      ⟨hc.none_disagrees, List.forall_mem_append.2 ⟨hy.none_disagrees, hbefore⟩⟩⟩
  simp only [Expr.nodes, hnodes, List.append_assoc, List.cons_append]

theorem firstDisagreement_self (hc : HasType schema c t) (hy : HasType schema y a)
    (hn : HasType schema n b) (hnone : ∀ u, ¬ a.Unify b u) :
    FirstDisagreement schema (.conditional m c y n) (.conditional m c y n) := by
  refine ⟨List.mem_append_right _ (List.mem_singleton_self _), ⟨a, b, hy, hn, hnone⟩,
    c.nodes ++ y.nodes ++ n.nodes, [], rfl, ?_⟩
  exact List.forall_mem_append.2
    ⟨List.forall_mem_append.2 ⟨hc.none_disagrees, hy.none_disagrees⟩, hn.none_disagrees⟩

end First

def Explained (schema : Schema) (e : Expr) : Resolved → Prop
  | .known t => HasType schema e t
  | .mixed position =>
    Quiet schema e ∧ ∃ i, FirstDisagreement schema e i ∧ i.position = position

theorem Explained.quiet {r : Resolved} (h : Explained schema e r) : Quiet schema e := by
  cases r with
  | known t => exact .typed h
  | mixed position => exact h.1

theorem explained_merge {m : Mark} {c y n : Expr} {t : ValueType} {a b : Resolved}
    (hc : HasType schema c t) (ht : t = .boolean ∨ t = .null) (ha : Explained schema y a)
    (hb : Explained schema n b) :
    Explained schema (.conditional m c y n) (merge m.position a b) := by
  have hquiet : Quiet schema (.conditional m c y n) := .conditional hc ht ha.quiet hb.quiet
  cases a with
  | mixed p =>
    obtain ⟨-, i, hi, hp⟩ := ha
    exact ⟨hquiet, i, hi.yes hc, hp⟩
  | known a =>
    cases b with
    | mixed p =>
      obtain ⟨-, i, hi, hp⟩ := hb
      exact ⟨hquiet, i, hi.no hc ha, hp⟩
    | known b =>
      simp only [merge]
      cases hu : a.unify? b with
      | some u => exact .conditional hc ht ha hb (ValueType.unify?_eq_some_iff.1 hu)
      | none =>
        refine ⟨hquiet, _, firstDisagreement_self hc ha hb fun u hunify => ?_, rfl⟩
        rw [ValueType.unify?_eq_some_iff.2 hunify] at hu
        cases hu

def Justified (schema : Schema) (root : Expr) (err : TypeError) : Prop :=
  ∃ n ∈ root.nodes, n.position = err.position ∧ AtFault schema root err.cause n

def Ends {α : Type} (R : α → Prop) (E : TypeError → Prop) (m : TypeM α) : Prop :=
  ∀ s, match m s with
    | .ok a _ => R a
    | .error err _ => E err

section Ends
variable {α β : Type} {R : α → Prop} {Q : β → Prop} {E : TypeError → Prop}

theorem ends_pure {a : α} (h : R a) : Ends R E (pure a) := fun _ => h

theorem ends_throw {err : TypeError} (h : E err) : Ends R E (throw err) := fun _ => h

theorem Ends.bind {m : TypeM α} {f : α → TypeM β} (hm : Ends R E m)
    (hf : ∀ a, R a → Ends Q E (f a)) : Ends Q E (m >>= f) := by
  intro s
  have hs := hm s
  simp only [Bind.bind, EStateM.bind]
  cases hq : m s with
  | ok a s' =>
    rw [hq] at hs
    exact hf a hs s'
  | error err s' =>
    rw [hq] at hs
    exact hs

theorem ends_conclude {P : Resolved → Prop} {m : Mark} {r : Resolved} (h : P r) :
    Ends P E (conclude m r) := by
  intro s
  cases r with
  | known t => exact h
  | mixed position => exact h

end Ends

/-- A value that is taken has a type, or the first disagreement within it is blamed. -/
theorem ends_settle {part : Expr} {r : Resolved} (htakes : root.Takes part)
    (hnodes : part.nodes ⊆ root.nodes) (h : Explained schema part r) :
    Ends (HasType schema part) (Justified schema root) (settle r) := by
  cases r with
  | known t => exact ends_pure h
  | mixed position =>
    obtain ⟨hquiet, i, hi, hposition⟩ := h
    have hinnermost : ∀ n ∈ part.nodes, i ∈ n.nodes → Disagrees schema n → n = i := by
      intro n hn hmem hdisagrees
      exact (hquiet.disagrees_alone hn hdisagrees hmem hi.2.1).symm
    exact ends_throw ⟨i, hnodes hi.mem_nodes, hposition,
      .branches htakes hquiet.raisesNoError hi hinnermost⟩

def Answerable (schema : Schema) (root e : Expr) : Prop :=
  Ends (Explained schema e) (Justified schema root) (resolveNode schema e)

theorem ends_items {es : List Expr} (h : ∀ e ∈ es, Answerable schema root e)
    (htakes : ∀ e ∈ es, root.Takes e) (hnodes : Expr.nodesOf es ⊆ root.nodes) (last : ValueType) :
    Ends (fun t => ∃ ts, HaveTypes schema es ts ∧ t = ts.getLast?.getD last)
      (Justified schema root) (resolveItems schema last es) := by
  induction es generalizing last with
  | nil => exact ends_pure ⟨[], .nil, rfl⟩
  | cons e es ih =>
    obtain ⟨he, hes⟩ := List.forall_mem_cons.1 h
    obtain ⟨hfirst, hothers⟩ := List.forall_mem_cons.1 htakes
    obtain ⟨hn, hns⟩ := List.append_subset.1 hnodes
    rw [resolveItems]
    apply he.bind
    intro r hr
    apply (ends_settle hfirst hn hr).bind
    intro t ht s
    have hrest := ih hes hothers hns t s
    split at hrest
    · obtain ⟨ts, hts, hlast⟩ := hrest
      refine ⟨t :: ts, .cons ht hts, ?_⟩
      rw [hlast, List.getLast?_cons, Option.getD_some]
    · exact hrest

theorem answerable (e : Expr) (hnodes : e.nodes ⊆ root.nodes) : Answerable schema root e := by
  -- an error of a part is passed on as it is; each case has to account for the errors of its node
  induction e with
  | literal m value => exact ends_conclude HasType.literal
  | field m name =>
    rw [Answerable, resolveNode]
    have hmem := hnodes (Expr.mem_nodes_self _)
    cases hfield : schema.get? name with
    | none => exact ends_throw ⟨_, hmem, rfl, .undeclared hfield⟩
    | some field => exact ends_conclude (HasType.field hfield)
  | binary m op l r ihl ihr =>
    have hmem := hnodes (Expr.mem_nodes_self _)
    obtain ⟨hoperands, -⟩ := List.append_subset.1 hnodes
    obtain ⟨hl, hr⟩ := List.append_subset.1 hoperands
    rw [Answerable, resolveNode]
    apply (ihl hl).bind
    intro a ha
    apply (ihr hr).bind
    intro b hb
    have hdisagree {i : Expr} (hi : i ∈ l.passed ++ r.passed) (h : Disagrees schema i) :
        Justified schema root ⟨.mismatch (.binary op), m.position⟩ :=
      ⟨_, hmem, rfl, .operandsDisagree ha.quiet.raisesNoError hb.quiet.raisesNoError hi h⟩
    cases a with
    | mixed p =>
      obtain ⟨-, i, hi, -⟩ := ha
      exact ends_throw (hdisagree (List.mem_append_left _ hi.1) hi.2.1)
    | known a =>
      cases b with
      | mixed p =>
        obtain ⟨-, i, hi, -⟩ := hb
        exact ends_throw (hdisagree (List.mem_append_right _ hi.1) hi.2.1)
      | known b =>
        cases hop : op.type? (l.isConstant || r.isConstant) a b with
        | some t =>
          simp only [hop]
          exact ends_conclude (HasType.binary ha hb (BinaryOp.type?_eq_some_iff.1 hop))
        | none =>
          simp only [hop]
          refine ends_throw ⟨_, hmem, rfl, .operands ha hb fun t ht => ?_⟩
          rw [BinaryOp.type?_eq_some_iff.2 ht] at hop
          cases hop
  | unary m op operand ih =>
    have hmem := hnodes (Expr.mem_nodes_self _)
    obtain ⟨hoperand, -⟩ := List.append_subset.1 hnodes
    rw [Answerable, resolveNode]
    apply (ih hoperand).bind
    intro r hr
    cases r with
    | mixed p =>
      obtain ⟨hquiet, i, hi, -⟩ := hr
      exact ends_throw ⟨_, hmem, rfl, .operandDisagrees hquiet.raisesNoError hi.1 hi.2.1⟩
    | known t =>
      dsimp only
      split
      · rename_i hfits
        exact ends_conclude (HasType.unary hr (ValueType.fits_iff.1 hfits))
      · rename_i hfits
        obtain ⟨hne, hnull⟩ := not_or.1 (mt ValueType.fits_iff.2 hfits)
        exact ends_throw ⟨_, hmem, rfl, .operand hr hne hnull⟩
  | group m inner ih =>
    obtain ⟨hinner, -⟩ := List.append_subset.1 hnodes
    rw [Answerable, resolveNode]
    apply (ih hinner).bind
    intro r hr
    apply ends_conclude
    cases r with
    | known t => exact .group hr
    | mixed p =>
      obtain ⟨hquiet, i, hi, hp⟩ := hr
      exact ⟨.group hquiet, i, hi.group, hp⟩
  | conditional m c y n ihc ihy ihn =>
    have hmem := hnodes (Expr.mem_nodes_self _)
    obtain ⟨hbranches, -⟩ := List.append_subset.1 hnodes
    obtain ⟨hcy, hn⟩ := List.append_subset.1 hbranches
    obtain ⟨hc, hy⟩ := List.append_subset.1 hcy
    -- the condition is taken by this node, the branches are not
    have htakes : root.Takes c := .inr ⟨_, hmem, List.mem_singleton_self _⟩
    rw [Answerable, resolveNode]
    apply (ihc hc).bind
    intro r hr
    apply (ends_settle htakes hc hr).bind
    intro t ht
    split
    · rename_i hfits
      apply (ihy hy).bind
      intro a ha
      apply (ihn hn).bind
      intro b hb
      exact ends_conclude (explained_merge ht (ValueType.fits_iff.1 hfits) ha hb)
    · rename_i hfits
      obtain ⟨hne, hnull⟩ := not_or.1 (mt ValueType.fits_iff.2 hfits)
      exact ends_throw ⟨_, hmem, rfl, .condition ht hne hnull⟩
  | call m name args ih =>
    have hmem := hnodes (Expr.mem_nodes_self _)
    obtain ⟨hargs, -⟩ := List.append_subset.1 hnodes
    have hall : ∀ e ∈ args, Answerable schema root e := fun e he =>
      ih e he fun _ hn => hargs (Expr.nodes_subset_nodesOf he hn)
    rw [Answerable, resolveNode]
    apply (ends_items hall (fun e he => .inr ⟨_, hmem, he⟩) hargs .null).bind
    rintro _ ⟨ts, hts, -⟩
    exact ends_conclude (HasType.call hts)
  | sequence m items ih =>
    have hmem := hnodes (Expr.mem_nodes_self _)
    obtain ⟨hitems, -⟩ := List.append_subset.1 hnodes
    have hall : ∀ e ∈ items, Answerable schema root e := fun e he =>
      ih e he fun _ hn => hitems (Expr.nodes_subset_nodesOf he hn)
    rw [Answerable, resolveNode]
    apply (ends_items hall (fun e he => .inr ⟨_, hmem, he⟩) hitems .null).bind
    rintro _ ⟨ts, hts, rfl⟩
    exact ends_conclude (HasType.sequence hts)

theorem blamed_node_at_fault (schema : Schema) (e : Expr) {s s' : TypeTable} {err : TypeError}
    (h : resolve schema e s = .error err s') :
    ∃ n ∈ e.nodes, n.position = err.position ∧ AtFault schema e err.cause n := by
  have hresolve : Ends (HasType schema e) (Justified schema e) (resolve schema e) :=
    (answerable e (List.Subset.refl _)).bind fun r hr =>
      ends_settle (.inl rfl) (List.Subset.refl _) hr
  have hs := hresolve s
  rw [h] at hs
  exact hs

/-- `LEN(IF(true, (IF(false, 1, "a")), IF(true, 2, "b")))` -/
theorem blamed_node_at_fault_nested :
    let boolean (id position : Nat) (b : Bool) : Expr := .literal ⟨id, position⟩ (.boolean b)
    let number (id position : Nat) (n : Fin 10) : Expr :=
      .literal ⟨id, position⟩ (.number (.ofDigit n))
    let text (id position : Nat) (s : String) : Expr := .literal ⟨id, position⟩ (.text s)
    let e : Expr := .call ⟨11, 0⟩ "LEN" [.conditional ⟨10, 4⟩ (boolean 0 7 true)
      (.group ⟨5, 13⟩ (.conditional ⟨4, 14⟩ (boolean 1 17 false) (number 2 24 1) (text 3 27 "a")))
      (.conditional ⟨9, 34⟩ (boolean 6 37 true) (number 7 43 2) (text 8 46 "b"))]
    ∃ table, resolve .empty e .empty = .error ⟨.mismatch .conditional, 14⟩ table ∧
      ∃ n ∈ e.nodes, n.position = 14 ∧ AtFault .empty e (.mismatch .conditional) n := by
  intro boolean number text e
  obtain ⟨table, h⟩ : ∃ table,
      resolve .empty e .empty = .error ⟨.mismatch .conditional, 14⟩ table := ⟨_, rfl⟩
  exact ⟨table, h, blamed_node_at_fault .empty e h⟩

end Typing
end FieldFormula
