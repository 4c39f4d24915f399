import FieldFormula.Proofs.Basic
import FieldFormula.Proofs.Expr.Grammar
import FieldFormula.Typing

/-!
The rules of types, stated node by node, and what the table of types holds. The rules give each
node a type by the types of the nodes below it and know nothing of errors or of conditionals whose
branches disagree. Main statement: typing succeeds exactly for the expressions whose nodes can be
given types by the rules, and the table then holds those types and nothing else
(`infer_iff_follows`).
-/
namespace FieldFormula

namespace ValueType

def Unify (a b u : ValueType) : Prop := a = .null ∧ u = b ∨ b = .null ∧ u = a ∨ a = b ∧ u = a

theorem unify?_eq_some_iff {a b u : ValueType} : a.unify? b = some u ↔ a.Unify b u := by
  unfold Unify
  cases a <;> cases b <;> simp [unify?, eq_comm]

theorem fits_iff {t expected : ValueType} :
    t.fits expected = true ↔ t = expected ∨ t = .null := by
  simp [fits]

end ValueType

inductive BinaryOp.Gives (constant : Bool) :
    BinaryOp → ValueType → ValueType → ValueType → Prop where
  | sum {l r : ValueType} : l.Unify r .number ∨ l.Unify r .null → Gives constant .add l r .number
  | join {l r : ValueType} : l.Unify r .string → Gives constant .add l r .string
  | spelled {l r : ValueType} : (∀ u, ¬ l.Unify r u) → l = .string ∨ r = .string →
      constant = true → Gives constant .add l r .string
  | arithmetic {op : BinaryOp} {l r : ValueType} :
      op ∈ [.subtract, .multiply, .divide, .modulo, .power] → l = .number ∨ l = .null →
      r = .number ∨ r = .null → Gives constant op l r .number
  | equality {op : BinaryOp} {l r : ValueType} :
      op ∈ [.equal, .notEqual] → Gives constant op l r .boolean
  | order {op : BinaryOp} {l r u : ValueType} :
      op ∈ [.less, .greater, .lessEqual, .greaterEqual] → l.Unify r u →
      u ∈ [.number, .date, .null] → Gives constant op l r .boolean
  | logic {op : BinaryOp} {l r : ValueType} :
      op ∈ [.and, .or] → l = .boolean ∨ l = .null → r = .boolean ∨ r = .null →
      Gives constant op l r .boolean
  | concat {l r : ValueType} : Gives constant .concat l r .string

namespace BinaryOp
variable {constant : Bool} {op : BinaryOp} {l r t : ValueType}

theorem Gives.type? (h : op.Gives constant l r t) : op.type? constant l r = some t := by
  cases h with
  | sum hu =>
    rcases hu with hu | hu <;> simp [BinaryOp.type?, ValueType.unify?_eq_some_iff.2 hu]
  | join hu => simp [BinaryOp.type?, ValueType.unify?_eq_some_iff.2 hu]
  | spelled hn hs hc =>
    have hnone : l.unify? r = none :=
      Option.eq_none_iff_forall_ne_some.2 fun u hu => hn u (ValueType.unify?_eq_some_iff.1 hu)
    simp [BinaryOp.type?, hnone, hs, hc]
  | arithmetic hop hl hr =>
    simp only [List.mem_cons, List.not_mem_nil, or_false] at hop
    rcases hop with rfl | rfl | rfl | rfl | rfl <;>
      simp [BinaryOp.type?, ValueType.fits_iff.2 hl, ValueType.fits_iff.2 hr]
  | equality hop =>
    simp only [List.mem_cons, List.not_mem_nil, or_false] at hop
    rcases hop with rfl | rfl <;> rfl
  | order hop hu ht =>
    simp only [List.mem_cons, List.not_mem_nil, or_false] at hop ht
    rcases hop with rfl | rfl | rfl | rfl <;> rcases ht with rfl | rfl | rfl <;>
      simp [BinaryOp.type?, ValueType.unify?_eq_some_iff.2 hu]
  | logic hop hl hr =>
    simp only [List.mem_cons, List.not_mem_nil, or_false] at hop
    rcases hop with rfl | rfl <;>
      simp [BinaryOp.type?, ValueType.fits_iff.2 hl, ValueType.fits_iff.2 hr]
  | concat => rfl

theorem gives_add (h : BinaryOp.add.type? constant l r = some t) :
    BinaryOp.add.Gives constant l r t := by
  cases hu : l.unify? r with
  | none =>
    have hn : ∀ u, ¬ l.Unify r u := fun u h => by
      rw [ValueType.unify?_eq_some_iff.2 h] at hu
      cases hu
    simp only [BinaryOp.type?, hu, Option.ite_none_right_eq_some, Bool.and_eq_true, Bool.or_eq_true,
      beq_iff_eq, Option.some.injEq] at h
    obtain ⟨⟨hs, hc⟩, rfl⟩ := h
    exact .spelled hn hs hc
  | some u =>
    have hunify := ValueType.unify?_eq_some_iff.1 hu
    cases u with
    | number =>
      simp only [BinaryOp.type?, hu, Option.some.injEq] at h
      subst h
      exact .sum (.inl hunify)
    | null =>
      simp only [BinaryOp.type?, hu, Option.some.injEq] at h
      subst h
      exact .sum (.inr hunify)
    | string =>
      simp only [BinaryOp.type?, hu, Option.some.injEq] at h
      subst h
      exact .join hunify
    | date | boolean => simp [BinaryOp.type?, hu] at h

theorem unify_of_order (hop : op ∈ [.less, .greater, .lessEqual, .greaterEqual])
    (h : op.type? constant l r = some t) :
    ∃ u, l.Unify r u ∧ u ∈ [ValueType.number, .date, .null] ∧ t = .boolean := by
  simp only [List.mem_cons, List.not_mem_nil, or_false] at hop
  cases hu : l.unify? r with
  | none => rcases hop with rfl | rfl | rfl | rfl <;> simp [type?, hu] at h
  | some u =>
    refine ⟨u, ValueType.unify?_eq_some_iff.1 hu, ?_⟩
    rcases hop with rfl | rfl | rfl | rfl <;> cases u <;> simp [type?, hu] at h ⊢ <;> exact h.symm

theorem type?_eq_some_iff : op.type? constant l r = some t ↔ op.Gives constant l r t := by
  refine ⟨fun h => ?_, Gives.type?⟩
  cases op with
  | add => exact gives_add h
  | subtract | multiply | divide | modulo | power =>
    simp only [type?, Option.ite_none_right_eq_some, Bool.and_eq_true, ValueType.fits_iff,
      Option.some.injEq] at h
    obtain ⟨⟨hl, hr⟩, rfl⟩ := h
    exact .arithmetic (by simp) hl hr
  | equal | notEqual =>
    cases h
    exact .equality (by simp)
  | less | greater | lessEqual | greaterEqual =>
    obtain ⟨u, hu, hmem, rfl⟩ := unify_of_order (by simp) h
    exact .order (by simp) hu hmem
  | and | or =>
    simp only [type?, Option.ite_none_right_eq_some, Bool.and_eq_true, ValueType.fits_iff,
      Option.some.injEq] at h
    obtain ⟨⟨hl, hr⟩, rfl⟩ := h
    exact .logic (by simp) hl hr
  | concat =>
    cases h
    exact .concat

end BinaryOp

namespace Typing

/-- The node has its type by the types of the nodes below it, where `τ` gives the type of a node by
its number. -/
def Follows (schema : Schema) (τ : Nat → ValueType) : Expr → Prop
  | .literal m value => τ m.id = value.type
  | .field m name => (schema.get? name).map Field.type = some (τ m.id)
  | .binary m op l r => op.Gives (l.isConstant || r.isConstant) (τ l.id) (τ r.id) (τ m.id)
  | .unary m op e => (τ e.id = op.type ∨ τ e.id = .null) ∧ τ m.id = op.type
  | .group m e => τ m.id = τ e.id
  | .conditional m c y n =>
    (τ c.id = .boolean ∨ τ c.id = .null) ∧ (τ y.id).Unify (τ n.id) (τ m.id)
  | .call m name _ => τ m.id = (Builtin.find? name).elim .null Builtin.returns
  | .sequence m items => τ m.id = (items.getLast?.map fun e => τ e.id).getD .null

variable {schema : Schema} {m : Mark} {t : ValueType} {s s' : TypeTable}

attribute [local simp] resolveNode resolveItems

theorem conclude_eq_known {r : Resolved} :
    conclude m r s = .ok (.known t) s' ↔ r = .known t ∧ s' = s.record m.id t := by
  cases r with
  | known u =>
    constructor
    · rintro ⟨⟩
      exact ⟨rfl, rfl⟩
    · rintro ⟨⟨⟩, rfl⟩
      rfl
  | mixed _ => exact ⟨fun h => (nomatch h), fun h => (nomatch h.1)⟩

theorem settle_eq_ok {r : Resolved} : settle r s = .ok t s' ↔ r = .known t ∧ s' = s := by
  cases r with
  | known u =>
    constructor
    · rintro ⟨⟩
      exact ⟨rfl, rfl⟩
    · rintro ⟨⟨⟩, rfl⟩
      rfl
  | mixed _ => exact ⟨fun h => (nomatch h), fun h => (nomatch h.1)⟩

theorem merge_eq_known {position : Nat} {a b : Resolved} :
    merge position a b = .known t ↔
      ∃ u v, a = .known u ∧ b = .known v ∧ u.unify? v = some t := by
  cases a with
  | mixed _ => simp [merge]
  | known u =>
    cases b with
    | mixed _ => simp [merge]
    | known v =>
      cases hu : u.unify? v with
      | none => simp [merge, hu]
      | some w => simp [merge, hu]

theorem field_eq_known {name : String} :
    resolveNode schema (.field m name) s = .ok (.known t) s' ↔
      (schema.get? name).map Field.type = some t ∧ s' = s.record m.id t := by
  rw [resolveNode]
  cases schema.get? name with
  | none => exact ⟨fun h => (nomatch h), fun h => (nomatch h.1)⟩
  | some field => rw [conclude_eq_known, Resolved.known.injEq, Option.map_some, Option.some.injEq]

theorem binary_eq_known {op : BinaryOp} {l r : Expr} :
    resolveNode schema (.binary m op l r) s = .ok (.known t) s' ↔
      ∃ a s₁ b s₂, resolveNode schema l s = .ok (.known a) s₁ ∧
        resolveNode schema r s₁ = .ok (.known b) s₂ ∧
        op.Gives (l.isConstant || r.isConstant) a b t ∧ s' = s₂.record m.id t := by
  rw [resolveNode, bind_eq_ok]
  simp only [bind_eq_ok, ← BinaryOp.type?_eq_some_iff]
  constructor
  · rintro ⟨a, s₁, ha, b, s₂, hb, h⟩
    cases a with
    | mixed _ => cases h
    | known a =>
      cases b with
      | mixed _ => cases h
      | known b =>
        cases hu : op.type? (l.isConstant || r.isConstant) a b with
        | none =>
          simp only [hu] at h
          cases h
        | some u =>
          simp only [hu, conclude_eq_known, Resolved.known.injEq] at h
          obtain ⟨rfl, rfl⟩ := h
          exact ⟨a, s₁, b, s₂, ha, hb, hu, rfl⟩
  · rintro ⟨a, s₁, b, s₂, ha, hb, hu, rfl⟩
    refine ⟨.known a, s₁, ha, .known b, s₂, hb, ?_⟩
    simp only [hu]
    exact conclude_eq_known.2 ⟨rfl, rfl⟩

theorem unary_eq_known {op : UnaryOp} {e : Expr} :
    resolveNode schema (.unary m op e) s = .ok (.known t) s' ↔
      ∃ a s₁, resolveNode schema e s = .ok (.known a) s₁ ∧ (a = op.type ∨ a = .null) ∧
        t = op.type ∧ s' = s₁.record m.id t := by
  rw [resolveNode, bind_eq_ok]
  simp only [← ValueType.fits_iff]
  constructor
  · rintro ⟨a, s₁, ha, h⟩
    cases a with
    | mixed _ => cases h
    | known a =>
      dsimp only at h
      split at h
      · rename_i hfits
        rw [conclude_eq_known, Resolved.known.injEq] at h
        obtain ⟨rfl, rfl⟩ := h
        exact ⟨a, s₁, ha, hfits, rfl, rfl⟩
      · cases h
  · rintro ⟨a, s₁, ha, hfits, rfl, rfl⟩
    refine ⟨.known a, s₁, ha, ?_⟩
    simp only [hfits, if_true]
    exact conclude_eq_known.2 ⟨rfl, rfl⟩

theorem group_eq_known {e : Expr} :
    resolveNode schema (.group m e) s = .ok (.known t) s' ↔
      ∃ s₁, resolveNode schema e s = .ok (.known t) s₁ ∧ s' = s₁.record m.id t := by
  rw [resolveNode, bind_eq_ok]
  simp only [conclude_eq_known]
  constructor
  · rintro ⟨_, s₁, he, rfl, rfl⟩
    exact ⟨s₁, he, rfl⟩
  · rintro ⟨s₁, he, rfl⟩
    exact ⟨_, s₁, he, rfl, rfl⟩

theorem conditional_eq_known {c y n : Expr} :
    resolveNode schema (.conditional m c y n) s = .ok (.known t) s' ↔
      ∃ a s₁ b s₂ d s₃, resolveNode schema c s = .ok (.known a) s₁ ∧
        resolveNode schema y s₁ = .ok (.known b) s₂ ∧
        resolveNode schema n s₂ = .ok (.known d) s₃ ∧ (a = .boolean ∨ a = .null) ∧
        b.Unify d t ∧ s' = s₃.record m.id t := by
  rw [resolveNode, bind_eq_ok]
  simp only [bind_eq_ok, settle_eq_ok, ← ValueType.fits_iff, ← ValueType.unify?_eq_some_iff]
  constructor
  · rintro ⟨_, s₁, hc, a, _, ⟨rfl, rfl⟩, h⟩
    split at h
    · rename_i hfits
      simp only [bind_eq_ok, conclude_eq_known, merge_eq_known] at h
      obtain ⟨_, s₂, hy, _, s₃, hn, ⟨b, d, rfl, rfl, hu⟩, rfl⟩ := h
      exact ⟨a, _, b, s₂, d, s₃, hc, hy, hn, hfits, hu, rfl⟩
    · cases h
  · rintro ⟨a, s₁, b, s₂, d, s₃, hc, hy, hn, hfits, hu, rfl⟩
    refine ⟨_, s₁, hc, a, s₁, ⟨rfl, rfl⟩, ?_⟩
    simp only [hfits, if_true, bind_eq_ok, conclude_eq_known, merge_eq_known]
    exact ⟨_, s₂, hy, _, s₃, hn, ⟨b, d, rfl, rfl, hu⟩, rfl⟩

theorem call_eq_known {name : String} {args : List Expr} :
    resolveNode schema (.call m name args) s = .ok (.known t) s' ↔
      ∃ a s₁, resolveItems schema .null args s = .ok a s₁ ∧
        (Builtin.find? name).elim .null Builtin.returns = t ∧ s' = s₁.record m.id t := by
  rw [resolveNode, bind_eq_ok]
  simp only [conclude_eq_known, Resolved.known.injEq]

theorem sequence_eq_known {items : List Expr} :
    resolveNode schema (.sequence m items) s = .ok (.known t) s' ↔
      ∃ s₁, resolveItems schema .null items s = .ok t s₁ ∧ s' = s₁.record m.id t := by
  rw [resolveNode, bind_eq_ok]
  simp only [conclude_eq_known, Resolved.known.injEq]
  constructor
  · rintro ⟨_, s₁, hitems, rfl, rfl⟩
    exact ⟨s₁, hitems, rfl⟩
  · rintro ⟨s₁, hitems, rfl⟩
    exact ⟨t, s₁, hitems, rfl, rfl⟩

theorem items_eq_ok {last : ValueType} {e : Expr} {es : List Expr} :
    resolveItems schema last (e :: es) s = .ok t s' ↔
      ∃ a s₁, resolveNode schema e s = .ok (.known a) s₁ ∧
        resolveItems schema a es s₁ = .ok t s' := by
  rw [resolveItems, bind_eq_ok]
  simp only [bind_eq_ok, settle_eq_ok]
  constructor
  · rintro ⟨_, s₁, he, a, _, ⟨rfl, rfl⟩, hes⟩
    exact ⟨a, _, he, hes⟩
  · rintro ⟨a, s₁, he, hes⟩
    exact ⟨_, s₁, he, a, s₁, ⟨rfl, rfl⟩, hes⟩

/-- From `s` to `s'` one entry is made for each of the nodes, in order, and `P` holds of all types
that agree with the entries. -/
def Records (P : (Nat → ValueType) → Prop) (nodes : List Expr) (s s' : TypeTable) : Prop :=
  ∃ entries : List (Nat × ValueType), s'.entries = entries.reverse ++ s.entries ∧
    entries.map Prod.fst = nodes.map Expr.id ∧ ∀ τ, (∀ x ∈ entries, τ x.1 = x.2) → P τ

section Records
variable {P Q : (Nat → ValueType) → Prop} {nodes others : List Expr} {s'' : TypeTable}

theorem Records.imp (h : Records P nodes s s') (hPQ : ∀ τ, P τ → Q τ) : Records Q nodes s s' := by
  obtain ⟨entries, hs, hids, hP⟩ := h
  exact ⟨entries, hs, hids, fun τ hτ => hPQ τ (hP τ hτ)⟩

theorem Records.trans (h : Records P nodes s s') (h' : Records Q others s' s'') :
    Records (fun τ => P τ ∧ Q τ) (nodes ++ others) s s'' := by
  obtain ⟨entries, hs, hids, hP⟩ := h
  obtain ⟨entries', hs', hids', hQ⟩ := h'
  refine ⟨entries ++ entries', ?_, ?_, fun τ hτ => ?_⟩
  · rw [hs', hs, List.reverse_append, List.append_assoc]
  · rw [List.map_append, List.map_append, hids, hids']
  · obtain ⟨hentries, hentries'⟩ := List.forall_mem_append.1 hτ
    exact ⟨hP τ hentries, hQ τ hentries'⟩

theorem records_nil (s : TypeTable) : Records (fun _ => True) [] s s :=
  ⟨[], rfl, rfl, fun _ _ => trivial⟩

theorem records_record (e : Expr) (t : ValueType) (s : TypeTable) :
    Records (fun τ => τ e.id = t) [e] s (s.record e.id t) :=
  ⟨[(e.id, t)], rfl, rfl, fun _ hτ => hτ _ (List.mem_singleton_self _)⟩

end Records

def Typed (schema : Schema) (e : Expr) : Prop :=
  ∀ t s s', resolveNode schema e s = .ok (.known t) s' →
    Records (fun τ => e.All (Follows schema τ) ∧ τ e.id = t) e.nodes s s'

theorem records_items {es : List Expr} (h : ∀ e ∈ es, Typed schema e) {last : ValueType}
    (hes : resolveItems schema last es s = .ok t s') :
    Records (fun τ => (∀ e ∈ es, e.All (Follows schema τ)) ∧
      t = (es.getLast?.map fun e => τ e.id).getD last) (Expr.nodesOf es) s s' := by
  induction es generalizing last s with
  | nil =>
    cases hes
    exact (records_nil _).imp fun τ _ => ⟨List.forall_mem_nil _, rfl⟩
  | cons e es ih =>
    obtain ⟨he, hothers⟩ := List.forall_mem_cons.1 h
    obtain ⟨a, s₁, hnode, hitems⟩ := items_eq_ok.1 hes
    refine ((he a s s₁ hnode).trans (ih hothers hitems)).imp ?_
    rintro τ ⟨⟨hfollows, rfl⟩, hall, hlast⟩
    refine ⟨List.forall_mem_cons.2 ⟨hfollows, hall⟩, ?_⟩
    rw [hlast, List.getLast?_cons]
    cases es.getLast? <;> rfl

theorem typed (e : Expr) : Typed schema e := by
  induction e with
  | literal m value =>
    intro t s s' h
    obtain ⟨hvalue, rfl⟩ := conclude_eq_known.1 h
    refine (records_record (.literal m value) t s).imp fun τ hτ => ⟨Expr.all_literal.2 ?_, hτ⟩
    exact hτ.trans (Resolved.known.inj hvalue).symm
  | field m name =>
    intro t s s' h
    obtain ⟨hfield, rfl⟩ := field_eq_known.1 h
    refine (records_record (.field m name) t s).imp fun τ hτ => ⟨Expr.all_field.2 ?_, hτ⟩
    exact hfield.trans (congrArg some hτ.symm)
  | binary m op l r ihl ihr =>
    intro t s s' h
    obtain ⟨a, s₁, b, s₂, hl, hr, hop, rfl⟩ := binary_eq_known.1 h
    refine (((ihl a s s₁ hl).trans (ihr b s₁ s₂ hr)).trans
      (records_record (.binary m op l r) t s₂)).imp ?_
    rintro τ ⟨⟨⟨hal, rfl⟩, har, rfl⟩, rfl⟩
    exact ⟨Expr.all_binary.2 ⟨hal, har, hop⟩, rfl⟩
  | unary m op e ih =>
    intro t s s' h
    obtain ⟨a, s₁, he, hfits, ht, rfl⟩ := unary_eq_known.1 h
    refine ((ih a s s₁ he).trans (records_record (.unary m op e) t s₁)).imp ?_
    rintro τ ⟨⟨hall, rfl⟩, rfl⟩
    exact ⟨Expr.all_unary.2 ⟨hall, hfits, ht⟩, rfl⟩
  | group m e ih =>
    intro t s s' h
    obtain ⟨s₁, he, rfl⟩ := group_eq_known.1 h
    refine ((ih t s s₁ he).trans (records_record (.group m e) t s₁)).imp ?_
    rintro τ ⟨⟨hall, ht⟩, rfl⟩
    exact ⟨Expr.all_group.2 ⟨hall, ht.symm⟩, rfl⟩
  | conditional m c y n ihc ihy ihn =>
    intro t s s' h
    obtain ⟨a, s₁, b, s₂, d, s₃, hc, hy, hn, hfits, hu, rfl⟩ := conditional_eq_known.1 h
    refine ((((ihc a s s₁ hc).trans (ihy b s₁ s₂ hy)).trans (ihn d s₂ s₃ hn)).trans
      (records_record (.conditional m c y n) t s₃)).imp ?_
    rintro τ ⟨⟨⟨⟨hac, rfl⟩, hay, rfl⟩, han, rfl⟩, rfl⟩
    exact ⟨Expr.all_conditional.2 ⟨hac, hay, han, hfits, hu⟩, rfl⟩
  | call m name args ih =>
    intro t s s' h
    obtain ⟨a, s₁, hargs, ht, rfl⟩ := call_eq_known.1 h
    refine ((records_items ih hargs).trans (records_record (.call m name args) t s₁)).imp ?_
    rintro τ ⟨⟨hall, -⟩, rfl⟩
    exact ⟨Expr.all_call.2 ⟨hall, ht.symm⟩, rfl⟩
  | sequence m items ih =>
    intro t s s' h
    obtain ⟨s₁, hitems, rfl⟩ := sequence_eq_known.1 h
    refine ((records_items ih hitems).trans (records_record (.sequence m items) t s₁)).imp ?_
    rintro τ ⟨⟨hall, ht⟩, rfl⟩
    exact ⟨Expr.all_sequence.2 ⟨hall, ht⟩, rfl⟩

def assigned (τ : Nat → ValueType) (nodes : List Expr) (s : TypeTable) : TypeTable :=
  nodes.foldl (fun s n => s.record n.id (τ n.id)) s

theorem items_of_follows {τ : Nat → ValueType} {es : List Expr}
    (h : ∀ e ∈ es, ∀ s, resolveNode schema e s = .ok (.known (τ e.id)) (assigned τ e.nodes s))
    (last : ValueType) (s : TypeTable) :
    resolveItems schema last es s =
      .ok ((es.getLast?.map fun e => τ e.id).getD last) (assigned τ (Expr.nodesOf es) s) := by
  induction es generalizing last s with
  | nil => rfl
  | cons e es ih =>
    obtain ⟨he, hes⟩ := List.forall_mem_cons.1 h
    refine items_eq_ok.2 ⟨_, _, he s, ?_⟩
    rw [ih hes, Expr.nodesOf, assigned, assigned, assigned, List.foldl_append, List.getLast?_cons]
    cases es.getLast? <;> rfl

theorem resolveNode_of_follows {τ : Nat → ValueType} {e : Expr} (h : e.All (Follows schema τ))
    (s : TypeTable) :
    resolveNode schema e s = .ok (.known (τ e.id)) (assigned τ e.nodes s) := by
  induction e generalizing s with
  | literal m value =>
    have hvalue : τ m.id = value.type := h.root
    exact conclude_eq_known.2 ⟨congrArg Resolved.known hvalue.symm, rfl⟩
  | field m name => exact field_eq_known.2 ⟨h.root, rfl⟩
  | binary m op l r ihl ihr =>
    obtain ⟨hl, hr, hop⟩ := Expr.all_binary.1 h
    refine binary_eq_known.2 ⟨_, _, _, _, ihl hl s, ihr hr _, hop, ?_⟩
    simp only [assigned, Expr.nodes, List.foldl_append]
    rfl
  | unary m op e ih =>
    obtain ⟨he, hfits, ht⟩ := Expr.all_unary.1 h
    refine unary_eq_known.2 ⟨_, _, ih he s, hfits, ht, ?_⟩
    simp only [assigned, Expr.nodes, List.foldl_append]
    rfl
  | group m e ih =>
    obtain ⟨he, ht⟩ := Expr.all_group.1 h
    have hid : τ (Expr.group m e).id = τ e.id := ht
    refine group_eq_known.2 ⟨_, hid ▸ ih he s, ?_⟩
    simp only [assigned, Expr.nodes, List.foldl_append]
    rfl
  | conditional m c y n ihc ihy ihn =>
    obtain ⟨hc, hy, hn, hfits, hu⟩ := Expr.all_conditional.1 h
    refine conditional_eq_known.2
      ⟨_, _, _, _, _, _, ihc hc s, ihy hy _, ihn hn _, hfits, hu, ?_⟩
    simp only [assigned, Expr.nodes, List.foldl_append]
    rfl
  | call m name args ih =>
    obtain ⟨hargs, ht⟩ := Expr.all_call.1 h
    have hitems := items_of_follows (fun e he => ih e he (hargs e he)) .null s
    refine call_eq_known.2 ⟨_, _, hitems, ht.symm, ?_⟩
    simp only [assigned, Expr.nodes, List.foldl_append]
    rfl
  | sequence m items ih =>
    obtain ⟨hall, ht⟩ := Expr.all_sequence.1 h
    have hitems := items_of_follows (fun e he => ih e he (hall e he)) .null s
    have hid : τ (Expr.sequence m items).id = (items.getLast?.map fun e => τ e.id).getD .null := ht
    refine sequence_eq_known.2 ⟨_, hid ▸ hitems, ?_⟩
    simp only [assigned, Expr.nodes, List.foldl_append]
    rfl

theorem get?_record (s : TypeTable) (id : Nat) (t : ValueType) (other : Nat) :
    (s.record id t).get? other = if other = id then some t else s.get? other := by
  rw [TypeTable.get?, TypeTable.record, List.lookup_cons]
  by_cases h : other = id
  · simp [h]
  · rw [beq_eq_false_iff_ne.2 h, if_neg h, TypeTable.get?]

theorem get?_assigned (τ : Nat → ValueType) (nodes : List Expr) (s : TypeTable) (id : Nat) :
    (assigned τ nodes s).get? id = if id ∈ nodes.map Expr.id then some (τ id) else s.get? id := by
  induction nodes generalizing s with
  | nil => simp [assigned]
  | cons n nodes ih =>
    have hstep : assigned τ (n :: nodes) s = assigned τ nodes (s.record n.id (τ n.id)) := rfl
    rw [hstep, ih, get?_record, List.map_cons]
    by_cases hid : id = n.id
    · subst hid
      simp
    · simp [hid]

theorem infer_eq_ok {e : Expr} {table : TypeTable} :
    infer schema e = .ok (t, table) ↔ resolveNode schema e .empty = .ok (.known t) table := by
  have hresolve : resolve schema e .empty = .ok t table ↔
      resolveNode schema e .empty = .ok (.known t) table := by
    rw [resolve, bind_eq_ok]
    simp only [settle_eq_ok]
    constructor
    · rintro ⟨_, s₁, he, rfl, rfl⟩
      exact he
    · exact fun he => ⟨_, _, he, rfl, rfl⟩
  rw [← hresolve, infer]
  cases resolve schema e .empty with
  | ok u last => simp
  | error err last => simp

theorem exists_agreeing {entries : List (Nat × ValueType)} (h : (entries.map Prod.fst).Nodup) :
    ∃ τ : Nat → ValueType, ∀ x ∈ entries, τ x.1 = x.2 := by
  induction entries with
  | nil => exact ⟨fun _ => .null, List.forall_mem_nil _⟩
  | cons x entries ih =>
    obtain ⟨hx, hentries⟩ := List.nodup_cons.1 h
    obtain ⟨τ, hτ⟩ := ih hentries
    refine ⟨fun id => if id = x.1 then x.2 else τ id, List.forall_mem_cons.2 ⟨if_pos rfl, ?_⟩⟩
    intro y hy
    have hne : y.1 ≠ x.1 := fun heq => hx (heq ▸ List.mem_map_of_mem hy)
    exact (if_neg hne).trans (hτ y hy)

theorem assigned_of_infer {e : Expr} (hids : (e.nodes.map Expr.id).Nodup) {table : TypeTable}
    (h : infer schema e = .ok (t, table)) :
    ∃ τ, e.All (Follows schema τ) ∧ t = τ e.id ∧ table = assigned τ e.nodes .empty := by
  obtain ⟨entries, -, hentries, hfollows⟩ := typed e t .empty table (infer_eq_ok.1 h)
  obtain ⟨τ, hτ⟩ := exists_agreeing (hentries ▸ hids)
  obtain ⟨hall, rfl⟩ := hfollows τ hτ
  have htable := infer_eq_ok.1 h
  rw [resolveNode_of_follows hall] at htable
  cases htable
  exact ⟨τ, hall, rfl, rfl⟩

theorem follows_of_infer {e : Expr} (hids : (e.nodes.map Expr.id).Nodup) {table : TypeTable}
    (h : infer schema e = .ok (t, table)) :
    ∃ τ, e.All (Follows schema τ) ∧ ∀ n ∈ e.nodes, table.typeOf n = τ n.id := by
  obtain ⟨τ, hall, -, rfl⟩ := assigned_of_infer hids h
  refine ⟨τ, hall, fun n hn => ?_⟩
  rw [TypeTable.typeOf, get?_assigned, if_pos (List.mem_map_of_mem hn)]
  rfl

/-- An expression whose nodes are numbered differently is typed exactly when its nodes can be given
types by the rules. The types are then those of the table, which has no others. -/
theorem infer_iff_follows (schema : Schema) {e : Expr} (hids : (e.nodes.map Expr.id).Nodup) :
    ((∃ t table, infer schema e = .ok (t, table)) ↔ ∃ τ, e.All (Follows schema τ)) ∧
    ∀ t table, infer schema e = .ok (t, table) → ∀ τ, e.All (Follows schema τ) →
      t = τ e.id ∧
        ∀ id, table.get? id = if id ∈ e.nodes.map Expr.id then some (τ id) else none := by
  have hcomplete {τ : Nat → ValueType} (h : e.All (Follows schema τ)) :
      infer schema e = .ok (τ e.id, assigned τ e.nodes .empty) :=
    infer_eq_ok.2 (resolveNode_of_follows h .empty)
  refine ⟨⟨?_, fun ⟨τ, h⟩ => ⟨_, _, hcomplete h⟩⟩, ?_⟩
  · rintro ⟨t, table, h⟩
    obtain ⟨entries, -, hentries, hfollows⟩ := typed e t .empty table (infer_eq_ok.1 h)
    obtain ⟨τ, hτ⟩ := exists_agreeing (hentries ▸ hids)
    exact ⟨τ, (hfollows τ hτ).1⟩
  · intro t table h τ hτ
    obtain ⟨rfl, rfl⟩ := Prod.mk.inj (Except.ok.inj (h.symm.trans (hcomplete hτ)))
    exact ⟨rfl, get?_assigned τ e.nodes .empty⟩

/-- `IF([a] > 1, "x" + 1, (null)) & ABS(-2)` -/
theorem infer_iff_follows_conditional :
    let number (id : Nat) (n : Fin 10) : Expr := .literal ⟨id, 0⟩ (.number (.ofDigit n))
    let schema : Schema := ⟨[("a", ⟨"a", .number⟩)], by decide⟩
    let e : Expr := .binary ⟨12, 0⟩ .concat
      (.conditional ⟨8, 0⟩ (.binary ⟨2, 0⟩ .greater (.field ⟨0, 0⟩ "a") (number 1 1))
        (.binary ⟨5, 0⟩ .add (.literal ⟨3, 0⟩ (.text "x")) (number 4 1))
        (.group ⟨7, 0⟩ (.literal ⟨6, 0⟩ .null)))
      (.call ⟨11, 0⟩ "ABS" [.unary ⟨10, 0⟩ .negate (number 9 2)])
    (e.nodes.map Expr.id).Nodup ∧ ∃ τ table, infer schema e = .ok (.string, table) ∧
      e.All (Follows schema τ) ∧
      ∀ id, table.get? id = if id ∈ e.nodes.map Expr.id then some (τ id) else none := by
  intro number schema e
  have hids : (e.nodes.map Expr.id).Nodup := by decide +kernel
  obtain ⟨table, h⟩ : ∃ table, infer schema e = .ok (.string, table) := ⟨_, rfl⟩
  obtain ⟨hiff, htable⟩ := infer_iff_follows schema hids
  obtain ⟨τ, hτ⟩ := hiff.1 ⟨_, table, h⟩
  exact ⟨hids, τ, table, h, hτ, (htable _ table h τ hτ).2⟩

end Typing
end FieldFormula
