import FieldFormula.Proofs.Parser.Positions
import FieldFormula.Proofs.Typing.Rules

/-!
What typing leaves behind, whether it succeeds or fails. Main statement: each node is entered at
most once, children first, and an error is blamed on a node of the expression
(`accountable_resolve`).
-/
namespace FieldFormula

namespace TypeError

def Culprit.kind : Culprit → Token.Kind
  | binary op => .operator op
  | unary .negate => .operator .subtract
  | unary .not => .bang
  | conditional => .conditional

def Cause.kind : Cause → Token.Kind
  | mismatch culprit => culprit.kind
  | unknownField name => .field name

def BlamedOn (nodes : List Expr) (err : TypeError) : Prop :=
  ∃ n ∈ nodes, n.position = err.position ∧ n.ownKind? = some err.cause.kind

end TypeError

namespace Typing

def Entered (nodes : List Expr) (s s' : TypeTable) : Prop :=
  ∃ new : List (Nat × ValueType), s'.entries = new.reverse ++ s.entries ∧
    (new.map Prod.fst).Sublist (nodes.map Expr.id)

theorem Entered.refl (nodes : List Expr) (s : TypeTable) : Entered nodes s s :=
  ⟨[], rfl, List.nil_sublist _⟩

theorem Entered.append {nodes others : List Expr} {s s' s'' : TypeTable}
    (h : Entered nodes s s') (h' : Entered others s' s'') : Entered (nodes ++ others) s s'' := by
  obtain ⟨new, hs, hids⟩ := h
  obtain ⟨new', hs', hids'⟩ := h'
  refine ⟨new ++ new', ?_, ?_⟩
  · rw [hs', hs, List.reverse_append, List.append_assoc]
  · rw [List.map_append, List.map_append]
    exact hids.append hids'

def Resolved.SettledBy (all : List Expr) : Resolved → Prop
  | known _ => True
  | mixed position => ∃ n ∈ all, n.position = position ∧ n.ownKind? = some .conditional

/-- The step makes entries for `nodes` only and blames an error on one of `all`; what it gives
satisfies `R`. -/
def Accountable {α : Type} (all nodes : List Expr) (R : α → Prop) (m : TypeM α) : Prop :=
  ∀ s, match m s with
    | .ok a s' => R a ∧ Entered nodes s s'
    | .error err s' => err.BlamedOn all ∧ Entered nodes s s'

section
variable {α β : Type} {all nodes others : List Expr} {R : α → Prop} {Q : β → Prop}

theorem accountable_pure {a : α} (h : R a) : Accountable all [] R (pure a) :=
  fun s => ⟨h, .refl [] s⟩

theorem Accountable.bind {m : TypeM α} {f : α → TypeM β} (hm : Accountable all nodes R m)
    (hf : ∀ a, R a → Accountable all others Q (f a)) :
    Accountable all (nodes ++ others) Q (m >>= f) := by
  intro s
  have hs := hm s
  simp only [Bind.bind, EStateM.bind]
  cases hq : m s with
  | ok a s₁ =>
    rw [hq] at hs
    obtain ⟨ha, hentered⟩ := hs
    have hnext := hf a ha s₁
    dsimp only
    cases hr : f a s₁ with
    | ok b s₂ =>
      rw [hr] at hnext
      exact ⟨hnext.1, hentered.append hnext.2⟩
    | error err s₂ =>
      rw [hr] at hnext
      exact ⟨hnext.1, hentered.append hnext.2⟩
  | error err s₁ =>
    rw [hq] at hs
    refine ⟨hs.1, ?_⟩
    have hentered := hs.2.append (.refl others s₁)
    exact hentered

theorem accountable_throw {n : Expr} {err : TypeError} (hn : n ∈ all)
    (hposition : n.position = err.position) (hkind : n.ownKind? = some err.cause.kind) :
    Accountable all nodes R (throw err) :=
  fun s => ⟨⟨n, hn, hposition, hkind⟩, .refl nodes s⟩

theorem accountable_conclude (n : Expr) {r : Resolved} (h : r.SettledBy all) :
    Accountable all [n] (Resolved.SettledBy all) (conclude n.mark r) := by
  intro s
  cases r with
  | known t => exact ⟨trivial, [(n.id, t)], rfl, List.Sublist.refl _⟩
  | mixed position => exact ⟨h, .refl [n] s⟩

theorem accountable_settle {r : Resolved} (h : r.SettledBy all) :
    Accountable all [] (fun _ => True) (settle r) := by
  intro s
  cases r with
  | known t => exact ⟨trivial, .refl [] s⟩
  | mixed position =>
    obtain ⟨n, hn, hposition, hkind⟩ := h
    exact ⟨⟨n, hn, hposition, hkind⟩, .refl [] s⟩

theorem settledBy_merge {n : Expr} {a b : Resolved} (hn : n ∈ all)
    (hkind : n.ownKind? = some .conditional) (ha : a.SettledBy all) (hb : b.SettledBy all) :
    (merge n.position a b).SettledBy all := by
  cases a with
  | mixed _ => exact ha
  | known t =>
    cases b with
    | mixed _ => exact hb
    | known u =>
      simp only [merge]
      split
      · trivial
      · exact ⟨n, hn, rfl, hkind⟩

end

def Answers (schema : Schema) (e : Expr) : Prop :=
  ∀ all, e.nodes ⊆ all → Accountable all e.nodes (Resolved.SettledBy all) (resolveNode schema e)

variable {schema : Schema} {all : List Expr}

attribute [local simp] resolveNode resolveItems

theorem accountable_items {es : List Expr} (h : ∀ e ∈ es, Answers schema e)
    (hall : Expr.nodesOf es ⊆ all) (last : ValueType) :
    Accountable all (Expr.nodesOf es) (fun _ => True) (resolveItems schema last es) := by
  induction es generalizing last with
  | nil => exact accountable_pure trivial
  | cons e es ih =>
    obtain ⟨he, hes⟩ := List.forall_mem_cons.1 h
    obtain ⟨hfirst, hothers⟩ := List.append_subset.1 hall
    rw [resolveItems]
    apply (he all hfirst).bind
    intro r hr
    apply (accountable_settle hr).bind
    intro t _
    exact ih hes hothers t

theorem answers (e : Expr) : Answers schema e := by
  induction e with
  | literal m value =>
    intro all _
    exact accountable_conclude (.literal m value) trivial
  | field m name =>
    intro all hall
    rw [resolveNode]
    split
    · exact accountable_throw (hall List.mem_cons_self) rfl rfl
    · exact accountable_conclude (.field m name) trivial
  | binary m op left right ihl ihr =>
    intro all hall
    obtain ⟨hoperands, hself⟩ := List.append_subset.1 hall
    obtain ⟨hleft, hright⟩ := List.append_subset.1 hoperands
    have hmem := hself List.mem_cons_self
    rw [resolveNode, Expr.nodes, List.append_assoc]
    apply (ihl all hleft).bind
    intro l _
    apply (ihr all hright).bind
    intro r _
    split
    · split
      · exact accountable_conclude (.binary m op left right) trivial
      · exact accountable_throw hmem rfl rfl
    · exact accountable_throw hmem rfl rfl
  | unary m op operand ih =>
    intro all hall
    obtain ⟨hoperand, hself⟩ := List.append_subset.1 hall
    have hmem := hself List.mem_cons_self
    have hkind : (Expr.unary m op operand).ownKind? = some (TypeError.Culprit.unary op).kind := by
      cases op <;> rfl
    rw [resolveNode, Expr.nodes]
    apply (ih all hoperand).bind
    intro r _
    split
    · split
      · exact accountable_conclude (.unary m op operand) trivial
      · exact accountable_throw hmem rfl hkind
    · exact accountable_throw hmem rfl hkind
  | group m inner ih =>
    intro all hall
    obtain ⟨hinner, -⟩ := List.append_subset.1 hall
    rw [resolveNode, Expr.nodes]
    apply (ih all hinner).bind
    intro r hr
    exact accountable_conclude (.group m inner) hr
  | conditional m c y n ihc ihy ihn =>
    intro all hall
    obtain ⟨hbranches, hself⟩ := List.append_subset.1 hall
    obtain ⟨hcy, hno⟩ := List.append_subset.1 hbranches
    obtain ⟨hcondition, hyes⟩ := List.append_subset.1 hcy
    have hmem := hself List.mem_cons_self
    rw [resolveNode, Expr.nodes, List.append_assoc, List.append_assoc]
    apply (ihc all hcondition).bind
    intro r hr
    apply (accountable_settle hr).bind
    intro t _
    split
    · apply (ihy all hyes).bind
      intro a ha
      apply (ihn all hno).bind
      intro b hb
      exact accountable_conclude (.conditional m c y n) (settledBy_merge hmem rfl ha hb)
    · exact accountable_throw hmem rfl rfl
  | call m name args ih =>
    intro all hall
    obtain ⟨hargs, -⟩ := List.append_subset.1 hall
    rw [resolveNode, Expr.nodes]
    apply (accountable_items ih hargs .null).bind
    intro _ _
    exact accountable_conclude (.call m name args) trivial
  | sequence m items ih =>
    intro all hall
    obtain ⟨hitems, -⟩ := List.append_subset.1 hall
    rw [resolveNode, Expr.nodes]
    apply (accountable_items ih hitems .null).bind
    intro last _
    exact accountable_conclude (.sequence m items) trivial

theorem accountable_resolve (schema : Schema) (e : Expr) :
    Accountable e.nodes e.nodes (fun _ => True) (resolve schema e) := by
  have hresolve : Accountable e.nodes (e.nodes ++ []) (fun _ => True) (resolve schema e) :=
    (answers e e.nodes (List.Subset.refl _)).bind fun r hr => accountable_settle hr
  rwa [List.append_nil] at hresolve

theorem blamed_of_infer {e : Expr} {err : TypeError} (h : infer schema e = .error err) :
    err.BlamedOn e.nodes := by
  have haccountable := accountable_resolve schema e .empty
  unfold infer at h
  cases hr : resolve schema e .empty with
  | ok t table =>
    rw [hr] at h
    cases h
  | error err' table =>
    rw [hr] at h haccountable
    cases h
    exact haccountable.1

end Typing
end FieldFormula
