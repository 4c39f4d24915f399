import FieldFormula.Proofs.Basic
import FieldFormula.Proofs.Typing.Rules

/-!
Types do not depend on parentheses. Any node of an expression may be put within any number of
parentheses, which have numbers and positions of their own. Main statement: typing then gives the
same type or fails with the same error, each node keeps its type, and the parentheses around a node
have the type of the node (`parentheses_transparent`).
-/
namespace FieldFormula

namespace Expr

def enclose (marks : List Mark) (e : Expr) : Expr := marks.foldr group e

mutual

/-- Every node within the parentheses that are given for its number. -/
def parenthesize (p : Nat → List Mark) : Expr → Expr
  | literal m value => enclose (p m.id) (literal m value)
  | field m name => enclose (p m.id) (field m name)
  | binary m op l r => enclose (p m.id) (binary m op (l.parenthesize p) (r.parenthesize p))
  | unary m op e => enclose (p m.id) (unary m op (e.parenthesize p))
  | group m e => enclose (p m.id) (group m (e.parenthesize p))
  | conditional m c y n =>
    enclose (p m.id) (conditional m (c.parenthesize p) (y.parenthesize p) (n.parenthesize p))
  | call m name args => enclose (p m.id) (call m name (parenthesizeAll p args))
  | sequence m items => enclose (p m.id) (sequence m (parenthesizeAll p items))

def parenthesizeAll (p : Nat → List Mark) : List Expr → List Expr
  | [] => []
  | e :: es => e.parenthesize p :: parenthesizeAll p es

end

attribute [local simp] parenthesize parenthesizeAll

section
variable (p : Nat → List Mark)

theorem parenthesizeAll_eq_map (es : List Expr) :
    parenthesizeAll p es = es.map (parenthesize p) :=
  eq_map_of_cons rfl (fun _ _ => rfl) es

theorem isConstant_enclose (marks : List Mark) (e : Expr) :
    (enclose marks e).isConstant = e.isConstant := by
  induction marks with
  | nil => rfl
  | cons m marks ih => exact ih

@[simp] theorem isConstant_parenthesize (e : Expr) :
    (e.parenthesize p).isConstant = e.isConstant := by
  induction e with
  | group m inner ih =>
    rw [parenthesize, isConstant_enclose]
    exact ih
  | _ => simp [isConstant_enclose, isConstant]

def numbers (n : Expr) : List Nat := n.id :: ((p n.id).map Mark.id).reverse

theorem ids_enclose (marks : List Mark) (e : Expr) :
    (enclose marks e).nodes.map id = e.nodes.map id ++ (marks.map Mark.id).reverse := by
  induction marks with
  | nil => exact (List.append_nil _).symm
  | cons m marks ih =>
    have hnodes : (enclose (m :: marks) e).nodes =
        (enclose marks e).nodes ++ [group m (enclose marks e)] := rfl
    rw [hnodes, List.map_append, ih, List.append_assoc, List.map_cons (f := Mark.id),
      List.reverse_cons]
    rfl

theorem ids_parenthesizeAll {es : List Expr}
    (h : ∀ e ∈ es, (e.parenthesize p).nodes.map id = e.nodes.flatMap (numbers p)) :
    (nodesOf (parenthesizeAll p es)).map id = (nodesOf es).flatMap (numbers p) := by
  induction es with
  | nil => rfl
  | cons e es ih =>
    obtain ⟨he, hes⟩ := List.forall_mem_cons.1 h
    rw [parenthesizeAll, nodesOf, nodesOf, List.map_append, he, ih hes, List.flatMap_append]

theorem ids_parenthesize (e : Expr) :
    (e.parenthesize p).nodes.map id = e.nodes.flatMap (numbers p) := by
  induction e with
  | literal m value | field m name =>
    rw [parenthesize, ids_enclose, nodes, List.flatMap_singleton]
    rfl
  | binary m op l r ihl ihr =>
    simp only [parenthesize, ids_enclose, nodes, List.map_append, ihl, ihr, List.flatMap_append,
      List.flatMap_singleton, List.append_assoc]
    rfl
  | unary m op e ih | group m e ih =>
    simp only [parenthesize, ids_enclose, nodes, List.map_append, ih, List.flatMap_append,
      List.flatMap_singleton, List.append_assoc]
    rfl
  | conditional m c y n ihc ihy ihn =>
    simp only [parenthesize, ids_enclose, nodes, List.map_append, ihc, ihy, ihn,
      List.flatMap_append, List.flatMap_singleton, List.append_assoc]
    rfl
  | call m name args ih | sequence m args ih =>
    simp only [parenthesize, ids_enclose, nodes, List.map_append, ids_parenthesizeAll p ih,
      List.flatMap_append, List.flatMap_singleton, List.append_assoc]
    rfl

end

end Expr

namespace Typing
open FieldFormula.Expr (enclose parenthesize parenthesizeAll)

def Alike {α : Type} (m m' : TypeM α) : Prop :=
  ∀ s s', Agree (fun _ _ => True) Eq Eq (m s) (m' s')

section
variable {α β : Type}

theorem alike_pure (a : α) : Alike (pure a) (pure a) := fun _ _ => .ok rfl trivial

theorem alike_throw (err : TypeError) : Alike (throw err : TypeM α) (throw err) :=
  fun _ _ => .error rfl

theorem Alike.bind {m m' : TypeM α} {f f' : α → TypeM β} (hm : Alike m m')
    (hf : ∀ a, Alike (f a) (f' a)) : Alike (m >>= f) (m' >>= f') := by
  intro s s'
  refine (hm s s').bind ?_
  rintro a _ s s' rfl -
  exact hf a s s'

theorem alike_settle (r : Resolved) : Alike (settle r) (settle r) := by
  cases r with
  | known t => exact alike_pure t
  | mixed position => exact alike_throw _

theorem alike_conclude (m : Mark) (r : Resolved) : Alike (conclude m r) (conclude m r) := by
  intro s s'
  cases r <;> exact .ok rfl trivial

end

variable {schema : Schema} {p : Nat → List Mark}

attribute [local simp] resolveNode resolveItems

/-- Parentheses enter the type of what they enclose, and otherwise leave it as it is. -/
theorem Alike.enclose {x : TypeM Resolved} {e : Expr} (h : Alike x (resolveNode schema e))
    (marks : List Mark) : Alike x (resolveNode schema (enclose marks e)) := by
  induction marks with
  | nil => exact h
  | cons m marks ih =>
    intro s s'
    have hgroup : resolveNode schema (Expr.enclose (m :: marks) e) =
        resolveNode schema (Expr.enclose marks e) >>= conclude m := by
      rw [Expr.enclose, List.foldr_cons, resolveNode]
      rfl
    rw [hgroup]
    have hinner := ih s s'
    simp only [Bind.bind, EStateM.bind]
    generalize x s = a at hinner ⊢
    generalize resolveNode schema (Expr.enclose marks e) s' = b at hinner ⊢
    cases hinner with
    | error herr => exact .error herr
    | @ok r _ _ t hr _ =>
      subst hr
      cases r <;> exact .ok rfl trivial

theorem alike_items {es : List Expr} (h : ∀ e ∈ es, Alike (resolveNode schema e)
      (resolveNode schema (e.parenthesize p))) (last : ValueType) :
    Alike (resolveItems schema last es) (resolveItems schema last (parenthesizeAll p es)) := by
  induction es generalizing last with
  | nil => exact alike_pure last
  | cons e es ih =>
    obtain ⟨he, hes⟩ := List.forall_mem_cons.1 h
    rw [parenthesizeAll, resolveItems, resolveItems]
    apply he.bind
    intro r
    apply (alike_settle r).bind
    intro t
    exact ih hes t

theorem alike_resolveNode (e : Expr) :
    Alike (resolveNode schema e) (resolveNode schema (e.parenthesize p)) := by
  -- first the parentheses around the node, then its parts in the order in which they are typed
  induction e with
  | literal m value =>
    rw [parenthesize]
    apply Alike.enclose
    exact alike_conclude m _
  | field m name =>
    rw [parenthesize]
    apply Alike.enclose
    rw [resolveNode]
    split
    · exact alike_throw _
    · exact alike_conclude m _
  | binary m op l r ihl ihr =>
    rw [parenthesize]
    apply Alike.enclose
    rw [resolveNode, resolveNode, Expr.isConstant_parenthesize, Expr.isConstant_parenthesize]
    apply ihl.bind
    intro a
    apply ihr.bind
    intro b
    split
    · split
      · exact alike_conclude m _
      · exact alike_throw _
    · exact alike_throw _
  | unary m op operand ih =>
    rw [parenthesize]
    apply Alike.enclose
    rw [resolveNode, resolveNode]
    apply ih.bind
    intro r
    split
    · split
      · exact alike_conclude m _
      · exact alike_throw _
    · exact alike_throw _
  | group m inner ih =>
    rw [parenthesize]
    apply Alike.enclose
    rw [resolveNode, resolveNode]
    exact ih.bind fun r => alike_conclude m r
  | conditional m c y n ihc ihy ihn =>
    rw [parenthesize]
    apply Alike.enclose
    rw [resolveNode, resolveNode]
    apply ihc.bind
    intro r
    apply (alike_settle r).bind
    intro t
    split
    · apply ihy.bind
      intro a
      apply ihn.bind
      intro b
      exact alike_conclude m _
    · exact alike_throw _
  | call m name args ih =>
    rw [parenthesize]
    apply Alike.enclose
    rw [resolveNode, resolveNode]
    exact (alike_items ih .null).bind fun _ => alike_conclude m _
  | sequence m items ih =>
    rw [parenthesize]
    apply Alike.enclose
    rw [resolveNode, resolveNode]
    exact (alike_items ih .null).bind fun last => alike_conclude m (.known last)

theorem infer_of_parenthesize_error {e : Expr} {err : TypeError}
    (h : infer schema (e.parenthesize p) = .error err) : infer schema e = .error err := by
  have hresolve : Alike (resolve schema e) (resolve schema (e.parenthesize p)) :=
    (alike_resolveNode e).bind alike_settle
  have hempty := hresolve .empty .empty
  unfold infer at h ⊢
  generalize resolve schema e .empty = a at hempty h ⊢
  generalize resolve schema (e.parenthesize p) .empty = b at hempty h ⊢
  cases hempty with
  | ok _ _ => cases h
  | error herr =>
    cases h
    rw [herr]

section Rules
variable {τ : Nat → ValueType}

def Enclosed (p : Nat → List Mark) (τ : Nat → ValueType) (n : Expr) : Prop :=
  ∀ m ∈ p n.id, τ m.id = τ n.id

theorem follows_of_enclose {e : Expr} {marks : List Mark}
    (h : (enclose marks e).All (Follows schema τ)) :
    e.All (Follows schema τ) ∧ τ (enclose marks e).id = τ e.id ∧
      ∀ m ∈ marks, τ m.id = τ e.id := by
  induction marks with
  | nil => exact ⟨h, rfl, List.forall_mem_nil _⟩
  | cons m marks ih =>
    obtain ⟨hinner, hgroup⟩ := Expr.all_group.1 h
    obtain ⟨he, hid, hmarks⟩ := ih hinner
    have hm : τ m.id = τ e.id := hgroup.trans hid
    exact ⟨he, hm, List.forall_mem_cons.2 ⟨hm, hmarks⟩⟩

theorem follows_of_parenthesize {e : Expr} (h : (e.parenthesize p).All (Follows schema τ)) :
    e.All (Follows schema τ) ∧ e.All (Enclosed p τ) ∧ τ (e.parenthesize p).id = τ e.id := by
  induction e with
  | literal m value =>
    rw [parenthesize] at h ⊢
    obtain ⟨hself, hid, hmarks⟩ := follows_of_enclose h
    exact ⟨hself, Expr.all_literal.2 hmarks, hid⟩
  | field m name =>
    rw [parenthesize] at h ⊢
    obtain ⟨hself, hid, hmarks⟩ := follows_of_enclose h
    exact ⟨hself, Expr.all_field.2 hmarks, hid⟩
  | binary m op l r ihl ihr =>
    rw [parenthesize] at h ⊢
    obtain ⟨hall, hid, hmarks⟩ := follows_of_enclose h
    obtain ⟨hl, hr, hself⟩ := Expr.all_binary.1 hall
    obtain ⟨hal, hel, hidl⟩ := ihl hl
    obtain ⟨har, her, hidr⟩ := ihr hr
    rw [Follows, hidl, hidr, Expr.isConstant_parenthesize, Expr.isConstant_parenthesize] at hself
    exact ⟨Expr.all_binary.2 ⟨hal, har, hself⟩, Expr.all_binary.2 ⟨hel, her, hmarks⟩, hid⟩
  | unary m op operand ih =>
    rw [parenthesize] at h ⊢
    obtain ⟨hall, hid, hmarks⟩ := follows_of_enclose h
    obtain ⟨he, hself⟩ := Expr.all_unary.1 hall
    obtain ⟨hae, hee, hide⟩ := ih he
    rw [Follows, hide] at hself
    exact ⟨Expr.all_unary.2 ⟨hae, hself⟩, Expr.all_unary.2 ⟨hee, hmarks⟩, hid⟩
  | group m inner ih =>
    rw [parenthesize] at h ⊢
    obtain ⟨hall, hid, hmarks⟩ := follows_of_enclose h
    obtain ⟨he, hself⟩ := Expr.all_group.1 hall
    obtain ⟨hae, hee, hide⟩ := ih he
    rw [Follows, hide] at hself
    exact ⟨Expr.all_group.2 ⟨hae, hself⟩, Expr.all_group.2 ⟨hee, hmarks⟩, hid⟩
  | conditional m c y n ihc ihy ihn =>
    rw [parenthesize] at h ⊢
    obtain ⟨hall, hid, hmarks⟩ := follows_of_enclose h
    obtain ⟨hc, hy, hn, hself⟩ := Expr.all_conditional.1 hall
    obtain ⟨hac, hec, hidc⟩ := ihc hc
    obtain ⟨hay, hey, hidy⟩ := ihy hy
    obtain ⟨han, hen, hidn⟩ := ihn hn
    rw [Follows, hidc, hidy, hidn] at hself
    exact ⟨Expr.all_conditional.2 ⟨hac, hay, han, hself⟩,
      Expr.all_conditional.2 ⟨hec, hey, hen, hmarks⟩, hid⟩
  | call m name args ih =>
    rw [parenthesize, Expr.parenthesizeAll_eq_map] at h ⊢
    obtain ⟨hall, hid, hmarks⟩ := follows_of_enclose h
    obtain ⟨hargs, hself⟩ := Expr.all_call.1 hall
    have hitems := fun e he => ih e he (hargs _ (List.mem_map_of_mem he))
    exact ⟨Expr.all_call.2 ⟨fun e he => (hitems e he).1, hself⟩,
      Expr.all_call.2 ⟨fun e he => (hitems e he).2.1, hmarks⟩, hid⟩
  | sequence m items ih =>
    rw [parenthesize, Expr.parenthesizeAll_eq_map] at h ⊢
    obtain ⟨hall, hid, hmarks⟩ := follows_of_enclose h
    obtain ⟨hargs, hself⟩ := Expr.all_sequence.1 hall
    have hitems := fun e he => ih e he (hargs _ (List.mem_map_of_mem he))
    refine ⟨Expr.all_sequence.2 ⟨fun e he => (hitems e he).1, ?_⟩,
      Expr.all_sequence.2 ⟨fun e he => (hitems e he).2.1, hmarks⟩, hid⟩
    rw [Follows, List.getLast?_map, Option.map_map] at hself
    rw [Follows, hself]
    cases hlast : items.getLast? with
    | none => rfl
    | some e => exact (hitems e (List.mem_of_getLast? hlast)).2.2

end Rules

/-- Every node of an expression may stand within parentheses, as long as all nodes have different
numbers. -/
theorem parentheses_transparent (schema : Schema) (e : Expr) (p : Nat → List Mark)
    (hids : ((e.parenthesize p).nodes.map Expr.id).Nodup) :
    (∃ err, infer schema e = .error err ∧ infer schema (e.parenthesize p) = .error err) ∨
    ∃ t types types', infer schema e = .ok (t, types) ∧
      infer schema (e.parenthesize p) = .ok (t, types') ∧
      ∀ n ∈ e.nodes, ∃ u, types.get? n.id = some u ∧ types'.get? n.id = some u ∧
        ∀ m ∈ p n.id, types'.get? m.id = some u := by
  cases h : infer schema (e.parenthesize p) with
  | error err => exact .inl ⟨err, infer_of_parenthesize_error h, rfl⟩
  | ok answer =>
    obtain ⟨t, types'⟩ := answer
    -- the types of the larger tree follow the rules, hence so do those of its nodes in `e`, and
    -- typing `e` has to find them
    obtain ⟨τ, hall, rfl, rfl⟩ := assigned_of_infer hids h
    obtain ⟨hfollows, henclosed, hid⟩ := follows_of_parenthesize hall
    have hinfer := infer_eq_ok.2 (resolveNode_of_follows hfollows .empty)
    have hnumbers {n : Expr} (hn : n ∈ e.nodes) {k : Nat} (hk : k ∈ Expr.numbers p n) :
        (assigned τ (e.parenthesize p).nodes .empty).get? k = some (τ k) := by
      rw [get?_assigned, if_pos]
      rw [Expr.ids_parenthesize]
      exact List.mem_flatMap.2 ⟨n, hn, hk⟩
    refine .inr ⟨τ e.id, _, _, hinfer, by rw [hid], fun n hn => ⟨τ n.id, ?_, ?_, ?_⟩⟩
    · rw [get?_assigned, if_pos (List.mem_map_of_mem hn)]
    · exact hnumbers hn List.mem_cons_self
    · intro m hm
      rw [hnumbers hn, henclosed n hn m hm]
      exact List.mem_cons_of_mem _ (List.mem_reverse.2 (List.mem_map_of_mem hm))

/-- A constant that becomes text by `+` still does within two pairs of parentheses. -/
theorem parentheses_transparent_constant :
    let schema : Schema := ⟨[("Qty", ⟨"q", .number⟩)], by decide⟩
    let e : Expr := .binary ⟨2, 8⟩ .add (.field ⟨0, 0⟩ "Qty") (.literal ⟨1, 10⟩ (.text "a"))
    let p : Nat → List Mark := fun id =>
      if id = 1 then [⟨3, 10⟩, ⟨4, 11⟩] else if id = 2 then [⟨5, 0⟩] else []
    ((e.parenthesize p).nodes.map Expr.id).Nodup ∧
      ∃ types types', infer schema e = .ok (.string, types) ∧
        infer schema (e.parenthesize p) = .ok (.string, types') ∧
        ∀ n ∈ e.nodes, ∃ u, types.get? n.id = some u ∧ types'.get? n.id = some u ∧
          ∀ m ∈ p n.id, types'.get? m.id = some u := by
  intro schema e p
  have hids : ((e.parenthesize p).nodes.map Expr.id).Nodup := by decide +kernel
  obtain ⟨table, htable⟩ : ∃ table, infer schema e = .ok (.string, table) := ⟨_, rfl⟩
  obtain ⟨err, herr, -⟩ | ⟨t, types, types', h, h', hall⟩ := parentheses_transparent schema e p hids
  · rw [htable] at herr
    cases herr
  · obtain rfl : t = .string := congrArg Prod.fst (Except.ok.inj (h.symm.trans htable))
    exact ⟨hids, types, types', h, h', hall⟩

end Typing
end FieldFormula
