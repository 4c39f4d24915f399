import FieldFormula.Proofs.Expr.Marks
import FieldFormula.Proofs.Basic
import FieldFormula.Proofs.Typing.Rules

/-!
Typing an expression with other marks, in a table that already has entries. Numbers of nodes move by
an offset and positions by any function. Main statement: typing runs in step with typing the
expression alone, and its entries and errors move as the marks do (`follow_resolve`).
-/
namespace FieldFormula

structure Shift where
  offset : Nat
  place : Nat → Nat

namespace Shift

def mark (μ : Shift) (m : Mark) : Mark := ⟨m.id + μ.offset, μ.place m.position⟩

def entries (μ : Shift) (entries : List (Nat × ValueType)) : List (Nat × ValueType) :=
  entries.map fun x => (x.1 + μ.offset, x.2)

def resolved (μ : Shift) : Typing.Resolved → Typing.Resolved
  | .known t => .known t
  | .mixed position => .mixed (μ.place position)

def typeError (μ : Shift) (err : TypeError) : TypeError := ⟨err.cause, μ.place err.position⟩

def stay : Shift := ⟨0, fun position => position⟩

theorem remark_stay (e : Expr) : e.remark stay.mark = e := e.remark_id

theorem entries_stay (entries : List (Nat × ValueType)) : stay.entries entries = entries :=
  List.map_id' entries

/-- The entries of `s` stand on top of the `base` in `s'`. -/
def Carries (μ : Shift) (base : List (Nat × ValueType)) (s s' : TypeTable) : Prop :=
  s'.entries = μ.entries s.entries ++ base

end Shift

namespace Typing

/-- The second run is the first with other marks, on top of the `base`. -/
def Follow {α : Type} (μ : Shift) (base : List (Nat × ValueType)) (g : α → α) (m m' : TypeM α) :
    Prop :=
  ∀ s s', μ.Carries base s s' →
    Agree (μ.Carries base) (fun e e' => e' = μ.typeError e) (fun a a' => a' = g a) (m s) (m' s')

section
variable {α β : Type} {μ : Shift} {base : List (Nat × ValueType)} {g : α → α} {h : β → β}

theorem follow_pure {a a' : α} (ha : a' = g a) : Follow μ base g (pure a) (pure a') :=
  fun _ _ hs => .ok ha hs

theorem Follow.bind {m m' : TypeM α} {f f' : α → TypeM β} (hm : Follow μ base g m m')
    (hf : ∀ a, Follow μ base h (f a) (f' (g a))) : Follow μ base h (m >>= f) (m' >>= f') := by
  intro s s' hs
  refine (hm s s' hs).bind ?_
  rintro a _ s s' rfl hs
  exact hf a s s' hs

theorem follow_throw {err err' : TypeError} (herr : err' = μ.typeError err) :
    Follow μ base g (throw err) (throw err') :=
  fun _ _ _ => .error herr

theorem follow_conclude (m : Mark) (r : Resolved) :
    Follow μ base μ.resolved (conclude m r) (conclude (μ.mark m) (μ.resolved r)) := by
  intro s s' hs
  cases r with
  | known t => exact .ok rfl (congrArg (List.cons (m.id + μ.offset, t)) hs)
  | mixed position => exact .ok rfl hs

theorem follow_settle (r : Resolved) : Follow μ base id (settle r) (settle (μ.resolved r)) := by
  cases r with
  | known t => exact follow_pure rfl
  | mixed position => exact follow_throw rfl

theorem resolved_merge (μ : Shift) (position : Nat) (a b : Resolved) :
    merge (μ.place position) (μ.resolved a) (μ.resolved b) = μ.resolved (merge position a b) := by
  cases a with
  | mixed _ => rfl
  | known t =>
    cases b with
    | mixed _ => rfl
    | known u =>
      simp only [merge, Shift.resolved]
      cases t.unify? u <;> rfl

end

variable {schema : Schema} {μ : Shift} {base : List (Nat × ValueType)}

attribute [local simp] resolveNode resolveItems

theorem follow_items {es : List Expr} (h : ∀ e ∈ es, Follow μ base μ.resolved
      (resolveNode schema e) (resolveNode schema (e.remark μ.mark))) (last : ValueType) :
    Follow μ base id (resolveItems schema last es)
      (resolveItems schema last (Expr.remarks μ.mark es)) := by
  induction es generalizing last with
  | nil => exact follow_pure rfl
  | cons e es ih =>
    obtain ⟨he, hes⟩ := List.forall_mem_cons.1 h
    rw [Expr.remarks, resolveItems, resolveItems]
    apply he.bind
    intro r
    apply (follow_settle r).bind
    intro t
    exact ih hes t

theorem follow_resolveNode (e : Expr) :
    Follow μ base μ.resolved (resolveNode schema e) (resolveNode schema (e.remark μ.mark)) := by
  induction e with
  | literal m value => exact follow_conclude m _
  | field m name =>
    rw [Expr.remark, resolveNode, resolveNode]
    cases schema.get? name with
    | none => exact follow_throw rfl
    | some field => exact follow_conclude m _
  | binary m op left right ihl ihr =>
    rw [Expr.remark, resolveNode, resolveNode, Expr.isConstant_remark, Expr.isConstant_remark]
    apply ihl.bind
    intro l
    apply ihr.bind
    intro r
    cases l with
    | mixed _ => exact follow_throw rfl
    | known a =>
      cases r with
      | mixed _ => exact follow_throw rfl
      | known b =>
        simp only [Shift.resolved]
        split
        · exact follow_conclude m _
        · exact follow_throw rfl
  | unary m op operand ih =>
    rw [Expr.remark, resolveNode, resolveNode]
    apply ih.bind
    intro r
    cases r with
    | mixed _ => exact follow_throw rfl
    | known t =>
      simp only [Shift.resolved]
      split
      · exact follow_conclude m _
      · exact follow_throw rfl
  | group m inner ih =>
    rw [Expr.remark, resolveNode, resolveNode]
    exact ih.bind fun r => follow_conclude m r
  | conditional m c y n ihc ihy ihn =>
    rw [Expr.remark, resolveNode, resolveNode]
    apply ihc.bind
    intro r
    apply (follow_settle r).bind
    intro t
    simp only [id]
    split
    · apply ihy.bind
      intro a
      apply ihn.bind
      intro b
      have hmerge := resolved_merge μ m.position a b
      exact hmerge ▸ follow_conclude m (merge m.position a b)
    · exact follow_throw rfl
  | call m name args ih =>
    rw [Expr.remark, resolveNode, resolveNode]
    exact (follow_items ih .null).bind fun _ => follow_conclude m _
  | sequence m items ih =>
    rw [Expr.remark, resolveNode, resolveNode]
    exact (follow_items ih .null).bind fun last => follow_conclude m (.known last)

theorem follow_resolve (schema : Schema) (μ : Shift) (base : List (Nat × ValueType)) (e : Expr) :
    Follow μ base id (resolve schema e) (resolve schema (e.remark μ.mark)) :=
  (follow_resolveNode e).bind follow_settle

section
variable {e : Expr} {t : ValueType} {types : TypeTable}

theorem infer_eq_ok_iff_resolve :
    infer schema e = .ok (t, types) ↔ resolve schema e .empty = .ok t types := by
  unfold infer
  cases resolve schema e .empty with
  | ok u last => simp
  | error err last => simp

theorem infer_eq_error_iff_resolve {err : TypeError} :
    infer schema e = .error err ↔ ∃ table, resolve schema e .empty = .error err table := by
  unfold infer
  cases resolve schema e .empty with
  | ok u last => simp
  | error err last => simp

theorem resolve_remark_of_infer_error {err : TypeError} (h : infer schema e = .error err)
    (μ : Shift) (base : TypeTable) :
    ∃ table, resolve schema (e.remark μ.mark) base = .error (μ.typeError err) table := by
  obtain ⟨last, hlast⟩ := infer_eq_error_iff_resolve.1 h
  have hfollow := follow_resolve schema μ base.entries e .empty base rfl
  rw [hlast] at hfollow
  generalize resolve schema (e.remark μ.mark) base = y at hfollow ⊢
  cases hfollow with
  | error herr => exact ⟨_, congrArg (EStateM.Result.error · _) herr⟩

theorem resolve_remark_of_infer (h : infer schema e = .ok (t, types)) (μ : Shift)
    (base : TypeTable) : ∃ table, resolve schema (e.remark μ.mark) base = .ok t table ∧
      table.entries = μ.entries types.entries ++ base.entries := by
  have hfollow := follow_resolve schema μ base.entries e .empty base rfl
  rw [infer_eq_ok_iff_resolve.1 h] at hfollow
  generalize resolve schema (e.remark μ.mark) base = y at hfollow ⊢
  cases hfollow with
  | ok hvalue htable => exact ⟨_, congrArg (EStateM.Result.ok · _) hvalue, htable⟩

theorem ids_of_infer (h : infer schema e = .ok (t, types)) :
    types.entries.map Prod.fst = (e.nodes.map Expr.id).reverse := by
  obtain ⟨entries, hentries, hids, -⟩ := typed e t .empty types (infer_eq_ok.1 h)
  rw [hentries, TypeTable.empty, List.append_nil, List.map_reverse, hids]

theorem lookup_entries (μ : Shift) (entries : List (Nat × ValueType)) (id : Nat) :
    (μ.entries entries).lookup (id + μ.offset) = entries.lookup id := by
  induction entries with
  | nil => rfl
  | cons x entries ih =>
    have hkey : (id + μ.offset == x.1 + μ.offset) = (id == x.1) := by
      rw [Bool.eq_iff_iff, beq_iff_eq, beq_iff_eq, Nat.add_right_cancel_iff]
    rw [Shift.entries, List.map_cons, List.lookup_cons, List.lookup_cons, hkey, ← ih, Shift.entries]

theorem isSome_of_infer (h : infer schema e = .ok (t, types)) {n : Expr} (hn : n ∈ e.nodes) :
    (types.get? n.id).isSome = true := by
  have hmem : n.id ∈ types.entries.map Prod.fst := by
    rw [ids_of_infer h, List.mem_reverse]
    exact List.mem_map_of_mem hn
  obtain ⟨x, hx, hid⟩ := List.mem_map.1 hmem
  exact List.lookup_isSome_iff.2 ⟨x, hx, beq_iff_eq.2 hid.symm⟩

/-- The types of an expression are found among others that have other numbers or are older. -/
theorem get?_among {table : TypeTable} {later base : List (Nat × ValueType)}
    (h : infer schema e = .ok (t, types))
    (htable : table.entries = later ++ (μ.entries types.entries ++ base)) {n : Expr}
    (hn : n ∈ e.nodes) (hlater : n.id + μ.offset ∉ later.map Prod.fst) :
    table.get? (n.id + μ.offset) = types.get? n.id := by
  have hsome : (types.entries.lookup n.id).isSome = true := isSome_of_infer h hn
  have hnone : later.lookup (n.id + μ.offset) = none := by
    refine List.lookup_eq_none_iff.2 fun x hx => bne_iff_ne.2 fun hid => hlater ?_
    exact hid ▸ List.mem_map_of_mem hx
  rw [TypeTable.get?, htable, List.lookup_append, hnone, Option.none_or, List.lookup_append,
    lookup_entries, Option.or_of_isSome hsome, TypeTable.get?]

theorem keeps_among {table : TypeTable} {later base : List (Nat × ValueType)}
    (h : infer schema e = .ok (t, types))
    (htable : table.entries = later ++ (μ.entries types.entries ++ base))
    (hlater : ∀ n ∈ e.nodes, n.id + μ.offset ∉ later.map Prod.fst) :
    e.All (Expr.Keeps μ.mark types table) := by
  intro n hn
  have hid : (n.remark μ.mark).id = n.id + μ.offset := by
    rw [Expr.id, Expr.mark_remark]
    rfl
  rw [Expr.Keeps, TypeTable.typeOf, hid, get?_among h htable hn (hlater n hn), TypeTable.typeOf]

end

end Typing
end FieldFormula
