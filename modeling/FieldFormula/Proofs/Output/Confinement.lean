import FieldFormula.Proofs.Expr.Grammar
import FieldFormula.Proofs.Output.Composition

/-!
Text in a formula reaches the output only as its own quoted occurrences. A string literal stands in
a context, a formula with a hole. Main statement: for every content of the hole the types are the
same, and the text of either target is one list of segments joined by the quoted content
(`text_confined`).
-/
namespace FieldFormula
namespace Expr

attribute [local simp] nodes

inductive Frame where
  | left (mark : Mark) (op : BinaryOp) (right : Expr)
  | right (mark : Mark) (op : BinaryOp) (left : Expr)
  | operand (mark : Mark) (op : UnaryOp)
  | inner (mark : Mark)
  | condition (mark : Mark) (yes no : Expr)
  | yes (mark : Mark) (condition no : Expr)
  | no (mark : Mark) (condition yes : Expr)
  | argument (mark : Mark) (name : String) (before after : List Expr)
  | item (mark : Mark) (before after : List Expr)
  deriving Repr

def Frame.wrap : Frame → Expr → Expr
  | left m op r, e => binary m op e r
  | right m op l, e => binary m op l e
  | operand m op, e => unary m op e
  | inner m, e => group m e
  | condition m y n, e => conditional m e y n
  | yes m c n, e => conditional m c e n
  | no m c y, e => conditional m c y e
  | argument m name before after, e => call m name (before ++ e :: after)
  | item m before after, e => sequence m (before ++ e :: after)

abbrev Context := List Frame

def Context.plug (C : Context) (e : Expr) : Expr := C.foldr Frame.wrap e

theorem exists_plug_wrap {n e : Expr} (f : Frame) (h : ∃ C : Context, C.plug n = e) :
    ∃ C : Context, C.plug n = f.wrap e := by
  obtain ⟨C, rfl⟩ := h
  exact ⟨f :: C, rfl⟩

theorem exists_plug {n e : Expr} (h : n ∈ e.nodes) : ∃ C : Context, C.plug n = e := by
  induction e with
  | literal m value => exact ⟨[], List.mem_singleton.1 h⟩
  | field m name => exact ⟨[], List.mem_singleton.1 h⟩
  | binary m op left right ihl ihr =>
    simp only [nodes, List.mem_append, List.mem_singleton] at h
    obtain (hl | hr) | rfl := h
    · exact exists_plug_wrap (.left m op right) (ihl hl)
    · exact exists_plug_wrap (.right m op left) (ihr hr)
    · exact ⟨[], rfl⟩
  | unary m op inner ih =>
    simp only [nodes, List.mem_append, List.mem_singleton] at h
    obtain he | rfl := h
    · exact exists_plug_wrap (.operand m op) (ih he)
    · exact ⟨[], rfl⟩
  | group m inner ih =>
    simp only [nodes, List.mem_append, List.mem_singleton] at h
    obtain he | rfl := h
    · exact exists_plug_wrap (.inner m) (ih he)
    · exact ⟨[], rfl⟩
  | conditional m condition yes no ihc ihy ihn =>
    simp only [nodes, List.mem_append, List.mem_singleton] at h
    obtain ((hc | hy) | hn) | rfl := h
    · exact exists_plug_wrap (.condition m yes no) (ihc hc)
    · exact exists_plug_wrap (.yes m condition no) (ihy hy)
    · exact exists_plug_wrap (.no m condition yes) (ihn hn)
    · exact ⟨[], rfl⟩
  | call m name args ih =>
    simp only [nodes, nodesOf_eq_flatMap, List.mem_append, List.mem_flatMap,
      List.mem_singleton] at h
    obtain ⟨e, he, hn⟩ | rfl := h
    · have hplug := ih e he hn
      obtain ⟨before, after, rfl⟩ := List.append_of_mem he
      exact exists_plug_wrap (.argument m name before after) hplug
    · exact ⟨[], rfl⟩
  | sequence m items ih =>
    simp only [nodes, nodesOf_eq_flatMap, List.mem_append, List.mem_flatMap,
      List.mem_singleton] at h
    obtain ⟨e, he, hn⟩ | rfl := h
    · have hplug := ih e he hn
      obtain ⟨before, after, rfl⟩ := List.append_of_mem he
      exact exists_plug_wrap (.item m before after) hplug
    · exact ⟨[], rfl⟩

theorem mem_nodes_iff {n e : Expr} : n ∈ e.nodes ↔ ∃ C : Context, C.plug n = e := by
  refine ⟨exists_plug, ?_⟩
  rintro ⟨C, rfl⟩
  induction C with
  | nil => cases n <;> simp [Context.plug]
  | cons f C ih =>
    change n ∈ (f.wrap (Context.plug C n)).nodes
    cases f <;> simp [Frame.wrap, nodesOf_eq_flatMap, ih]

end Expr

namespace Output

inductive Woven (quote : String → String) : (String → String) → Prop where
  | fixed (x : String) : Woven quote fun _ => x
  | quoted (x : String) {f : String → String} (h : Woven quote f) :
    Woven quote fun s => x ++ quote s ++ f s

namespace Woven

variable {quote f g : String → String}

theorem self : Woven quote quote := by
  simpa using quoted "" (.fixed "")

theorem segments (h : Woven quote f) :
    ∃ x xs, ∀ s, f s = (quote s).intercalate (x :: xs) := by
  induction h with
  | fixed x => exact ⟨x, [], fun s => String.intercalate_singleton.symm⟩
  | quoted x _ ih =>
    obtain ⟨y, ys, hy⟩ := ih
    refine ⟨x, y :: ys, fun s => ?_⟩
    rw [String.intercalate_cons_cons, ← hy]

theorem append (hf : Woven quote f) (hg : Woven quote g) : Woven quote fun s => f s ++ g s := by
  induction hf with
  | fixed x =>
    cases hg with
    | fixed y => exact .fixed (x ++ y)
    | quoted y h => simpa only [← String.append_assoc] using quoted (x ++ y) h
  | quoted x _ ih => simpa only [← String.append_assoc] using quoted x ih

theorem intercalate (separator : String) {fs : List (String → String)}
    (h : ∀ f ∈ fs, Woven quote f) :
    Woven quote fun s => separator.intercalate (fs.map fun f => f s) := by
  induction fs with
  | nil => exact .fixed ""
  | cons f fs ih =>
    obtain ⟨hf, hfs⟩ := List.forall_mem_cons.1 h
    cases fs with
    | nil => simpa using hf
    | cons g gs =>
      simpa only [List.map_cons, String.intercalate_cons_cons] using
        (hf.append (.fixed separator)).append (ih hfs)

theorem fill {args : List (String → String)} (h : ∀ f ∈ args, Woven quote f) (piece : Piece) :
    Woven quote fun s => piece.fill (args.map fun f => f s) := by
  cases piece with
  | text x => exact .fixed x
  | arg index =>
    simp only [Piece.fill, List.getD_eq_getElem?_getD, List.getElem?_map]
    cases hf : args[index]? with
    | none => exact .fixed ""
    | some f => exact h f (List.mem_of_getElem? hf)
  | args first separator =>
    simp only [Piece.fill, ← List.map_drop]
    exact intercalate separator fun f hf => h f (List.mem_of_mem_drop hf)

theorem filled (pieces : List Piece) {args : List (String → String)}
    (h : ∀ f ∈ args, Woven quote f) :
    Woven quote fun s => Piece.filled pieces (args.map fun f => f s) := by
  induction pieces with
  | nil => exact .fixed ""
  | cons piece pieces ih =>
    simpa only [Piece.filled, List.map_cons, String.join_cons] using (fill h piece).append ih

theorem head? {c : Char} (hquote : ∀ s, (quote s).toList.head? = some c) (h : Woven quote f)
    (s s' : String) : (f s).toList.head? = (f s').toList.head? := by
  induction h with
  | fixed x => rfl
  | quoted x _ _ => simp [List.head?_append, hquote]

end Woven

theorem compositional_woven (target : Target) (quote : String → String) :
    Compositional target (Woven quote) where
  constant _ := .fixed _
  filled _ h := .filled _ h

def quoted : Target → String → String
  | .sql => Sql.quote
  | .script => Script.quote

/-- A formula that varies with a content, which neither its types nor the fixed segments of its
texts depend on. -/
structure Confined (g : String → Expr) : Prop where
  alike (s s' : String) : Expr.Alike (g s) (g s')
  resolve (schema : Schema) (s s' : String) :
    Typing.resolveNode schema (g s) = Typing.resolveNode schema (g s')
  woven (target : Target) (types : TypeTable) :
    Woven (quoted target) fun s => target.generate types (g s)

theorem Confined.head? {g : String → Expr} (h : Confined g) (target : Target) (types : TypeTable)
    (s s' : String) : (target.generate types (g s)).toList.head? =
      (target.generate types (g s')).toList.head? := by
  cases target with
  | sql => exact (h.woven .sql types).head? (c := '\'') (fun s => by simp [quoted, Sql.quote]) s s'
  | script =>
    exact (h.woven .script types).head? (c := '"')
      (fun s => by simp [quoted, Script.quote, Text.doubleQuoted]) s s'

section
variable {m : Mark} {g l r c y n : String → Expr} {gs : List (String → Expr)}

theorem confined_const (e : Expr) : Confined fun _ => e :=
  ⟨fun _ _ => .refl e, fun _ _ _ => rfl, fun _ _ => .fixed _⟩

theorem confined_text (m : Mark) : Confined fun s => .literal m (.text s) where
  alike _ _ := ⟨rfl, rfl, rfl, rfl, fun _ => rfl, fun _ => rfl⟩
  resolve _ _ _ := rfl
  woven target _ := by cases target <;> exact Woven.self

theorem confined_binary (op : BinaryOp) (hl : Confined l) (hr : Confined r) :
    Confined fun s => .binary m op (l s) (r s) where
  alike s s' := ⟨rfl, rfl, rfl, rfl, fun _ => rfl, fun _ => rfl⟩
  resolve schema s s' := by
    rw [Typing.resolveNode, Typing.resolveNode, hl.resolve schema s s', hr.resolve schema s s',
      (hl.alike s s').isConstant, (hr.alike s s').isConstant]
  -- what is asked about the operands is asked about those for the empty content
  woven target types := (compositional_woven target _).binary op (fun s => hl.alike s "")
    (fun s => hr.alike s "") (hl.woven target types) (hr.woven target types)

theorem confined_unary (op : UnaryOp) (h : Confined g) : Confined fun s => .unary m op (g s) where
  alike s s' := by cases op <;> exact ⟨rfl, rfl, rfl, rfl, fun _ => rfl, fun _ => rfl⟩
  resolve schema s s' := by
    rw [Typing.resolveNode, Typing.resolveNode, h.resolve schema s s']
  woven target types := by
    have hP := compositional_woven target (quoted target)
    cases op with
    | negate =>
      simp only [generate_negate, h.head? target types _ ""]
      split
      · exact .append (.fixed "-") (hP.group (h.woven target types))
      · exact .append (.fixed "-") (h.woven target types)
    | not => exact hP.not (fun s => (h.alike s "").isNot) (h.woven target types)

theorem confined_group (h : Confined g) : Confined fun s => .group m (g s) where
  alike s s' := ⟨rfl, (h.alike s s').isConstant, rfl, rfl, (h.alike s s').nullable, fun _ => rfl⟩
  resolve schema s s' := by
    rw [Typing.resolveNode, Typing.resolveNode, h.resolve schema s s']
  woven target types := (compositional_woven target _).group (h.woven target types)

theorem confined_conditional (hc : Confined c) (hy : Confined y) (hn : Confined n) :
    Confined fun s => .conditional m (c s) (y s) (n s) where
  alike s s' := by
    refine ⟨rfl, rfl, rfl, rfl, fun types => ?_, fun _ => rfl⟩
    rw [Script.nullable, Script.nullable, (hy.alike s s').nullable, (hn.alike s s').nullable]
  resolve schema s s' := by
    rw [Typing.resolveNode, Typing.resolveNode, hc.resolve schema s s', hy.resolve schema s s',
      hn.resolve schema s s']
  woven target types := (compositional_woven target _).conditional (hc.woven target types)
    (hy.woven target types) (hn.woven target types)

theorem resolveItems_confined (h : ∀ g ∈ gs, Confined g) (schema : Schema) (last : ValueType)
    (s s' : String) : Typing.resolveItems schema last (gs.map fun g => g s) =
      Typing.resolveItems schema last (gs.map fun g => g s') := by
  induction gs generalizing last with
  | nil => rfl
  | cons g gs ih =>
    obtain ⟨hg, hgs⟩ := List.forall_mem_cons.1 h
    simp only [List.map_cons, Typing.resolveItems, hg.resolve schema s s', ih hgs]

theorem woven_args (h : ∀ g ∈ gs, Confined g) (target : Target) (types : TypeTable) :
    ∀ f ∈ gs.map fun g s => target.generate types (g s), Woven (quoted target) f :=
  List.forall_mem_map.2 fun g hg => (h g hg).woven target types

theorem confined_call (name : String) (h : ∀ g ∈ gs, Confined g) :
    Confined fun s => .call m name (gs.map fun g => g s) where
  alike _ _ := ⟨rfl, rfl, rfl, rfl, fun _ => rfl, fun _ => rfl⟩
  resolve schema s s' := by
    rw [Typing.resolveNode, Typing.resolveNode, resolveItems_confined h schema .null s s']
  woven target types := by
    have hfilled := fun pieces => Woven.filled pieces (woven_args h target types)
    simp only [List.map_map, Function.comp_def] at hfilled
    simp only [generate_call, List.length_map, List.map_map, Function.comp_def]
    exact hfilled _

theorem confined_sequence (h : ∀ g ∈ gs, Confined g) :
    Confined fun s => .sequence m (gs.map fun g => g s) where
  alike _ _ := ⟨rfl, rfl, rfl, rfl, fun _ => rfl, fun _ => rfl⟩
  resolve schema s s' := by
    rw [Typing.resolveNode, Typing.resolveNode, resolveItems_confined h schema .null s s']
  woven target types := by
    simpa only [generate_sequence, List.map_map, Function.comp_def] using
      Woven.intercalate "; " (woven_args h target types)

def around (before : List Expr) (g : String → Expr) (after : List Expr) : List (String → Expr) :=
  before.map (fun e _ => e) ++ g :: after.map fun e _ => e

theorem map_around (before after : List Expr) (s : String) :
    (around before g after).map (fun k => k s) = before ++ g s :: after := by
  simp [around, Function.comp_def]

theorem confined_around (before after : List Expr) (h : Confined g) :
    ∀ k ∈ around before g after, Confined k := by
  intro k hk
  simp only [around, List.mem_append, List.mem_map, List.mem_cons] at hk
  obtain ⟨e, -, rfl⟩ | rfl | ⟨e, -, rfl⟩ := hk
  · exact confined_const e
  · exact h
  · exact confined_const e

end

theorem confined_wrap (f : Expr.Frame) {g : String → Expr} (h : Confined g) :
    Confined fun s => f.wrap (g s) := by
  cases f with
  | left m op right => exact confined_binary op h (confined_const right)
  | right m op left => exact confined_binary op (confined_const left) h
  | operand m op => exact confined_unary op h
  | inner m => exact confined_group h
  | condition m yes no => exact confined_conditional h (confined_const yes) (confined_const no)
  | yes m condition no =>
    exact confined_conditional (confined_const condition) h (confined_const no)
  | no m condition yes =>
    exact confined_conditional (confined_const condition) (confined_const yes) h
  | argument m name before after =>
    have hcall := confined_call (m := m) name (confined_around before after h)
    simp only [map_around] at hcall
    exact hcall
  | item m before after =>
    have hsequence := confined_sequence (m := m) (confined_around before after h)
    simp only [map_around] at hsequence
    exact hsequence

theorem confined_plug (C : Expr.Context) (m : Mark) :
    Confined fun s => C.plug (.literal m (.text s)) := by
  induction C with
  | nil => exact confined_text m
  | cons f C ih => exact confined_wrap f ih

theorem infer_confined {g : String → Expr} (h : Confined g) (schema : Schema) (s s' : String) :
    Typing.infer schema (g s) = Typing.infer schema (g s') := by
  rw [Typing.infer, Typing.infer, Typing.resolve, Typing.resolve, h.resolve schema s s']

theorem text_confined (e : Expr) (m : Mark) (s : String) :
    (.literal m (.text s) ∈ e.nodes ↔ ∃ C : Expr.Context, C.plug (.literal m (.text s)) = e) ∧
    ∀ C : Expr.Context, C.plug (.literal m (.text s)) = e →
      (∀ schema s', Typing.infer schema (C.plug (.literal m (.text s'))) =
        Typing.infer schema e) ∧
      ∀ types, ∃ sql script : List String, ∀ s',
        Target.sql.generate types (C.plug (.literal m (.text s'))) =
          (Sql.quote s').intercalate sql ∧
        Target.script.generate types (C.plug (.literal m (.text s'))) =
          (Script.quote s').intercalate script := by
  refine ⟨Expr.mem_nodes_iff, ?_⟩
  rintro C rfl
  have hconfined := confined_plug C m
  refine ⟨fun schema s' => infer_confined hconfined schema s' s, fun types => ?_⟩
  obtain ⟨x, xs, hsql⟩ := (hconfined.woven .sql types).segments
  obtain ⟨y, ys, hscript⟩ := (hconfined.woven .script types).segments
  exact ⟨x :: xs, y :: ys, fun s' => ⟨hsql s', hscript s'⟩⟩

/-- `-SEARCH("a", "banana", 2)`: its SQL holds the first argument twice. -/
theorem text_confined_search :
    let text : Expr := .literal ⟨1, 13⟩ (.text "banana")
    let start : Expr := .literal ⟨2, 23⟩ (.number (.ofDigit 2))
    let C : Expr.Context := [.operand ⟨4, 0⟩ .negate, .argument ⟨3, 1⟩ "SEARCH" [] [text, start]]
    let e : Expr := .unary ⟨4, 0⟩ .negate
      (.call ⟨3, 1⟩ "SEARCH" [.literal ⟨0, 8⟩ (.text "a"), text, start])
    C.plug (.literal ⟨0, 8⟩ (.text "a")) = e ∧
    (∀ schema s', Typing.infer schema (C.plug (.literal ⟨0, 8⟩ (.text s'))) =
      Typing.infer schema e) ∧
    ∀ types, ∃ sql script : List String, ∀ s',
      Target.sql.generate types (C.plug (.literal ⟨0, 8⟩ (.text s'))) =
        (Sql.quote s').intercalate sql ∧
      Target.script.generate types (C.plug (.literal ⟨0, 8⟩ (.text s'))) =
        (Script.quote s').intercalate script := by
  intro text start C e
  exact ⟨rfl, (text_confined e ⟨0, 8⟩ "a").2 C rfl⟩

end Output

end FieldFormula
