import FieldFormula.Proofs.Parser.Printing
import FieldFormula.Proofs.Token.Joining
import Mathlib.Tactic.Ring

/-!
How high a tree the limit of nesting lets through. A group may hold as high a tree as one level less
allows, and a chain of as many operators as there are levels may stand on top of it. Main statement:
under `m` levels no expression is higher than `m * (m + 3) / 2`, and some formula is that high
(`height_bound_sharp`).
-/
namespace FieldFormula

namespace Expr

def extended (e : Expr) : Nat → Expr
  | 0 => e
  | count + 1 => binary ⟨0, 0⟩ .add (e.extended count) (literal ⟨0, 0⟩ (.number .zero))

/-- The highest tree that `m` levels let through: a group around the tower of one level less, and a
chain of `m` operators on top. -/
def tower : Nat → Expr
  | 0 => literal ⟨0, 0⟩ (.number .zero)
  | m + 1 => (group ⟨0, 0⟩ (tower m)).extended (m + 1)

attribute [local simp] extended tower

section Extended
variable (e : Expr) (count : Nat)

theorem height_extended : (e.extended count).height = e.height + count := by
  induction count with
  | zero => rfl
  | succ count ih => rw [extended, height, ih, height, Nat.max_zero, Nat.add_assoc]

theorem links_extended : (e.extended count).links = e.links + count := by
  induction count with
  | zero => rfl
  | succ count ih => rw [extended, links, ih, Nat.add_assoc]

theorem charge_extended (h : e.links = 0) : (e.extended count).charge = max e.charge count := by
  induction count with
  | zero => rw [extended, Nat.max_zero]
  | succ count ih => rw [extended, charge, ih, links_extended, charge, h]; omega

theorem add_le_strength_extended (h : e.strength = 8) :
    BinaryOp.add.strength ≤ (e.extended count).strength := by
  cases count with
  | zero => rw [extended, h]; decide
  | succ count => exact Nat.le_refl _

theorem all_extended {P : Expr → Prop} (h : e.All P)
    (hzero : P (literal ⟨0, 0⟩ (.number .zero)))
    (hlink : ∀ k, P (e.extended (k + 1))) : (e.extended count).All P := by
  induction count with
  | zero => exact h
  | succ count ih => exact all_binary.2 ⟨ih, all_literal.2 hzero, hlink count⟩

end Extended

theorem height_tower (m : Nat) : 2 * (tower m).height = m * (m + 3) := by
  induction m with
  | zero => rfl
  | succ m ih =>
    calc 2 * (tower (m + 1)).height = 2 * (tower m).height + 2 * (m + 2) := by
          rw [tower, height_extended, height]; omega
      _ = (m + 1) * (m + 1 + 3) := by rw [ih]; ring

theorem charge_tower (m : Nat) : (tower m).charge = m := by
  induction m with
  | zero => rfl
  | succ m ih => rw [tower, charge_extended _ _ rfl, charge, ih, Nat.max_self]

theorem tower_obeys (m : Nat) : (tower m).All Obeys := by
  induction m with
  | zero => exact all_literal.2 trivial
  | succ m ih =>
    apply all_extended _ _ (all_group.2 ⟨ih, trivial⟩) trivial
    intro k
    refine ⟨add_le_strength_extended _ k rfl, ?_, by decide⟩
    intro hcomparison
    cases hcomparison

theorem tower_placed (m : Nat) : (tower m).All Placed := by
  induction m with
  | zero => exact all_literal.2 trivial
  | succ m ih => exact all_extended _ _ (all_group.2 ⟨ih, trivial⟩) trivial fun _ => trivial

theorem tower_printable (m : Nat) : (tower m).Printable := by
  cases m <;> exact ⟨tower_obeys _, tower_placed _⟩

theorem heightOf_shapes {es : List Expr} (h : ∀ e ∈ es, e.shape.height = e.height) :
    heightOf (shapes es) = heightOf es := by
  induction es with
  | nil => rfl
  | cons e es ih =>
    obtain ⟨hfirst, hothers⟩ := List.forall_mem_cons.1 h
    rw [shapes, heightOf, heightOf, hfirst, ih hothers]

theorem height_shape (e : Expr) : e.shape.height = e.height := by
  induction e with
  | literal _ _ | field _ _ => rfl
  | binary m op left right ihl ihr => rw [shape, height, height, ihl, ihr]
  | unary m op operand ih => rw [shape, height, height, ih]
  | group m inner ih => rw [shape, height, height, ih]
  | conditional m c y n ihc ihy ihn => rw [shape, height, height, ihc, ihy, ihn]
  | call m name args ih => rw [shape, height, height, heightOf_shapes ih]
  | sequence m items ih => rw [shape, height, height, heightOf_shapes ih]

def extendedText (cs : List Char) : Nat → List Char
  | 0 => cs
  | count + 1 => extendedText cs count ++ [' ', '+', ' ', '0']

def towerText : Nat → List Char
  | 0 => [' ', '0']
  | m + 1 => extendedText ([' ', '('] ++ (towerText m ++ [' ', ')'])) (m + 1)

attribute [local simp] extendedText towerText

end Expr

def Spelled (cs : List Char) (kinds : List Token.Kind) : Prop :=
  ∀ offset, ∃ ts, Scanned offset cs ts ∧ ts.map Token.kind = kinds ++ [.eof]

theorem Spelled.append {cs more : List Char} {kinds others : List Token.Kind}
    (h : Spelled cs kinds) (hmore : Spelled more others) (hparted : Text.Parted more) :
    Spelled (cs ++ more) (kinds ++ others) := by
  intro offset
  obtain ⟨ts, hts, hkinds⟩ := h offset
  obtain ⟨us, hus, hothers⟩ := hmore (offset + cs.length)
  refine ⟨ts.dropLast ++ us, hts.append hparted hus, ?_⟩
  rw [List.map_append, List.map_dropLast, hkinds, List.dropLast_concat, hothers,
    List.append_assoc]

theorem spelled_token {text : List Char} {kind : Token.Kind} (hne : kind ≠ .eof)
    (hread : Token.read text = .ok kind text.length) : Spelled (' ' :: text) [kind] := by
  intro offset
  have hscanned := @Scanned.token offset [' '] text [] kind _ rfl hne
    (by rw [List.append_nil]; exact hread) (.eof rfl)
  rw [List.append_nil] at hscanned
  exact ⟨_, hscanned, rfl⟩

theorem parted_of_head? {cs : List Char} (h : cs.head? = some ' ') : Text.Parted cs := by
  intro c hc
  rw [h] at hc
  cases hc
  rfl

namespace Expr

theorem spelled_extended {e : Expr} {cs : List Char} (h : Spelled cs e.kinds) (count : Nat) :
    Spelled (extendedText cs count) (e.extended count).kinds := by
  induction count with
  | zero => exact h
  | succ count ih =>
    have hplus : Spelled [' ', '+'] [.operator .add] := spelled_token (by simp) rfl
    have hzero : Spelled [' ', '0'] [.literal (.number .zero)] :=
      spelled_token (by simp) rfl
    rw [extendedText, extended, kinds]
    exact ih.append (hplus.append hzero (parted_of_head? rfl)) (parted_of_head? rfl)

theorem head?_extendedText {cs : List Char} {c : Char} (h : cs.head? = some c) (count : Nat) :
    (extendedText cs count).head? = some c := by
  induction count with
  | zero => exact h
  | succ count ih => rw [extendedText, List.head?_append, ih]; rfl

theorem head?_towerText (m : Nat) : (towerText m).head? = some ' ' := by
  cases m with
  | zero => rfl
  | succ m => exact head?_extendedText rfl (m + 1)

theorem spelled_tower (m : Nat) : Spelled (towerText m) (tower m).kinds := by
  induction m with
  | zero => exact spelled_token (by simp) rfl
  | succ m ih =>
    apply spelled_extended
    have hopen : Spelled [' ', '('] [.leftParen] := spelled_token (by simp) rfl
    have hclose : Spelled [' ', ')'] [.rightParen] := spelled_token (by simp) rfl
    have hparted : Text.Parted (towerText m ++ [' ', ')']) := by
      apply parted_of_head?
      rw [List.head?_append, head?_towerText]
      rfl
    exact hopen.append (ih.append hclose (parted_of_head? rfl)) hparted

end Expr

namespace Parser

theorem height_le {m : Nat} {e : Expr} (hplaced : e.All Expr.Placed) (hcharge : e.charge ≤ m) :
    e.height ≤ m * (m + 3) / 2 := by
  have hheight := Expr.height_le_of_links (Expr.height_le_links hplaced)
  have hmono : e.charge * (e.charge + 3) ≤ m * (m + 3) := Nat.mul_le_mul hcharge (by omega)
  omega

theorem exists_tower (m : Nat) :
    ∃ source tokens e q, tokenize source = .ok tokens ∧ parse m source = .ok e ∧
      expression (ofTokens m tokens) = .ok e q ∧ e.shape = (Expr.tower m).shape := by
  obtain ⟨tokens, hscanned, hkinds⟩ := Expr.spelled_tower m 0
  have htokens : tokenize (String.ofList (Expr.towerText m)) = .ok tokens := by
    rw [tokenize_eq_ok_iff, String.toList_ofList]
    exact hscanned
  have hprintable := Expr.tower_printable m
  have hfaces : (ofTokens m tokens).Faces ((Expr.tower m).kinds ++ [.eof]) (Expr.tower m).charge :=
    faces_ofTokens (.inr hkinds) hprintable.canonical (Expr.charge_tower m).le
  obtain ⟨e, hparse, hshape⟩ := parse_of_faces hprintable hfaces
  obtain ⟨q, hexpression⟩ : ∃ q, expression (ofTokens m tokens) = .ok e q := by
    obtain ⟨items, q, hstatements, -, rfl | ⟨-, rfl⟩⟩ := parseTokens_eq_ok_iff.1 hparse
    · cases hstatements with
      | last he _ | closed he _ _ =>
        exact ⟨_, (expression_eq_ok_iff (closed_ofTokens m tokens)).2 he⟩
      | next _ _ _ hothers => cases hothers
    · cases m <;> cases hshape
  refine ⟨_, tokens, e, q, htokens, ?_, hexpression, hshape⟩
  rw [parse, htokens]
  change (parseTokens m tokens).mapError CompileError.parse = .ok e
  rw [hparse]
  rfl

theorem height_bound_sharp (m : Nat) :
    (∀ tokens e q, expression (ofTokens m tokens) = .ok e q → e.height ≤ m * (m + 3) / 2) ∧
    (∀ tokens e, parseTokens m tokens = .ok e → ∀ s ∈ e.statements, s.height ≤ m * (m + 3) / 2) ∧
    ∃ source tokens e q, tokenize source = .ok tokens ∧ parse m source = .ok e ∧
      expression (ofTokens m tokens) = .ok e q ∧ e.height = m * (m + 3) / 2 := by
  refine ⟨?_, ?_, ?_⟩
  · intro tokens e q h
    have hrun := (expression_eq_ok_iff (closed_ofTokens m tokens)).1 h
    obtain ⟨hdepth, hlimit⟩ := depth_ofTokens m tokens
    have hbounded := hrun.bounded (by omega)
    exact height_le (Expr.all_and.1 hrun.graded.1).2 (by omega)
  · intro tokens e h s hs
    obtain ⟨hplaced, hcharge⟩ := mem_statements h hs
    exact height_le hplaced (hcharge.trans (parseTokens_charge h).1)
  · obtain ⟨source, tokens, e, q, htokens, hparse, hexpression, hshape⟩ := exists_tower m
    refine ⟨source, tokens, e, q, htokens, hparse, hexpression, ?_⟩
    have htower := Expr.height_tower m
    rw [← Expr.height_shape, hshape, Expr.height_shape]
    omega

end Parser

end FieldFormula
