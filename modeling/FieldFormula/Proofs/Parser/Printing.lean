import FieldFormula.Proofs.Parser.Depth

/-!
Every tree of the grammar is read back from the tokens it is written with. An operand is read up to
the token behind it; a chain of operators hands its first operands over to the operators that
follow, so its rule speaks of what the rest of the chain will give. Main statement: the parser
accepts the tokens of every tree of the grammar and gives that tree, marks apart
(`parse_kinds`).
-/
namespace FieldFormula

theorem Builtin.nodup_names : (Builtin.all.map Builtin.name).Nodup := by decide +kernel

theorem Builtin.find?_of_upper {f : Builtin} (hf : f ∈ Builtin.all) {name : String}
    (h : Text.upper name = f.name) : Builtin.find? name = some f := by
  have hnames : Builtin.all.Pairwise fun f g => f.name ≠ g.name :=
    List.pairwise_map.1 Builtin.nodup_names
  obtain ⟨before, after, hall⟩ := List.append_of_mem hf
  rw [hall, List.pairwise_append] at hnames
  rw [Builtin.find?, h, hall, List.find?_append]
  have hbefore : before.find? (fun g => g.name == f.name) = none := by
    rw [List.find?_eq_none]
    intro g hg
    simpa using hnames.2.2 g hg f (by simp)
  rw [hbefore]
  simp

theorem Builtin.upper_name {f : Builtin} (hf : f ∈ Builtin.all) : Text.upper f.name = f.name := by
  have hall : ∀ f ∈ Builtin.all, Text.upper f.name = f.name := by decide +kernel
  exact hall f hf

theorem Token.Kind.eq_of_canonical {kind other : Token.Kind} (h : kind.canonical = other)
    (hne : ∀ name, other ≠ .identifier name) : kind = other := by
  cases kind with
  | identifier name => exact absurd h.symm (hne _)
  | _ => exact h

theorem Token.Kind.identifier_of_canonical {kind : Token.Kind} {name : String}
    (h : kind.canonical = .identifier name) :
    ∃ written, kind = .identifier written ∧ Text.upper written = name := by
  cases kind with
  | identifier written => exact ⟨written, rfl, Token.Kind.identifier.inj h⟩
  | _ => cases h

namespace Parser

structure Faces (p : Parser) (ks : List Token.Kind) (levels : Nat) : Prop where
  closed : p.Closed
  kinds : p.kinds = ks
  room : p.depth + levels ≤ p.limit

structure Reaches (p q : Parser) (levels : Nat) (ks : List Token.Kind) : Prop where
  closed : q.Closed
  kinds : q.kinds = ks
  depth : q.depth = p.depth + levels
  limit : q.limit = p.limit

def Follows (strength : Nat) (ks : List Token.Kind) : Prop :=
  ∀ op, ks.head? = some (.operator op) → op.strength ≤ strength

section Faces
variable {p q : Parser} {kind : Token.Kind} {ks : List Token.Kind} {levels : Nat}

theorem canonical_of_cons (h : p.kinds = kind :: ks) : p.current.kind.canonical = kind :=
  List.head_eq_of_cons_eq h

theorem kind_of_cons (h : p.kinds = kind :: ks) (hne : ∀ name, kind ≠ .identifier name) :
    p.current.kind = kind :=
  Token.Kind.eq_of_canonical (canonical_of_cons h) hne

theorem step_kinds_of_cons (hp : p.Closed) (h : p.kinds = kind :: ks) (hne : kind ≠ .eof) :
    p.step.kinds = ks := by
  have heof : p.current.kind ≠ .eof := by
    intro hk
    have hkind := canonical_of_cons h
    rw [hk] at hkind
    exact hne hkind.symm
  rw [step_kinds hp rfl heof] at h
  exact List.tail_eq_of_cons_eq h

theorem Faces.step (h : p.Faces (kind :: ks) levels) (hne : kind ≠ .eof) :
    p.step.Faces ks levels :=
  ⟨step_closed h.closed, step_kinds_of_cons h.closed h.kinds hne, by simpa using h.room⟩

theorem Faces.deeper (h : p.Faces ks (levels + 1)) : p.deeper.Faces ks levels :=
  ⟨h.closed, h.kinds, by have := h.room; simp only [deeper_depth, deeper_limit]; omega⟩

theorem Faces.lt (h : p.Faces ks (levels + 1)) : p.depth < p.limit := by
  have := h.room
  omega

theorem Faces.mono (h : p.Faces ks levels) {fewer : Nat} (hle : fewer ≤ levels) :
    p.Faces ks fewer :=
  ⟨h.closed, h.kinds, by have := h.room; omega⟩

theorem Reaches.faces {counted : Nat} (h : p.Reaches q counted ks)
    (hroom : p.depth + counted + levels ≤ p.limit) : q.Faces ks levels :=
  ⟨h.closed, h.kinds, by rw [h.depth, h.limit]; exact hroom⟩

theorem Reaches.step (h : p.Reaches q levels (kind :: ks)) (hne : kind ≠ .eof) :
    p.Reaches q.step levels ks :=
  ⟨step_closed h.closed, step_kinds_of_cons h.closed h.kinds hne, by rw [step_depth, h.depth],
    by rw [step_limit, h.limit]⟩

theorem Faces.after {ls : List Token.Kind} (h : p.Faces ks levels) (hq : p.Reaches q 0 ls) :
    q.Faces ls levels :=
  hq.faces h.room

theorem Reaches.trans {r : Parser} {ls : List Token.Kind} (h : p.Reaches q 0 ks)
    (hr : q.Reaches r levels ls) : p.Reaches r levels ls :=
  ⟨hr.closed, hr.kinds, by rw [hr.depth, h.depth, Nat.add_zero], by rw [hr.limit, h.limit]⟩

theorem Reaches.leave {inner : Parser} (h : inner.Reaches q 0 ks)
    (hd : inner.depth = p.depth + 1) (hl : inner.limit = p.limit) :
    p.Reaches (q.shallower 1).numbered 0 ks := by
  have hdepth := h.depth
  exact ⟨h.closed, h.kinds, by simp only [numbered_depth, shallower_depth]; omega,
    by rw [numbered_limit, shallower_limit, h.limit, hl]⟩

end Faces

def Phrase.Opening : Phrase → Prop
  | chain .. | call .. | arguments _ => False
  | _ => True

theorem Run.opens {p q : Parser} {s : Phrase} (h : Run p s q) (hs : s.Opening) :
    p.current.kind ≠ .rightParen ∧ p.current.kind ≠ .eof := by
  induction h with
  | binary _ _ ih _ => exact ih trivial
  | unaryPrimary _ _ ih => exact ih trivial
  | lastArgument _ _ ih => exact ih trivial
  | nextArgument _ _ _ ih _ => exact ih trivial
  | unaryOperator hop _ _ _ => constructor <;> intro hk <;> rw [hk] at hop <;> cases hop
  | literal hk | field hk | group hk _ _ _ _ | identifier hk _ _ => simp [hk]
  | conditional hk _ _ _ _ _ _ _ _ _ _ _ => simp [hk]
  | _ => exact absurd hs not_false

end Parser

namespace Expr
open FieldFormula.Parser (Run Reaches Follows Faces kind_of_cons)

attribute [local simp] shape shapes

def ReadAsOperand (e : Expr) : Prop :=
  ∀ (p : Parser) (rest : List Token.Kind), p.Faces (e.kinds ++ rest) e.charge →
    ∃ e' q, e'.shape = e.shape ∧ p.Reaches q 0 rest ∧ Run p (.unary e') q

/-- The parser takes the expression as the start of a chain, whatever the chain goes on to give. -/
def ReadInChain (e : Expr) : Prop :=
  ∀ (p : Parser) (rest : List Token.Kind) (least : Nat), p.Faces (e.kinds ++ rest) e.charge →
    Follows e.strength rest → least ≤ e.strength →
    ∃ e' q, e'.shape = e.shape ∧ p.Reaches q e.links rest ∧
      ∀ f r, Run q (.chain least e' e.links e.isComparison f) r → Run p (.binary least f) r

theorem ReadAsOperand.readInChain {e : Expr} (h : e.ReadAsOperand) (hs : e.strength = 8) :
    e.ReadInChain := by
  intro p rest least hp _ _
  obtain ⟨e', q, hshape, hq, hrun⟩ := h p rest hp
  have hcomparison : e.isComparison = false := by
    rw [Bool.eq_false_iff, ne_eq, isComparison_iff]
    omega
  rw [links_of_strength hs, hcomparison]
  exact ⟨e', q, hshape, hq, fun f r hchain => .binary hrun hchain⟩

theorem ReadInChain.ended {e : Expr} (h : e.ReadInChain) {p : Parser} {rest : List Token.Kind}
    {least : Nat} (hp : p.Faces (e.kinds ++ rest) e.charge) (hs : least ≤ e.strength)
    (hrest : ∀ op, rest.head? = some (.operator op) → op.strength < least) :
    ∃ e' q, e'.shape = e.shape ∧ p.Reaches q 0 rest ∧ Run p (.binary least e') q := by
  obtain ⟨e', q, hshape, hq, hrun⟩ := h p rest least hp
    (fun op hop => by have := hrest op hop; omega) hs
  have hend : Parser.infixOp? least e.isComparison q.current.kind = none := by
    rw [Parser.infixOp?_eq_none_iff]
    intro op hop
    refine .inl (hrest op ?_)
    rw [← hq.kinds]
    simp [Parser.kinds, Parser.remaining, hop, Token.Kind.canonical]
  refine ⟨e', q.shallower e.links, hshape, ⟨hq.closed, hq.kinds, ?_, hq.limit⟩,
    hrun _ _ (.chainEnd hend)⟩
  simp [hq.depth]

theorem readInChain_binary {m : Mark} {op : BinaryOp} {left right : Expr}
    (hobeys : (binary m op left right).Obeys) (hl : left.ReadInChain) (hr : right.ReadInChain) :
    (binary m op left right).ReadInChain := by
  intro p rest least hp hfollows hleast
  obtain ⟨hleft, hcomparison, hright⟩ := hobeys
  rw [strength_binary] at hfollows hleast
  have hroom := hp.room
  simp only [kinds, List.append_assoc, List.cons_append, charge] at hp hroom
  -- the left operand is a start of the same chain, so it stops at `op` with its links still open
  obtain ⟨l', q, hlshape, hq, hlrun⟩ := hl p (.operator op :: (right.kinds ++ rest)) least
    (hp.mono (by omega)) (by rintro _ ⟨⟩; exact hleft) (by omega)
  have hqfaces : q.Faces (.operator op :: (right.kinds ++ rest)) (right.charge + 1) :=
    hq.faces (by omega)
  obtain ⟨r', s, hrshape, hs, hrrun⟩ := hr.ended (hqfaces.step (by simp)).deeper hright
    (fun other hother => Nat.lt_succ_of_le (hfollows other hother))
  have hop : Parser.infixOp? least left.isComparison q.current.kind = some op := by
    rw [Parser.infixOp?_eq_some_iff]
    refine ⟨kind_of_cons hqfaces.kinds (by simp), hleast, fun hc => ?_⟩
    have hlt := hcomparison hc
    rw [comparison_iff] at hc
    rw [Bool.eq_false_iff, ne_eq, isComparison_iff]
    omega
  refine ⟨binary (s.markAt q.current.position) op l' r', s.numbered, ?_, ?_, ?_⟩
  · rw [shape, shape, hlshape, hrshape]
  · refine ⟨hs.closed, hs.kinds, ?_, ?_⟩
    · rw [links, Parser.numbered_depth, hs.depth, Parser.deeper_depth, Parser.step_depth, hq.depth]
      omega
    · rw [Parser.numbered_limit, hs.limit, Parser.deeper_limit, Parser.step_limit, hq.limit]
  · exact fun f r hchain => hlrun f r (.chainLink hop hqfaces.lt hrrun hchain)

theorem length_shapes (es : List Expr) : (shapes es).length = es.length := by
  induction es with
  | nil => rfl
  | cons e es ih => rw [shapes, List.length_cons, List.length_cons, ih]

theorem readAsOperand_leaf {e : Expr} {kind : Token.Kind} (hkinds : e.kinds = [kind])
    (hne : kind ≠ .eof) (hp : Parser.prefixOp? kind = none)
    (hid : ∀ name, kind ≠ .identifier name)
    (hrun : ∀ p : Parser, p.current.kind = kind →
      ∃ e', e'.shape = e.shape ∧ Run p (.primary e') p.step.numbered) : e.ReadAsOperand := by
  intro p rest h
  rw [hkinds] at h
  have hk := kind_of_cons h.kinds hid
  obtain ⟨e', hshape, he⟩ := hrun p hk
  have hstep := h.step hne
  exact ⟨e', p.step.numbered, hshape, ⟨hstep.closed, hstep.kinds, by simp, by simp⟩,
    .unaryPrimary (by rw [hk, hp]) he⟩

theorem readAsOperand_unary {m : Mark} {op : UnaryOp} {operand : Expr}
    (ho : operand.ReadAsOperand) : (unary m op operand).ReadAsOperand := by
  intro p rest h
  obtain ⟨kind, hkinds, hprefix, hne, hid⟩ : ∃ kind, (unary m op operand).kinds =
      kind :: operand.kinds ∧ Parser.prefixOp? kind = some op ∧ kind ≠ .eof ∧
      ∀ name, kind ≠ .identifier name := by
    cases op with
    | negate => exact ⟨_, rfl, rfl, by simp, by simp⟩
    | not => exact ⟨_, rfl, rfl, by simp, by simp⟩
  rw [hkinds, List.cons_append, charge] at h
  obtain ⟨operand', q, hshape, hq, hrun⟩ := ho _ rest (h.step hne).deeper
  exact ⟨_, _, by rw [shape, shape, hshape], hq.leave (by simp) (by simp),
    .unaryOperator (by rw [kind_of_cons h.kinds hid, hprefix]) h.lt hrun⟩

theorem readAsOperand_group {m : Mark} {inner : Expr} (hi : inner.ReadInChain) :
    (group m inner).ReadAsOperand := by
  intro p rest h
  simp only [kinds, charge, List.cons_append, List.append_assoc, List.nil_append] at h
  have hk := kind_of_cons h.kinds (by simp)
  obtain ⟨inner', q, hshape, hq, hrun⟩ := hi.ended (h.step (by simp)).deeper
    (Nat.zero_le _) (by rintro _ ⟨⟩)
  exact ⟨_, _, by rw [shape, shape, hshape], (hq.step (by simp)).leave (by simp) (by simp),
    .unaryPrimary (by rw [hk]; rfl)
      (.group hk h.lt hrun (kind_of_cons hq.kinds (by simp)))⟩

theorem readAsOperand_conditional {m : Mark} {c y n : Expr} (hc : c.ReadInChain)
    (hy : y.ReadInChain) (hn : n.ReadInChain) : (conditional m c y n).ReadAsOperand := by
  intro p rest h
  have hroom := h.room
  simp only [kinds, charge, List.cons_append, List.append_assoc, List.nil_append] at h hroom
  have hk := kind_of_cons h.kinds (by simp)
  have hparen := h.step (by simp)
  have hcfaces := (hparen.step (by simp)).deeper
  obtain ⟨c', q, hcshape, hq, hcrun⟩ := hc.ended (hcfaces.mono (by omega))
    (Nat.zero_le _) (by rintro _ ⟨⟩)
  have hyfaces := hcfaces.after (hq.step (by simp))
  obtain ⟨y', r, hyshape, hr, hyrun⟩ := hy.ended (hyfaces.mono (by omega))
    (Nat.zero_le _) (by rintro _ ⟨⟩)
  have hnfaces := hyfaces.after (hr.step (by simp))
  obtain ⟨n', s, hnshape, hs, hnrun⟩ := hn.ended (hnfaces.mono (by omega))
    (Nat.zero_le _) (by rintro _ ⟨⟩)
  have hreach := (hq.step (by simp)).trans ((hr.step (by simp)).trans (hs.step (by simp)))
  refine ⟨_, _, ?_, hreach.leave (by simp) (by simp), .unaryPrimary (by rw [hk]; rfl)
    (.conditional hk (kind_of_cons hparen.kinds (by simp)) h.lt hcrun
      (kind_of_cons hq.kinds (by simp)) hyrun (kind_of_cons hr.kinds (by simp)) hnrun
      (kind_of_cons hs.kinds (by simp)))⟩
  rw [shape, shape, hcshape, hyshape, hnshape]

theorem run_argumentsFrom {es : List Expr} (hne : es ≠ []) (hes : ∀ e ∈ es, e.ReadInChain)
    {p : Parser} {rest : List Token.Kind}
    (h : p.Faces (kindsOf .comma es ++ .rightParen :: rest) (chargeOf es)) :
    ∃ es' q, shapes es' = shapes es ∧ p.Reaches q 0 (.rightParen :: rest) ∧
      Run p (.argumentsFrom es') q := by
  induction es generalizing p with
  | nil => exact absurd rfl hne
  | cons e es ih =>
    obtain ⟨he, hes⟩ := List.forall_mem_cons.1 hes
    have hroom := h.room
    rw [chargeOf] at h
    cases es with
    | nil =>
      obtain ⟨e', q, hshape, hq, hrun⟩ := he.ended (h.mono (by omega)) (Nat.zero_le _)
        (by rintro _ ⟨⟩)
      have hend := kind_of_cons hq.kinds (by simp)
      exact ⟨[e'], q, by simp only [shapes, hshape], hq, .lastArgument hrun (by simp [hend])⟩
    | cons next es =>
      rw [kindsOf, List.append_assoc, List.cons_append] at h
      obtain ⟨e', q, hshape, hq, hrun⟩ := he.ended (h.mono (by omega)) (Nat.zero_le _)
        (by rintro _ ⟨⟩)
      obtain ⟨es', r, hshapes, hr, hruns⟩ := ih (by simp) hes
        ((h.after (hq.step (by simp))).mono (by omega))
      exact ⟨e' :: es', r, by rw [shapes, shapes, hshape, hshapes],
        (hq.step (by simp)).trans hr,
        .nextArgument hrun (kind_of_cons hq.kinds (by simp)) hruns⟩

theorem readAsOperand_call {m : Mark} {name : String} {args : List Expr}
    (hplaced : (call m name args).Placed) (hargs : ∀ e ∈ args, e.ReadInChain) :
    (call m name args).ReadAsOperand := by
  intro p rest h
  obtain ⟨f, hf, rfl, harity⟩ := hplaced
  simp only [kinds, charge, List.cons_append, List.append_assoc, List.nil_append] at h
  obtain ⟨written, hk, hname⟩ :=
    Token.Kind.identifier_of_canonical (Parser.canonical_of_cons h.kinds)
  have hparen := h.step (by simp)
  have hafaces := (hparen.step (by simp)).deeper
  obtain ⟨args', q, hshapes, hq, hrun⟩ : ∃ args' q, shapes args' = shapes args ∧
      p.step.step.deeper.Reaches q 0 (.rightParen :: rest) ∧
      Run p.step.step.deeper (.arguments args') q := by
    cases args with
    | nil =>
      exact ⟨[], _, rfl, ⟨hafaces.closed, hafaces.kinds, rfl, rfl⟩,
        .noArguments (kind_of_cons hafaces.kinds (by simp))⟩
    | cons first others =>
      obtain ⟨args', q, hshapes, hq, hrun⟩ := run_argumentsFrom (by simp) hargs hafaces
      exact ⟨args', q, hshapes, hq, .someArguments (hrun.opens trivial).1 hrun⟩
  have hlength : f.arity.accepts args'.length = true := by
    rwa [← length_shapes args', hshapes, length_shapes]
  refine ⟨_, _, ?_, (hq.step (by simp)).leave (by simp) (by simp), .unaryPrimary (by rw [hk]; rfl)
    (.identifier hk (.call (kind_of_cons hparen.kinds (by simp))
      (Builtin.find?_of_upper hf hname) hparen.lt hrun (kind_of_cons hq.kinds (by simp))
      hlength))⟩
  rw [shape, shape, hshapes]

theorem reads {e : Expr} (hobeys : e.All Obeys) (hplaced : e.All Placed) :
    e.ReadInChain ∧ (e.strength = 8 → e.ReadAsOperand) := by
  have operand {e : Expr} (hs : e.strength = 8) (h : e.ReadAsOperand) :
      e.ReadInChain ∧ (e.strength = 8 → e.ReadAsOperand) := ⟨h.readInChain hs, fun _ => h⟩
  induction e with
  | literal m value =>
    exact operand rfl (readAsOperand_leaf rfl (by simp) rfl (by simp)
      fun p hk => ⟨_, by rfl, .literal hk⟩)
  | field m name =>
    exact operand rfl (readAsOperand_leaf rfl (by simp) rfl (by simp)
      fun p hk => ⟨_, by rfl, .field hk⟩)
  | binary m op left right ihl ihr =>
    obtain ⟨hol, hor, ho⟩ := all_binary.1 hobeys
    obtain ⟨hpl, hpr, -⟩ := all_binary.1 hplaced
    refine ⟨readInChain_binary ho (ihl hol hpl).1 (ihr hor hpr).1, fun hs => ?_⟩
    have hop := op.strength_le
    rw [strength_binary] at hs
    omega
  | unary m op inner ih =>
    obtain ⟨hoi, ho⟩ := all_unary.1 hobeys
    exact operand rfl (readAsOperand_unary ((ih hoi (all_unary.1 hplaced).1).2 ho))
  | group m inner ih =>
    exact operand rfl
      (readAsOperand_group (ih (all_group.1 hobeys).1 (all_group.1 hplaced).1).1)
  | conditional m c y n ihc ihy ihn =>
    obtain ⟨hoc, hoy, hon, -⟩ := all_conditional.1 hobeys
    obtain ⟨hpc, hpy, hpn, -⟩ := all_conditional.1 hplaced
    exact operand rfl
      (readAsOperand_conditional (ihc hoc hpc).1 (ihy hoy hpy).1 (ihn hon hpn).1)
  | call m name args ih =>
    obtain ⟨hpa, hp⟩ := all_call.1 hplaced
    exact operand rfl (readAsOperand_call hp fun e he =>
      (ih e he ((all_call.1 hobeys).1 e he) (hpa e he)).1)
  | sequence _ _ _ => exact absurd hplaced.root not_false

theorem run_statements {es : List Expr} (hne : es ≠ []) (hes : ∀ e ∈ es, e.ReadInChain)
    {p : Parser} (h : p.Faces (kindsOf .semicolon es ++ [.eof]) (chargeOf es)) :
    ∃ es' q, shapes es' = shapes es ∧ p.Reaches q 0 [.eof] ∧ Parser.Statements p es' q := by
  induction es generalizing p with
  | nil => exact absurd rfl hne
  | cons e es ih =>
    obtain ⟨he, hes⟩ := List.forall_mem_cons.1 hes
    rw [chargeOf] at h
    cases es with
    | nil =>
      obtain ⟨e', q, hshape, hq, hrun⟩ := he.ended (h.mono (by omega)) (Nat.zero_le _)
        (by rintro _ ⟨⟩)
      have hend := kind_of_cons hq.kinds (by simp)
      exact ⟨[e'], q, by simp only [shapes, hshape], hq, .last hrun (by simp [hend])⟩
    | cons next es =>
      rw [kindsOf, List.append_assoc, List.cons_append] at h
      obtain ⟨e', q, hshape, hq, hrun⟩ := he.ended (h.mono (by omega)) (Nat.zero_le _)
        (by rintro _ ⟨⟩)
      obtain ⟨es', r, hshapes, hr, hruns⟩ := ih (by simp) hes
        ((h.after (hq.step (by simp))).mono (by omega))
      have hnext : q.step.current.kind ≠ .eof := by
        cases hruns with
        | last hrun _ | closed hrun _ _ | next hrun _ _ _ => exact (hrun.opens trivial).2
      exact ⟨e' :: es', r, by rw [shapes, shapes, hshape, hshapes],
        (hq.step (by simp)).trans hr,
        .next hrun (kind_of_cons hq.kinds (by simp)) hnext hruns⟩

theorem forall_mem_kindsOf {P : Token.Kind → Prop} {separator : Token.Kind} (hs : P separator)
    {es : List Expr} (h : ∀ e ∈ es, ∀ kind ∈ e.kinds, P kind) :
    ∀ kind ∈ kindsOf separator es, P kind := by
  induction es with
  | nil => simp [kindsOf]
  | cons e es ih =>
    obtain ⟨he, hes⟩ := List.forall_mem_cons.1 h
    by_cases hne : es = []
    · rw [hne]
      exact he
    · rw [kindsOf_cons hne]
      exact List.forall_mem_append.2 ⟨he, List.forall_mem_cons.2 ⟨hs, ih hes⟩⟩

theorem kinds_canonical {e : Expr} (h : e.All Placed) :
    ∀ kind ∈ e.kinds, kind.canonical = kind ∧ kind ≠ .eof := by
  induction e with
  | literal _ _ | field _ _ => simp [kinds, Token.Kind.canonical]
  | binary _ op _ _ ihl ihr =>
    obtain ⟨hl, hr, -⟩ := all_binary.1 h
    simp only [kinds, List.forall_mem_append, List.forall_mem_cons]
    exact ⟨ihl hl, ⟨rfl, by simp⟩, ihr hr⟩
  | unary _ op _ ih =>
    have hoperand := ih (all_unary.1 h).1
    cases op <;> exact List.forall_mem_cons.2 ⟨⟨rfl, by simp⟩, hoperand⟩
  | group _ _ ih =>
    have hinner := ih (all_group.1 h).1
    simp only [kinds, List.forall_mem_append, List.forall_mem_cons]
    exact ⟨⟨rfl, by simp⟩, hinner, ⟨rfl, by simp⟩, List.forall_mem_nil _⟩
  | conditional _ _ _ _ ihc ihy ihn =>
    obtain ⟨hc, hy, hn, -⟩ := all_conditional.1 h
    simp only [kinds, List.forall_mem_append, List.forall_mem_cons]
    exact ⟨⟨rfl, by simp⟩, ⟨rfl, by simp⟩, ihc hc, ⟨rfl, by simp⟩, ihy hy, ⟨rfl, by simp⟩, ihn hn,
      ⟨rfl, by simp⟩, List.forall_mem_nil _⟩
  | call _ name args ih =>
    obtain ⟨hargs, f, hf, rfl, -⟩ := all_call.1 h
    simp only [kinds, List.forall_mem_append, List.forall_mem_cons]
    refine ⟨⟨?_, by simp⟩, ⟨rfl, by simp⟩, ?_, ⟨rfl, by simp⟩, List.forall_mem_nil _⟩
    · rw [Token.Kind.canonical, Builtin.upper_name hf]
    · exact forall_mem_kindsOf ⟨rfl, by simp⟩ fun e he => ih e he (hargs e he)
  | sequence _ _ _ => exact absurd h.root not_false

theorem chargeOf_le_length (separator : Token.Kind) {es : List Expr}
    (h : ∀ e ∈ es, e.charge < e.kinds.length) : chargeOf es ≤ (kindsOf separator es).length := by
  induction es with
  | nil => exact Nat.zero_le _
  | cons e es ih =>
    obtain ⟨he, hes⟩ := List.forall_mem_cons.1 h
    have hothers := ih hes
    by_cases hne : es = []
    · subst hne
      simp only [chargeOf, kindsOf]
      omega
    · rw [chargeOf, kindsOf_cons hne, List.length_append, List.length_cons]
      omega

theorem charge_lt_length {e : Expr} (h : e.All Placed) : e.charge < e.kinds.length := by
  induction e with
  | literal _ _ | field _ _ => simp [charge, kinds]
  | binary _ _ left _ ihl ihr =>
    obtain ⟨hl, hr, -⟩ := all_binary.1 h
    have hleft := ihl hl
    have hright := ihr hr
    have hlinks := left.links_le_charge
    simp only [charge, kinds, List.length_append, List.length_cons]
    omega
  | unary _ op _ ih =>
    have hoperand := ih (all_unary.1 h).1
    cases op <;> exact Nat.succ_lt_succ hoperand
  | group _ _ ih =>
    have hinner := ih (all_group.1 h).1
    simp only [charge, kinds, List.length_append, List.length_cons]
    omega
  | conditional _ _ _ _ ihc ihy ihn =>
    obtain ⟨hc, hy, hn, -⟩ := all_conditional.1 h
    have hcondition := ihc hc
    have hyes := ihy hy
    have hno := ihn hn
    simp only [charge, kinds, List.length_append, List.length_cons]
    omega
  | call _ _ args ih =>
    have hargs := chargeOf_le_length .comma fun e he =>
      ih e he ((all_call.1 h).1 e he)
    simp only [charge, kinds, List.length_append, List.length_cons]
    omega
  | sequence _ _ _ => exact absurd h.root not_false

def Printable : Expr → Prop
  | sequence _ items => 2 ≤ items.length ∧ ∀ e ∈ items, e.All Obeys ∧ e.All Placed
  | e => e.All Obeys ∧ e.All Placed

instance : DecidablePred Printable
  | sequence _ _ => inferInstanceAs (Decidable (_ ∧ _))
  | literal _ _ | field _ _ | binary _ _ _ _ | unary _ _ _ | group _ _ | conditional _ _ _ _
  | call _ _ _ => inferInstanceAs (Decidable (_ ∧ _))

theorem Printable.statements_eq {e : Expr} (h : e.Printable) :
    e.statements = [e] ∨ ∃ m items, e = sequence m items ∧ 2 ≤ items.length := by
  cases e with
  | sequence m items => exact .inr ⟨m, items, rfl, h.1⟩
  | _ => exact .inl rfl

theorem Printable.statements {e : Expr} (h : e.Printable) :
    (∀ s ∈ e.statements, s.All Obeys ∧ s.All Placed) ∧ e.statements ≠ [] ∧
      e.kinds = kindsOf .semicolon e.statements ∧ e.charge = chargeOf e.statements := by
  cases e with
  | sequence m items =>
    refine ⟨h.2, ?_, rfl, rfl⟩
    rintro rfl
    exact absurd h.1 (by decide)
  | _ => exact ⟨List.forall_mem_singleton.2 h, by simp [Expr.statements], rfl,
      (Nat.max_zero _).symm⟩

theorem Printable.canonical {e : Expr} (h : e.Printable) :
    ∀ kind ∈ e.kinds, kind.canonical = kind ∧ kind ≠ .eof := by
  obtain ⟨hall, -, hkinds, -⟩ := h.statements
  rw [hkinds]
  exact forall_mem_kindsOf ⟨rfl, by simp⟩ fun s hs => kinds_canonical (hall s hs).2

end Expr

namespace Parser

theorem kinds_ofTokens (limit : Nat) (tokens : List Token) :
    (ofTokens limit tokens).remaining.map Token.kind = tokens.map Token.kind ++
      if (tokens.map Token.kind).getLast? = some .eof then [] else [.eof] := by
  cases tokens with
  | nil => rfl
  | cons t ts =>
    rw [List.getLast?_map, List.getLast?_cons, ofTokens, remaining, closing, Option.map_some,
      List.getLastD_eq_getLast?]
    generalize ts.getLast?.getD t = last
    by_cases h : last.kind = .eof <;> simp [h]

theorem faces_ofTokens {limit levels : Nat} {tokens : List Token} {ks : List Token.Kind}
    (h : tokens.map Token.kind = ks ∨ tokens.map Token.kind = ks ++ [.eof])
    (hks : ∀ kind ∈ ks, kind.canonical = kind ∧ kind ≠ .eof) (hroom : levels ≤ limit) :
    (ofTokens limit tokens).Faces (ks ++ [.eof]) levels := by
  have hkinds : (ofTokens limit tokens).remaining.map Token.kind = ks ++ [.eof] := by
    rw [kinds_ofTokens]
    rcases h with h | h
    · rw [h, if_neg]
      intro hlast
      exact (hks _ (List.mem_of_getLast? hlast)).2 rfl
    · rw [h, if_pos (by simp), List.append_nil]
  obtain ⟨hdepth, hlimit⟩ := depth_ofTokens limit tokens
  refine ⟨closed_ofTokens limit tokens, ?_, by omega⟩
  rw [kinds, hkinds, List.map_append, List.map_congr_left fun kind hk => (hks kind hk).1,
    List.map_id']
  rfl

theorem parse_of_faces {e : Expr} (h : e.Printable) {limit : Nat} {tokens : List Token}
    (hf : (ofTokens limit tokens).Faces (e.kinds ++ [.eof]) e.charge) :
    ∃ e', parseTokens limit tokens = .ok e' ∧ e'.shape = e.shape := by
  obtain ⟨hall, hne, hkinds, hcharge⟩ := h.statements
  rw [hkinds, hcharge] at hf
  obtain ⟨items, q, hshapes, hq, hrun⟩ :=
    Expr.run_statements hne (fun s hs => (Expr.reads (hall s hs).1 (hall s hs).2).1) hf
  have heof := kind_of_cons hq.kinds (by simp)
  have hlength := congrArg List.length hshapes
  rw [Expr.length_shapes, Expr.length_shapes] at hlength
  obtain hone | ⟨m, its, rfl, htwo⟩ := h.statements_eq
  · rw [hone] at hshapes hlength
    obtain ⟨e', rfl⟩ := List.length_eq_one_iff.1 hlength
    refine ⟨e', parseTokens_eq_ok_iff.2 ⟨[e'], q, hrun, heof, .inl rfl⟩, ?_⟩
    simpa [Expr.shapes] using hshapes
  · change items.length = its.length at hlength
    refine ⟨_, parseTokens_eq_ok_iff.2 ⟨items, q, hrun, heof, .inr ⟨by omega, rfl⟩⟩, ?_⟩
    exact congrArg (Expr.sequence ⟨0, 0⟩) hshapes

/-- The tokens that a tree of the grammar is written with are read as that tree, if there may be as
many levels as tokens. -/
theorem parse_kinds {e : Expr} (h : e.Printable) {tokens : List Token}
    (ht : tokens.map Token.kind = e.kinds ∨ tokens.map Token.kind = e.kinds ++ [.eof])
    {limit : Nat} (hlimit : e.kinds.length ≤ limit) :
    ∃ e', parseTokens limit tokens = .ok e' ∧ e'.shape = e.shape := by
  have hcharge : e.charge ≤ e.kinds.length := by
    obtain ⟨hall, -, hkinds, hcharge⟩ := h.statements
    rw [hkinds, hcharge]
    exact Expr.chargeOf_le_length .semicolon fun s hs => Expr.charge_lt_length (hall s hs).2
  exact parse_of_faces h (faces_ofTokens ht h.canonical (Nat.le_trans hcharge hlimit))

/-- `-[a] ^ 1 * 1 < MIN(1, (1 + 1)); 1` -/
theorem parse_kinds_mixed :
    let one : Expr := .literal ⟨0, 0⟩ (.number (.ofDigit 1))
    let e : Expr := .sequence ⟨0, 0⟩ [.binary ⟨0, 0⟩ .less
      (.binary ⟨0, 0⟩ .multiply
        (.binary ⟨0, 0⟩ .power (.unary ⟨0, 0⟩ .negate (.field ⟨0, 0⟩ "a")) one) one)
      (.call ⟨0, 0⟩ "MIN" [one, .group ⟨0, 0⟩ (.binary ⟨0, 0⟩ .add one one)]), one]
    e.Printable ∧ ∃ e', parseTokens 64 (e.kinds.map fun kind => ⟨kind, "", 0⟩) = .ok e' ∧
      e'.shape = e.shape := by
  intro one e
  have h : e.Printable := by decide +kernel
  exact ⟨h, parse_kinds h (.inl (by rw [List.map_map]; exact List.map_id _)) (by decide)⟩

end Parser

end FieldFormula
