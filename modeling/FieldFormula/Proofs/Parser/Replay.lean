import FieldFormula.Proofs.Parser.Failure
import FieldFormula.Proofs.Parser.Printing

/-!
Runs of the parser repeated on other tokens. A parser that reads the same tokens under a limit that
is no lower does the same, whatever stands behind the token it looks at last. Main statement: a
phrase is read again (`Run.replay`).
-/
namespace FieldFormula.Parser

structure Mirrors (bound : Nat) (ts : List Token) (p p' : Parser) : Prop where
  tokens : p'.remaining = ts
  nextId : p'.nextId = p.nextId
  depth : p'.depth = p.depth
  limit : p'.limit = bound
  le : p.limit ≤ bound

section Mirrors
variable {bound : Nat} {t : Token} {ts : List Token} {p p' : Parser}

theorem remaining_step_of_cons (h : p.remaining = t :: ts) (hts : ts ≠ []) :
    p.step.remaining = ts := by
  obtain ⟨current, ahead, origin, nextId, depth, limit⟩ := p
  obtain ⟨rfl, rfl⟩ := List.cons.inj h
  cases ahead with
  | nil => exact absurd rfl hts
  | cons next others => rfl

theorem Mirrors.current (h : Mirrors bound (t :: ts) p p') : p'.current = t :=
  List.head_eq_of_cons_eq h.tokens

theorem Mirrors.step (h : Mirrors bound (t :: ts) p p') (hts : ts ≠ []) :
    Mirrors bound ts p.step p'.step :=
  ⟨remaining_step_of_cons h.tokens hts, by simpa using h.nextId, by simpa using h.depth,
    by simpa using h.limit, by simpa using h.le⟩

theorem Mirrors.deeper (h : Mirrors bound ts p p') : Mirrors bound ts p.deeper p'.deeper :=
  ⟨h.tokens, h.nextId, congrArg (· + 1) h.depth, h.limit, h.le⟩

theorem Mirrors.shallower (h : Mirrors bound ts p p') (levels : Nat) :
    Mirrors bound ts (p.shallower levels) (p'.shallower levels) :=
  ⟨h.tokens, h.nextId, congrArg (· - levels) h.depth, h.limit, h.le⟩

theorem Mirrors.numbered (h : Mirrors bound ts p p') : Mirrors bound ts p.numbered p'.numbered :=
  ⟨h.tokens, congrArg (· + 1) h.nextId, h.depth, h.limit, h.le⟩

theorem Mirrors.markAt (h : Mirrors bound ts p p') (position : Nat) :
    p'.markAt position = p.markAt position := by
  rw [Parser.markAt, Parser.markAt, h.nextId]

theorem Mirrors.room (h : Mirrors bound ts p p') (hp : p.depth < p.limit) :
    p'.depth < p'.limit := by
  rw [h.depth, h.limit]
  exact Nat.lt_of_lt_of_le hp h.le

end Mirrors

def Phrase.Before (kind : Token.Kind) : Phrase → Prop
  | arguments _ | argumentsFrom _ => kind = .rightParen
  | _ => ∀ op, kind ≠ .operator op

def Phrase.EndsAt (s : Phrase) (q : Parser) (ts : List Token) : Prop :=
  ∃ t us, ts = t :: us ∧ (t.kind = q.current.kind ∨ s.Before t.kind)

/-- The relation leads from `p` over `used` to `q`, and in the same way from any parser that stands
before `used` and a rest that satisfies `C`. -/
structure Repeats (used : List Token) (C : List Token → Prop) (R : Parser → Parser → Prop)
    (p q : Parser) : Prop where
  tokens : p.remaining = used ++ q.remaining
  again {bound : Nat} {rest : List Token} {p' : Parser} :
    Mirrors bound (used ++ rest) p p' → C rest → ∃ q', R p' q' ∧ Mirrors bound rest q q'

section Repeats
variable {p q r : Parser} {us vs : List Token} {C D : List Token → Prop}
  {R S : Parser → Parser → Prop}

theorem Repeats.imp (h : Repeats us C R p q) (hC : ∀ rest, D rest → C rest)
    (hR : ∀ p' q', R p' q' → S p' q') : Repeats us D S p q := by
  refine ⟨h.tokens, fun {bound rest p'} hp' hrest => ?_⟩
  obtain ⟨q', hq', hmirror⟩ := h.again hp' (hC rest hrest)
  exact ⟨q', hR p' q' hq', hmirror⟩

theorem Repeats.trans (h : Repeats us C R p q) (k : Repeats vs D S q r)
    (hC : ∀ rest, D rest → C (vs ++ rest)) :
    Repeats (us ++ vs) D (fun p' r' => ∃ q', R p' q' ∧ S q' r') p r := by
  refine ⟨by rw [h.tokens, k.tokens, List.append_assoc], fun {bound rest p'} hp' hrest => ?_⟩
  rw [List.append_assoc] at hp'
  obtain ⟨q', hR, hq'⟩ := h.again hp' (hC rest hrest)
  obtain ⟨r', hS, hr'⟩ := k.again hq' hrest
  exact ⟨r', ⟨q', hR, hS⟩, hr'⟩

theorem repeats_refl (C : List Token → Prop) (p : Parser) :
    Repeats [] C (fun p' q' => q' = p') p p :=
  ⟨rfl, fun {_ _ p'} hp' _ => ⟨p', rfl, hp'⟩⟩

theorem Repeats.deeper (h : Repeats us C R p.deeper q) (hd : p.depth < p.limit) :
    Repeats us C (fun p' q' => p'.depth < p'.limit ∧ R p'.deeper q') p q := by
  refine ⟨h.tokens, fun {bound rest p'} hp' hrest => ?_⟩
  obtain ⟨q', hq', hmirror⟩ := h.again hp'.deeper hrest
  exact ⟨q', ⟨hp'.room hd, hq'⟩, hmirror⟩

theorem Repeats.passed (h : Repeats us C R p.step q) (hp : p.Closed) (hk : p.current.kind ≠ .eof)
    (hC : ∀ rest, C rest → us ++ rest ≠ []) :
    Repeats (p.current :: us) C (fun p' q' => p'.current = p.current ∧ R p'.step q') p q := by
  refine ⟨by rw [remaining_step hp hk, h.tokens]; rfl, fun {bound rest p'} hp' hrest => ?_⟩
  obtain ⟨q', hq', hmirror⟩ := h.again (hp'.step (hC rest hrest)) hrest
  exact ⟨q', ⟨hp'.current, hq'⟩, hmirror⟩

theorem Repeats.opened (h : Repeats us C R p.step.deeper q) (hp : p.Closed)
    (hk : p.current.kind ≠ .eof) (hd : p.depth < p.limit)
    (hC : ∀ rest, C rest → us ++ rest ≠ []) :
    Repeats (p.current :: us) C (fun p' q' =>
      p'.current = p.current ∧ p'.depth < p'.limit ∧ R p'.step.deeper q') p q := by
  refine ((h.deeper (by simpa using hd)).passed hp hk hC).imp (fun _ => id) ?_
  rintro p' q' ⟨hcurrent, hroom, hq'⟩
  exact ⟨hcurrent, by simpa using hroom, hq'⟩

end Repeats

/-- The tokens read for the phrase are read in the same way when others stand behind them. -/
def Phrase.Replays (s : Phrase) (p q : Parser) : Prop :=
  ∃ used, (s.Opening → used ≠ []) ∧ Repeats used (s.EndsAt q) (Run · s ·) p q

section Replay
variable {p q r : Parser} {s : Phrase} {rest : List Token}

theorem Phrase.EndsAt.ne_nil (h : s.EndsAt q rest) : rest ≠ [] := by
  obtain ⟨t, us, rfl, -⟩ := h
  exact List.cons_ne_nil t us

theorem endsAt_self (s : Phrase) (q : Parser) (us : List Token) : s.EndsAt q (q.current :: us) :=
  ⟨q.current, us, rfl, .inl rfl⟩

theorem Phrase.EndsAt.behind {s s' : Phrase} {used : List Token} (h : s.EndsAt r rest)
    (hq : q.remaining = used ++ r.remaining) (hs : ∀ kind, s.Before kind → s'.Before kind) :
    s'.EndsAt q (used ++ rest) := by
  cases used with
  | nil =>
    obtain ⟨t, us, rfl, ht⟩ := h
    have hcurrent : q.current = r.current := List.head_eq_of_cons_eq hq
    rw [← hcurrent] at ht
    exact ⟨t, us, rfl, ht.imp_right (hs t.kind)⟩
  | cons u used =>
    have hcurrent : q.current = u := List.head_eq_of_cons_eq hq
    exact ⟨u, used ++ rest, rfl, .inl (by rw [hcurrent])⟩

theorem not_operator_of_rightParen {kind : Token.Kind} (h : kind = .rightParen) (op : BinaryOp) :
    kind ≠ .operator op := by
  rw [h]
  simp

theorem infixOp?_of_not_operator {kind : Token.Kind} (h : ∀ op, kind ≠ .operator op) (least : Nat)
    (compared : Bool) : infixOp? least compared kind = none :=
  infixOp?_eq_none_iff.2 fun op hop => absurd hop (h op)

theorem replays_chainEnd {least : Nat} {left : Expr} {length : Nat} {compared : Bool}
    (hop : infixOp? least compared p.current.kind = none) :
    (Phrase.chain least left length compared left).Replays p (p.shallower length) := by
  refine ⟨[], False.elim, rfl, fun {bound rest p'} hp' hrest => ?_⟩
  obtain ⟨t, us, rfl, ht⟩ := hrest
  refine ⟨p'.shallower length, .chainEnd ?_, hp'.shallower length⟩
  rw [hp'.current]
  rcases ht with ht | ht
  · rw [ht]
    exact hop
  · exact infixOp?_of_not_operator ht least compared

theorem replays_binary {least : Nat} {left e : Expr} (hu : (Phrase.unary left).Replays p q)
    (hc : (Phrase.chain least left 0 false e).Replays q r) :
    (Phrase.binary least e).Replays p r := by
  obtain ⟨us, hne, hu⟩ := hu
  obtain ⟨vs, -, hc⟩ := hc
  refine ⟨us ++ vs, fun _ => List.append_ne_nil_of_left_ne_nil (hne trivial) vs, ?_⟩
  refine (hu.trans hc fun rest hrest => hrest.behind hc.tokens fun _ => id).imp (fun _ => id) ?_
  rintro p' r' ⟨q', hu', hc'⟩
  exact .binary hu' hc'

theorem replays_chainLink {least : Nat} {left right e : Expr} {length : Nat} {compared : Bool}
    {op : BinaryOp} (hp : p.Closed) (hop : infixOp? least compared p.current.kind = some op)
    (hd : p.depth < p.limit)
    (hr : (Phrase.binary (op.strength + 1) right).Replays p.step.deeper q)
    (hc : (Phrase.chain least (.binary (q.markAt p.current.position) op left right) (length + 1)
      op.isComparison e).Replays q.numbered r) :
    (Phrase.chain least left length compared e).Replays p r := by
  obtain ⟨us, hne, hr⟩ := hr
  obtain ⟨vs, -, hc⟩ := hc
  have hlink := hr.opened hp (kind_ne_eof_of_infixOp? hop) hd
    fun rest _ => List.append_ne_nil_of_left_ne_nil (hne trivial) rest
  refine ⟨p.current :: us ++ vs, False.elim, ?_, fun {bound rest p'} hp' hrest => ?_⟩
  · rw [hlink.tokens, show q.remaining = vs ++ r.remaining from hc.tokens, List.append_assoc]
  · rw [List.append_assoc] at hp'
    obtain ⟨q', ⟨hcurrent, hroom, hr'⟩, hq'⟩ :=
      hlink.again hp' (hrest.behind (q := q) hc.tokens fun _ => id)
    obtain ⟨r', hc', hr''⟩ := hc.again hq'.numbered hrest
    rw [← hq'.markAt, ← hcurrent] at hc'
    exact ⟨r', .chainLink (by rw [hcurrent, hop]) hroom hr' hc', hr''⟩

theorem replays_unaryPrimary {e : Expr} (hop : prefixOp? p.current.kind = none)
    (he : (Phrase.primary e).Replays p q) : (Phrase.unary e).Replays p q := by
  obtain ⟨us, hne, hus, he⟩ := he
  refine ⟨us, fun _ => hne trivial, hus, fun {bound rest p'} hp' hrest => ?_⟩
  obtain ⟨q', he', hq'⟩ := he hp' hrest
  refine ⟨q', .unaryPrimary ?_ he', hq'⟩
  cases us with
  | nil => exact absurd rfl (hne trivial)
  | cons u us => rw [hp'.current, ← List.head_eq_of_cons_eq hus, hop]

theorem Phrase.Replays.token (h : s.Replays p q) (hq : q.Closed) (hk : q.current.kind ≠ .eof) :
    ∃ used, used ≠ [] ∧ Repeats used (· ≠ [])
      (fun p' r' => ∃ q', Run p' s q' ∧ q'.current = q.current ∧ r' = q'.step) p q.step := by
  obtain ⟨us, -, hus, h⟩ := h
  refine ⟨us ++ [q.current], by simp, ?_, fun {bound rest p'} hp' hrest => ?_⟩
  · rw [hus, remaining_step hq hk, List.append_assoc]
    rfl
  · rw [List.append_assoc] at hp'
    obtain ⟨q', hrun, hq'⟩ := h hp' (endsAt_self s q rest)
    exact ⟨q'.step, ⟨q', hrun, hq'.current, rfl⟩, hq'.step hrest⟩

theorem replays_unaryOperator {op : UnaryOp} {operand : Expr} (hp : p.Closed)
    (hop : prefixOp? p.current.kind = some op) (hd : p.depth < p.limit)
    (ho : (Phrase.unary operand).Replays p.step.deeper q) :
    (Phrase.unary (.unary (q.markAt p.current.position) op operand)).Replays p
      (q.shallower 1).numbered := by
  obtain ⟨us, hne, ho⟩ := ho
  have hsign := ho.opened hp (kind_ne_eof_of_prefixOp? hop) hd
    fun rest _ => List.append_ne_nil_of_left_ne_nil (hne trivial) rest
  refine ⟨p.current :: us, fun _ => by simp, hsign.tokens, fun {bound rest p'} hp' hrest => ?_⟩
  obtain ⟨q', ⟨hcurrent, hroom, ho'⟩, hq'⟩ := hsign.again hp' hrest
  refine ⟨(q'.shallower 1).numbered, ?_, (hq'.shallower 1).numbered⟩
  rw [← hq'.markAt, ← hcurrent]
  exact .unaryOperator (by rw [hcurrent, hop]) hroom ho'

theorem replays_leaf (make : Mark → Expr) (hp : p.Closed) (hk : p.current.kind ≠ .eof)
    (hrun : ∀ p' : Parser, p'.current = p.current →
      Run p' (.primary (make (p'.step.markAt p'.current.position))) p'.step.numbered) :
    (Phrase.primary (make (p.step.markAt p.current.position))).Replays p p.step.numbered := by
  refine ⟨[p.current], fun _ => by simp, remaining_step hp hk, fun {bound rest p'} hp' hrest => ?_⟩
  have hstep := hp'.step hrest.ne_nil
  refine ⟨p'.step.numbered, ?_, hstep.numbered⟩
  rw [← hstep.markAt, ← hp'.current]
  exact hrun p' hp'.current

theorem Phrase.Replays.parens (h : s.Replays p.step.deeper q) (hp : p.Closed) (hq : q.Closed)
    (hk : p.current.kind = .leftParen) (hd : p.depth < p.limit)
    (hend : q.current.kind = .rightParen) :
    ∃ used, used ≠ [] ∧ Repeats used (· ≠ []) (fun p' r' => ∃ q', p'.current = p.current ∧
      p'.depth < p'.limit ∧ Run p'.step.deeper s q' ∧ q'.current = q.current ∧ r' = q'.step)
      p q.step := by
  obtain ⟨us, -, hinner⟩ := h.token hq (by simp [hend])
  refine ⟨p.current :: us, by simp, (hinner.opened hp (by simp [hk]) hd
    fun rest => List.append_ne_nil_of_right_ne_nil us).imp (fun _ => id) ?_⟩
  rintro p' r' ⟨hcurrent, hroom, q', hrun, hq', hr'⟩
  exact ⟨q', hcurrent, hroom, hrun, hq', hr'⟩

theorem replays_group {inner : Expr} (hp : p.Closed) (hq : q.Closed)
    (hk : p.current.kind = .leftParen) (hd : p.depth < p.limit)
    (hi : (Phrase.binary 0 inner).Replays p.step.deeper q) (hend : q.current.kind = .rightParen) :
    (Phrase.primary (.group (q.step.markAt p.current.position) inner)).Replays p
      (q.step.shallower 1).numbered := by
  obtain ⟨us, hne, hparens⟩ := hi.parens hp hq hk hd hend
  refine ⟨us, fun _ => hne, hparens.tokens, fun {bound rest p'} hp' hrest => ?_⟩
  obtain ⟨_, ⟨q', hcurrent, hroom, hi', hlast, rfl⟩, hq'⟩ := hparens.again hp' hrest.ne_nil
  refine ⟨(q'.step.shallower 1).numbered, ?_, (hq'.shallower 1).numbered⟩
  rw [← hq'.markAt, ← hcurrent]
  exact .group (by rw [hcurrent, hk]) hroom hi' (by rw [hlast, hend])

theorem replays_call {name : String} {position : Nat} {f : Builtin} {args : List Expr}
    (hp : p.Closed) (hq : q.Closed) (hk : p.current.kind = .leftParen)
    (hf : Builtin.find? name = some f) (hd : p.depth < p.limit)
    (ha : (Phrase.arguments args).Replays p.step.deeper q) (hend : q.current.kind = .rightParen)
    (harity : f.arity.accepts args.length = true) :
    (Phrase.call name position (.call (q.step.markAt position) f.name args)).Replays p
      (q.step.shallower 1).numbered := by
  obtain ⟨us, -, hparens⟩ := ha.parens hp hq hk hd hend
  refine ⟨us, False.elim, hparens.tokens, fun {bound rest p'} hp' hrest => ?_⟩
  obtain ⟨_, ⟨q', hcurrent, hroom, ha', hlast, rfl⟩, hq'⟩ := hparens.again hp' hrest.ne_nil
  refine ⟨(q'.step.shallower 1).numbered, ?_, (hq'.shallower 1).numbered⟩
  rw [← hq'.markAt]
  exact .call (by rw [hcurrent, hk]) hf hroom ha' (by rw [hlast, hend]) harity

theorem replays_conditional {t : Parser} {condition yes no : Expr} (hp : p.Closed) (hq : q.Closed)
    (hr : r.Closed) (ht : t.Closed) (hk : p.current.kind = .conditional)
    (hopen : p.step.current.kind = .leftParen) (hd : p.depth < p.limit)
    (hc : (Phrase.binary 0 condition).Replays p.step.step.deeper q)
    (hqk : q.current.kind = .comma) (hy : (Phrase.binary 0 yes).Replays q.step r)
    (hrk : r.current.kind = .comma) (hn : (Phrase.binary 0 no).Replays r.step t)
    (htk : t.current.kind = .rightParen) :
    (Phrase.primary (.conditional (t.step.markAt p.current.position) condition yes no)).Replays p
      (t.step.shallower 1).numbered := by
  obtain ⟨us, hus, hc⟩ := hc.token hq (by simp [hqk])
  obtain ⟨vs, hvs, hy⟩ := hy.token hr (by simp [hrk])
  obtain ⟨ws, hws, hn⟩ := hn.token ht (by simp [htk])
  have hparts := hc.trans (hy.trans hn fun rest _ => by simp [hws]) fun rest _ => by simp [hvs]
  have hopened := hparts.opened (step_closed hp) (by simp [hopen]) (by simpa using hd)
    fun rest _ => by simp [hus]
  have hall := hopened.passed hp (by simp [hk]) fun rest _ => by simp
  refine ⟨_, fun _ => List.cons_ne_nil _ _, hall.tokens, fun {bound rest p'} hp' hrest => ?_⟩
  obtain ⟨_, ⟨hcurrent, hparen, hroom, _, ⟨q', hc', hqc, rfl⟩, _, ⟨r', hy', hrc, rfl⟩,
    t', hn', htc, rfl⟩, ht'⟩ := hall.again hp' hrest.ne_nil
  refine ⟨(t'.step.shallower 1).numbered, ?_, (ht'.shallower 1).numbered⟩
  rw [← ht'.markAt, ← hcurrent]
  exact .conditional (by rw [hcurrent, hk]) (by rw [hparen, hopen]) (by simpa using hroom) hc'
    (by rw [hqc, hqk]) hy' (by rw [hrc, hrk]) hn' (by rw [htc, htk])

theorem replays_identifier {name : String} {e : Expr} (hp : p.Closed)
    (hk : p.current.kind = .identifier name)
    (hc : (Phrase.call name p.current.position e).Replays p.step q) :
    (Phrase.primary e).Replays p q := by
  obtain ⟨us, -, hc⟩ := hc
  refine ⟨p.current :: us, fun _ => by simp, (hc.passed hp (by simp [hk]) fun rest hrest =>
    List.append_ne_nil_of_right_ne_nil us hrest.ne_nil).imp (fun _ => id) ?_⟩
  rintro p' q' ⟨hcurrent, hc'⟩
  rw [← hcurrent] at hc' hk
  exact .identifier hk hc'

theorem replays_noArguments (hk : p.current.kind = .rightParen) :
    (Phrase.arguments []).Replays p p := by
  refine ⟨[], False.elim, rfl, fun {bound rest p'} hp' hrest => ?_⟩
  obtain ⟨t, us, rfl, ht⟩ := hrest
  refine ⟨p', .noArguments ?_, hp'⟩
  rw [hp'.current]
  rcases ht with ht | ht
  · rw [ht, hk]
  · exact ht

theorem replays_someArguments {es : List Expr} (hk : p.current.kind ≠ .rightParen)
    (he : (Phrase.argumentsFrom es).Replays p q) : (Phrase.arguments es).Replays p q := by
  obtain ⟨us, hne, hus, he⟩ := he
  refine ⟨us, False.elim, hus, fun {bound rest p'} hp' hrest => ?_⟩
  obtain ⟨q', he', hq'⟩ := he hp' hrest
  refine ⟨q', .someArguments ?_ he', hq'⟩
  cases us with
  | nil => exact absurd rfl (hne trivial)
  | cons u us =>
    rw [hp'.current, ← List.head_eq_of_cons_eq hus]
    exact hk

theorem replays_lastArgument {e : Expr} (he : (Phrase.binary 0 e).Replays p q)
    (hk : q.current.kind ≠ .comma) : (Phrase.argumentsFrom [e]).Replays p q := by
  obtain ⟨us, hne, hus, he⟩ := he
  refine ⟨us, fun _ => hne trivial, hus, fun {bound rest p'} hp' hrest => ?_⟩
  have hend : (Phrase.binary 0 e).EndsAt q ([] ++ rest) :=
    hrest.behind rfl fun _ => not_operator_of_rightParen
  obtain ⟨q', he', hq'⟩ := he hp' hend
  obtain ⟨t, us, rfl, ht⟩ := hrest
  refine ⟨q', .lastArgument he' ?_, hq'⟩
  rw [hq'.current]
  rcases ht with ht | ht
  · rw [ht]
    exact hk
  · rw [show t.kind = .rightParen from ht]
    simp

theorem replays_nextArgument {e : Expr} {es : List Expr} (hq : q.Closed)
    (he : (Phrase.binary 0 e).Replays p q) (hk : q.current.kind = .comma)
    (hes : (Phrase.argumentsFrom es).Replays q.step r) :
    (Phrase.argumentsFrom (e :: es)).Replays p r := by
  obtain ⟨us, hus, he⟩ := he.token hq (by simp [hk])
  obtain ⟨vs, hvs, hes⟩ := hes
  refine ⟨us ++ vs, fun _ => by simp [hus], (he.trans hes fun rest _ =>
    List.append_ne_nil_of_left_ne_nil (hvs trivial) rest).imp (fun _ => id) ?_⟩
  rintro p' r' ⟨_, ⟨q', he', hcurrent, rfl⟩, hes'⟩
  exact .nextArgument he' (by rw [hcurrent, hk]) hes'

theorem Run.replay (h : Run p s q) (hp : p.Closed) : s.Replays p q := by
  induction h with
  | binary hu _ ih₁ ih₂ => exact replays_binary (ih₁ hp) (ih₂ (hu.closed hp))
  | chainEnd hop => exact replays_chainEnd hop
  | chainLink hop hd hr _ ih₁ ih₂ =>
    exact replays_chainLink hp hop hd (ih₁ (step_closed hp)) (ih₂ (hr.closed (step_closed hp)))
  | unaryPrimary hop _ ih => exact replays_unaryPrimary hop (ih hp)
  | unaryOperator hop hd _ ih => exact replays_unaryOperator hp hop hd (ih (step_closed hp))
  | literal hk =>
    exact replays_leaf (.literal · _) hp (by simp [hk]) fun p' hp' => .literal (by rw [hp', hk])
  | field hk =>
    exact replays_leaf (.field · _) hp (by simp [hk]) fun p' hp' => .field (by rw [hp', hk])
  | group hk hd hi hq ih =>
    have hinner := step_closed hp
    exact replays_group hp (hi.closed hinner) hk hd (ih hinner) hq
  | conditional hk hl hd hc hq hy hr hn ht ih₁ ih₂ ih₃ =>
    have hp₁ := step_closed (step_closed hp)
    have hp₂ := hc.closed hp₁
    have hp₃ := hy.closed (step_closed hp₂)
    exact replays_conditional hp hp₂ hp₃ (hn.closed (step_closed hp₃)) hk hl hd (ih₁ hp₁) hq
      (ih₂ (step_closed hp₂)) hr (ih₃ (step_closed hp₃)) ht
  | identifier hk _ ih => exact replays_identifier hp hk (ih (step_closed hp))
  | call hk hf hd ha hq hn ih =>
    have hinner := step_closed hp
    exact replays_call hp (ha.closed hinner) hk hf hd (ih hinner) hq hn
  | noArguments hk => exact replays_noArguments hk
  | someArguments hk _ ih => exact replays_someArguments hk (ih hp)
  | lastArgument _ hk ih => exact replays_lastArgument (ih hp) hk
  | nextArgument he hk _ ih₁ ih₂ =>
    have hq := he.closed hp
    exact replays_nextArgument hq (ih₁ hp) hk (ih₂ (step_closed hq))

end Replay

end FieldFormula.Parser
