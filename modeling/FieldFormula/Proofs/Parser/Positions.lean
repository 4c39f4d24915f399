import FieldFormula.Proofs.Parser.Consumption

/-!
Where the nodes of a parsed tree stand. `places` numbers the tokens that a tree is written with and
gives each node the number of the token it is reported at. Main statement: what is parsed is
written with the tokens given, up to one semicolon at the end, and every node has the position of
its own token (`parse_positions`).
-/
namespace FieldFormula

namespace Expr

mutual

/-- The nodes, each with the number of its own token, where the first token has the number `i`. -/
def places (i : Nat) : Expr → List (Nat × Expr)
  | literal m value => [(i, literal m value)]
  | field m name => [(i, field m name)]
  | binary m op l r =>
    l.places i ++ r.places (i + l.kinds.length + 1) ++ [(i + l.kinds.length, binary m op l r)]
  | unary m op e => e.places (i + 1) ++ [(i, unary m op e)]
  | group m e => e.places (i + 1) ++ [(i, group m e)]
  | conditional m c y n =>
    c.places (i + 2) ++ y.places (i + 2 + c.kinds.length + 1) ++
      n.places (i + 2 + c.kinds.length + 1 + y.kinds.length + 1) ++ [(i, conditional m c y n)]
  | call m name args => placesOf (i + 2) args ++ [(i, call m name args)]
  | sequence m items => placesOf i items ++ [(i, sequence m items)]

def placesOf (i : Nat) : List Expr → List (Nat × Expr)
  | [] => []
  | e :: es => e.places i ++ placesOf (i + e.kinds.length + 1) es

end

theorem map_snd_placesOf {es : List Expr} (h : ∀ e ∈ es, ∀ i, (e.places i).map Prod.snd = e.nodes)
    (i : Nat) : (placesOf i es).map Prod.snd = nodesOf es := by
  induction es generalizing i with
  | nil => rfl
  | cons e es ih =>
    obtain ⟨he, hes⟩ := List.forall_mem_cons.1 h
    rw [placesOf, List.map_append, he, ih hes, nodesOf]

theorem map_snd_places (e : Expr) (i : Nat) : (e.places i).map Prod.snd = e.nodes := by
  induction e generalizing i with
  | literal _ _ | field _ _ => rfl
  | binary _ _ _ _ ihl ihr => simp only [places, List.map_append, ihl, ihr, nodes, List.map]
  | unary _ _ _ ih | group _ _ ih => simp only [places, List.map_append, ih, nodes, List.map]
  | conditional _ _ _ _ ihc ihy ihn =>
    simp only [places, List.map_append, ihc, ihy, ihn, nodes, List.map]
  | call _ _ _ ih | sequence _ _ ih =>
    simp only [places, List.map_append, map_snd_placesOf ih, nodes, List.map]

/-- The kind of the token that a node is reported at. A sequence is reported at its first token,
whatever that is. -/
def ownKind? : Expr → Option Token.Kind
  | literal _ value => some (.literal value)
  | field _ name => some (.field name)
  | binary _ op _ _ => some (.operator op)
  | unary _ .negate _ => some (.operator .subtract)
  | unary _ .not _ => some .bang
  | group _ _ => some .leftParen
  | conditional _ _ _ _ => some .conditional
  | call _ name _ => some (.identifier name)
  | sequence _ _ => none

end Expr

def Own (tokens : List Token) (x : Nat × Expr) : Prop :=
  ∃ t, tokens[x.1]? = some t ∧ x.2.position = t.position ∧
    ∀ kind ∈ x.2.ownKind?, t.kind.canonical = kind

def Expr.Located (tokens : List Token) (i : Nat) (e : Expr) : Prop :=
  ∀ x ∈ e.places i, Own tokens x

namespace Parser
variable {tokens : List Token} {p q : Parser} {i : Nat}

def Stands (tokens : List Token) (i : Nat) (p : Parser) : Prop := tokens.drop i = p.remaining

theorem Stands.current (h : p.Stands tokens i) : tokens[i]? = some p.current := by
  have hhead := congrArg List.head? h
  rwa [List.head?_drop] at hhead

theorem Stands.after (h : p.Stands tokens i) (hw : q.Within p) (ks : List Token.Kind)
    (hk : p.kinds = ks ++ q.kinds) : q.Stands tokens (i + ks.length) := by
  obtain ⟨ts, hts⟩ := hw
  have hlength : ts.length = ks.length := by
    have hkinds := congrArg List.length hk
    have hremaining := congrArg List.length hts
    simp only [kinds, List.length_append, List.length_map] at hkinds hremaining
    omega
  rw [Stands, ← List.drop_drop, h, ← hts, ← hlength, List.drop_left]

theorem Stands.step (h : p.Stands tokens i) (hp : p.Closed) (hne : p.current.kind ≠ .eof) :
    p.step.Stands tokens (i + 1) :=
  h.after (step_within p) [_] (step_kinds hp rfl hne)

theorem Run.stands {s : Phrase} (h : Run p s q) (hp : p.Closed) (hi : p.Stands tokens i) :
    ∃ ks, s.Spelled ks ∧ q.Stands tokens (i + ks.length) := by
  obtain ⟨ks, hs, hk⟩ := h.spells hp
  exact ⟨ks, hs, hi.after h.within ks hk⟩

/-- The nodes made for the phrase are reported at their own tokens. A chain and a call are made
from the token on that the phrase before them started at. -/
def Phrase.Located (tokens : List Token) (i : Nat) : Phrase → Prop
  | binary _ e | unary e | primary e => e.Located tokens i
  | chain _ left _ _ e =>
    ∀ j, j + left.kinds.length = i → left.Located tokens j → e.Located tokens j
  | call name position e =>
    ∀ j t, j + 1 = i → tokens[j]? = some t → t.position = position →
      t.kind = .identifier name → e.Located tokens j
  | arguments es | argumentsFrom es => ∀ x ∈ Expr.placesOf i es, Own tokens x

theorem own_current {n : Expr} (h : p.Stands tokens i) (hn : n.position = p.current.position)
    (hk : ∀ kind ∈ n.ownKind?, p.current.kind.canonical = kind) : Own tokens (i, n) :=
  ⟨p.current, h.current, hn, hk⟩

theorem ownKind?_unary {op : UnaryOp} {kind : Token.Kind} (h : prefixOp? kind = some op) (m : Mark)
    (operand : Expr) : (Expr.unary m op operand).ownKind? = some kind := by
  unfold prefixOp? at h
  split at h
  · cases h
    rfl
  · cases h
    rfl
  · cases h

theorem Run.located {s : Phrase} (h : Run p s q) (hp : p.Closed) (hi : p.Stands tokens i) :
    s.Located tokens i := by
  induction h generalizing i with
  | binary hu _ ih₁ ih₂ =>
    obtain ⟨ks, rfl, hq⟩ := hu.stands hp hi
    exact ih₂ (hu.closed hp) hq i rfl (ih₁ hp hi)
  | chainEnd _ => exact fun j _ hleft => hleft
  | chainLink hop _ hr _ ih₁ ih₂ =>
    -- the operator stands behind `left`, so `right` starts one token further on
    obtain ⟨hk, -⟩ := infixOp?_eq_some_iff.1 hop
    have hstep := hi.step hp (by simp [hk])
    obtain ⟨ks, rfl, hq⟩ := hr.stands (step_closed hp) hstep
    intro j hj hleft
    refine ih₂ (hr.closed (step_closed hp)) hq j ?_ ?_
    · rw [Expr.kinds, List.length_append, List.length_cons]
      omega
    · subst hj
      simp only [Expr.Located, Expr.places, List.forall_mem_append, List.forall_mem_singleton]
      refine ⟨⟨hleft, ih₁ (step_closed hp) hstep⟩, own_current hi rfl ?_⟩
      simp [Expr.ownKind?, hk, Token.Kind.canonical]
  | unaryPrimary _ _ ih => exact ih hp hi
  | unaryOperator hop _ _ ih =>
    obtain ⟨-, hne, hcan⟩ := kinds_unary hop ⟨0, 0⟩ (.literal ⟨0, 0⟩ .null)
    have hoperand := ih (step_closed hp) (hi.step hp hne)
    refine List.forall_mem_append.2 ⟨hoperand, List.forall_mem_singleton.2 ?_⟩
    refine own_current hi rfl ?_
    rw [ownKind?_unary hop]
    simp [hcan]
  | literal hk | field hk =>
    refine List.forall_mem_singleton.2 (own_current hi rfl ?_)
    simp [Expr.ownKind?, hk, Token.Kind.canonical]
  | group hk _ _ _ ih =>
    have hinner := ih (step_closed hp) (hi.step hp (by simp [hk]))
    refine List.forall_mem_append.2 ⟨hinner, List.forall_mem_singleton.2 (own_current hi rfl ?_)⟩
    simp [Expr.ownKind?, hk, Token.Kind.canonical]
  | conditional hk hl _ hc hq hy hr _ _ ih₁ ih₂ ih₃ =>
    have hp₁ := step_closed hp
    have hc₁ := (hi.step hp (by simp [hk])).step hp₁ (by simp [hl])
    have hp₂ := hc.closed (step_closed hp₁)
    obtain ⟨ks, rfl, hc₂⟩ := hc.stands (step_closed hp₁) hc₁
    have hy₁ := hc₂.step hp₂ (by simp [hq])
    have hp₃ := hy.closed (step_closed hp₂)
    obtain ⟨ls, rfl, hy₂⟩ := hy.stands (step_closed hp₂) hy₁
    have hn₁ := hy₂.step hp₃ (by simp [hr])
    simp only [Phrase.Located, Expr.Located, Expr.places, List.forall_mem_append,
      List.forall_mem_singleton]
    refine ⟨⟨⟨ih₁ (step_closed hp₁) hc₁, ih₂ (step_closed hp₂) hy₁⟩,
      ih₃ (step_closed hp₃) hn₁⟩, own_current hi rfl ?_⟩
    simp [Expr.ownKind?, hk, Token.Kind.canonical]
  | identifier hk _ ih =>
    exact ih (step_closed hp) (hi.step hp (by simp [hk])) i _ rfl hi.current rfl hk
  | call hk hf _ _ _ _ ih =>
    intro j t hj ht hposition hname
    have hargs := ih (step_closed hp) (hi.step hp (by simp [hk]))
    subst hj
    refine List.forall_mem_append.2 ⟨hargs, List.forall_mem_singleton.2 ⟨t, ht, hposition.symm, ?_⟩⟩
    simp [Expr.ownKind?, hname, Token.Kind.canonical, (Builtin.mem_of_find? hf).2]
  | noArguments _ => exact List.forall_mem_nil _
  | someArguments _ _ ih => exact ih hp hi
  | lastArgument _ _ ih =>
    have hlast := ih hp hi
    refine List.forall_mem_append.2 ⟨hlast, List.forall_mem_nil _⟩
  | nextArgument he hk _ ih₁ ih₂ =>
    obtain ⟨ks, rfl, hq⟩ := he.stands hp hi
    have hothers := ih₂ (step_closed (he.closed hp)) (hq.step (he.closed hp) (by simp [hk]))
    exact List.forall_mem_append.2 ⟨ih₁ hp hi, hothers⟩

theorem Statements.located {es : List Expr} (h : Statements p es q) (hp : p.Closed)
    (hi : p.Stands tokens i) : ∀ x ∈ Expr.placesOf i es, Own tokens x := by
  induction h generalizing i with
  | last he _ | closed he _ _ =>
    exact List.forall_mem_append.2 ⟨he.located hp hi, List.forall_mem_nil _⟩
  | next he hk _ _ ih =>
    obtain ⟨ks, rfl, hq⟩ := he.stands hp hi
    have hothers := ih (step_closed (he.closed hp)) (hq.step (he.closed hp) (by simp [hk]))
    exact List.forall_mem_append.2 ⟨he.located hp hi, hothers⟩

theorem remaining_ofTokens_of_eof {limit : Nat} (h : tokens.getLast?.map Token.kind = some .eof) :
    (ofTokens limit tokens).remaining = tokens := by
  cases tokens with
  | nil => cases h
  | cons t ts =>
    rw [List.getLast?_cons, Option.map_some, Option.some.injEq] at h
    rw [ofTokens, remaining, closing, List.getLastD_eq_getLast?, if_pos h, List.append_nil]

theorem eq_of_append_end {ks ls : List Token.Kind} (kind : Token.Kind) (rest : List Token.Kind)
    (hne : kind ∉ ks) (h : ks ++ [kind] = ls ++ kind :: rest) : ks = ls := by
  rcases List.eq_nil_or_concat rest with rfl | ⟨rest, last, rfl⟩
  · exact List.append_cancel_right h
  · rw [List.concat_eq_append, ← List.cons_append, ← List.append_assoc] at h
    have hks := (List.append_inj' h rfl).1
    exact absurd (hks ▸ List.mem_append_right ls List.mem_cons_self) hne

theorem canonical_eq_eof {kind : Token.Kind} (h : kind.canonical = .eof) : kind = .eof := by
  cases kind with
  | identifier _ => cases h
  | _ => exact h

theorem Statements.kinds_eq {es : List Expr} {limit : Nat}
    (h : Statements (ofTokens limit tokens) es q)
    (hlast : tokens.getLast?.map Token.kind = some .eof)
    (hinner : ∀ t ∈ tokens.dropLast, t.kind ≠ .eof) (hq : q.current.kind = .eof) :
    ∃ tail, (tail = [] ∨ tail = [.semicolon]) ∧
      (tokens.dropLast.map Token.kind).map Token.Kind.canonical =
        Expr.kindsOf .semicolon es ++ tail := by
  obtain ⟨-, tail, htail, hkinds⟩ := h.spells (closed_ofTokens limit tokens)
  refine ⟨tail, htail, ?_⟩
  obtain ⟨last, hgetLast, heof⟩ := Option.map_eq_some_iff.1 hlast
  obtain ⟨init, hinit⟩ := List.getLast?_eq_some_iff.1 hgetLast
  have hdrop : tokens.dropLast = init := by rw [hinit, List.dropLast_concat]
  rw [hdrop] at hinner ⊢
  apply eq_of_append_end .eof ((q.ahead.map Token.kind).map Token.Kind.canonical)
  · simp only [List.map_map, List.mem_map, Function.comp_apply, not_exists, not_and]
    exact fun t ht hc => hinner t ht (canonical_eq_eof hc)
  · calc (init.map Token.kind).map Token.Kind.canonical ++ [.eof]
        = (tokens.map Token.kind).map Token.Kind.canonical := by
          simp [hinit, heof, Token.Kind.canonical]
      _ = (ofTokens limit tokens).kinds := by rw [kinds, remaining_ofTokens_of_eof hlast]
      _ = Expr.kindsOf .semicolon es ++ tail ++ q.kinds := by rw [hkinds, List.append_assoc]
      _ = Expr.kindsOf .semicolon es ++ tail ++
            .eof :: (q.ahead.map Token.kind).map Token.Kind.canonical := by
          rw [kinds, remaining, List.map_cons, List.map_cons, hq, Token.Kind.canonical]
          simp

/-- Without its end and up to one semicolon before that, the formula is what the parsed tree is
written with, function names in capitals. Every node has a place there, and has the position of
the token at that place. -/
theorem parse_positions {limit : Nat} {e : Expr}
    (hlast : tokens.getLast?.map Token.kind = some .eof)
    (hinner : ∀ t ∈ tokens.dropLast, t.kind ≠ .eof) (h : parseTokens limit tokens = .ok e) :
    (∃ tail, (tail = [] ∨ tail = [.semicolon]) ∧
      (tokens.dropLast.map Token.kind).map Token.Kind.canonical = e.kinds ++ tail) ∧
    (e.places 0).map Prod.snd = e.nodes ∧ ∀ x ∈ e.places 0, Own tokens x := by
  obtain ⟨items, q, hs, hq, hitems⟩ := parseTokens_eq_ok_iff.1 h
  have hstands : (ofTokens limit tokens).Stands tokens 0 := (remaining_ofTokens_of_eof hlast).symm
  have hkinds := hs.kinds_eq hlast hinner hq
  have hplaces := hs.located (closed_ofTokens limit tokens) hstands
  rcases hitems with rfl | ⟨-, rfl⟩
  · refine ⟨hkinds, e.map_snd_places 0, fun x hx => hplaces x ?_⟩
    exact List.mem_append_left _ hx
  · refine ⟨hkinds, Expr.map_snd_places _ 0, ?_⟩
    refine List.forall_mem_append.2 ⟨hplaces, List.forall_mem_singleton.2 ?_⟩
    refine own_current hstands ?_ (fun kind hkind => nomatch hkind)
    cases tokens with
    | nil => cases hlast
    | cons t ts => rfl

/-- `-[a] ^ 2 ; If(true, (1), max(2, 3));` -/
theorem parse_positions_sequence :
    let number (n : Fin 10) : Token.Kind := .literal (.number (.ofDigit n))
    let tokens : List Token := [⟨.operator .subtract, "-", 0⟩, ⟨.field "a", "[a]", 1⟩,
      ⟨.operator .power, "^", 5⟩, ⟨number 2, "2", 7⟩, ⟨.semicolon, ";", 9⟩,
      ⟨.conditional, "If", 11⟩, ⟨.leftParen, "(", 13⟩, ⟨.literal (.boolean true), "true", 14⟩,
      ⟨.comma, ",", 18⟩, ⟨.leftParen, "(", 20⟩, ⟨number 1, "1", 21⟩, ⟨.rightParen, ")", 22⟩,
      ⟨.comma, ",", 23⟩, ⟨.identifier "max", "max", 25⟩, ⟨.leftParen, "(", 28⟩,
      ⟨number 2, "2", 29⟩, ⟨.comma, ",", 30⟩, ⟨number 3, "3", 32⟩, ⟨.rightParen, ")", 33⟩,
      ⟨.rightParen, ")", 34⟩, ⟨.semicolon, ";", 35⟩, ⟨.eof, "", 36⟩]
    (tokens.getLast?.map Token.kind = some .eof ∧
      (tokens.dropLast.all fun t => t.kind ≠ .eof) = true) ∧
    ∃ e, parseTokens 64 tokens = .ok e ∧
      (∃ tail, (tail = [] ∨ tail = [.semicolon]) ∧
        (tokens.dropLast.map Token.kind).map Token.Kind.canonical = e.kinds ++ tail) ∧
      (e.places 0).map Prod.snd = e.nodes ∧ ∀ x ∈ e.places 0, Own tokens x := by
  intro number tokens
  have hlast : tokens.getLast?.map Token.kind = some .eof := by decide +kernel
  have hinner : (tokens.dropLast.all fun t => t.kind ≠ .eof) = true := by decide +kernel
  refine ⟨⟨hlast, hinner⟩, (exists_ok (P := fun _ => True) (by decide +kernel)).imp
    fun e he => ⟨he.1, parse_positions hlast ?_ he.1⟩⟩
  simpa using hinner

end Parser
end FieldFormula
