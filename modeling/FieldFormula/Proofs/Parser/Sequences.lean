import FieldFormula.Proofs.Parser.Alignment
import FieldFormula.Proofs.Parser.Depth
import FieldFormula.Proofs.Parser.Numbering
import FieldFormula.Proofs.Parser.Positions

/-!
Statements put one after another. Their tokens stay, moved behind those before them, and semicolons
take the place of their ends (`Joined.scanned`). Main statements: the parser reads the statements
that it reads alone, each with marks of its own (`Joined.statements`), and reads them only if it
reads every one alone (`Joined.alone`).
-/
namespace FieldFormula

def Token.OneStatement (ts : List Token) : Prop := ts ≠ [] ∧ ∀ t ∈ ts, ¬ t.kind.Ends

/-- The tokens of statements, each moved by the length of what stands before it, with semicolons
between them. -/
inductive Joined : Nat → List (List Token) → List Token → Prop where
  | last {offset stop : Nat} {ts : List Token} (one : Token.OneStatement ts) :
      Joined offset [ts ++ [⟨.eof, "", stop⟩]]
        (ts.map (Token.shift offset) ++ [⟨.eof, "", stop + offset⟩])
  | more {offset stop : Nat} {ts us : List Token} {tss : List (List Token)}
      (one : Token.OneStatement ts) (others : Joined (stop + offset + 1) tss us) :
      Joined offset ((ts ++ [⟨.eof, "", stop⟩]) :: tss)
        (ts.map (Token.shift offset) ++ ⟨.semicolon, ";", stop + offset⟩ :: us)

inductive Stacked : Nat → List Expr → List Expr → Nat → Prop where
  | nil {first : Nat} : Stacked first [] [] first
  | cons {first next : Nat} {e : Expr} {es items : List Expr} (place : Nat → Nat)
      (others : Stacked (first + e.nodes.length) es items next) :
      Stacked first (e :: es) (e.remark (Shift.mark ⟨first, place⟩) :: items) next

theorem Stacked.length_eq {first next : Nat} {es items : List Expr}
    (h : Stacked first es items next) : items.length = es.length := by
  induction h with
  | nil => rfl
  | cons _ _ ih => rw [List.length_cons, List.length_cons, ih]

theorem Stacked.le {first next : Nat} {es items : List Expr} (h : Stacked first es items next) :
    first ≤ next := by
  induction h with
  | nil => exact Nat.le_refl _
  | cons _ _ ih => exact Nat.le_of_add_right_le ih

theorem Joined.head {offset : Nat} {tss : List (List Token)} {us : List Token}
    (h : Joined offset tss us) : ∃ t ts, us = t :: ts ∧ ¬ t.kind.Ends := by
  cases h with
  | last one | more one _ =>
    obtain ⟨t, ts, rfl⟩ := List.exists_cons_of_ne_nil one.1
    exact ⟨t.shift offset, _, rfl, one.2 t List.mem_cons_self⟩

def IsStatement (source : String) (ts : List Token) : Prop :=
  tokenize source = .ok ts ∧ 2 ≤ ts.length ∧ ∀ t ∈ ts, t.kind ≠ .semicolon

theorem IsStatement.oneStatement {source : String} {ts : List Token} (h : IsStatement source ts) :
    ∃ init, ts = init ++ [⟨.eof, "", source.toList.length⟩] ∧ Token.OneStatement init := by
  obtain ⟨htokens, hlength, hsemicolon⟩ := h
  have hscanned : Scanned 0 source.toList ts := Scanner.scanned_of_tokens htokens
  obtain ⟨init, rfl, hinit⟩ := hscanned.eof_last
  rw [Nat.zero_add]
  refine ⟨init, rfl, ?_, fun t ht hends => ?_⟩
  · rintro rfl
    exact absurd hlength (by simp)
  · have heof := (hinit t ht).1
    have hne := hsemicolon t (List.mem_append_left _ ht)
    generalize t.kind = kind at hends heof hne
    cases hends with
    | eof => exact heof rfl
    | semicolon => exact hne rfl

theorem Joined.scanned {sources : List String} {f : String → List Token}
    (h : ∀ source ∈ sources, IsStatement source (f source)) (hne : sources ≠ []) (offset : Nat) :
    ∃ us, Joined offset (sources.map f) us ∧
      Scanned offset (";".intercalate sources).toList us := by
  induction sources generalizing offset with
  | nil => exact absurd rfl hne
  | cons source sources ih =>
    obtain ⟨hsource, hsources⟩ := List.forall_mem_cons.1 h
    have hscanned := (tokenize_eq_ok_iff.1 hsource.1).shift offset
    obtain ⟨init, hf, hinit⟩ := hsource.oneStatement
    rw [hf, List.map_append, Nat.zero_add] at hscanned
    rw [List.map_cons, hf]
    cases sources with
    | nil =>
      rw [String.intercalate_singleton]
      exact ⟨_, .last hinit, hscanned⟩
    | cons next sources =>
      obtain ⟨us, hjoined, hus⟩ :=
        ih hsources (List.cons_ne_nil next sources) (source.toList.length + offset + 1)
      refine ⟨_, .more hinit hjoined, ?_⟩
      have hparted : Text.Parted (';' :: (";".intercalate (next :: sources)).toList) := by
        intro c hc
        cases hc
        rfl
      rw [Nat.add_comm source.toList.length] at hus ⊢
      have happend := hscanned.append hparted hus.semicolon
      rw [List.map_singleton, List.dropLast_concat] at happend
      rw [String.intercalate_cons_cons, String.toList_append, String.toList_append,
        List.append_assoc]
      exact happend

namespace Parser

/-- What is left of a statement that stands alone, and of the same statement before the tokens
`rest`. -/
def Leading (offset stop : Nat) (rest us us' : List Token) : Prop :=
  ∃ ts, (∀ t ∈ ts, ¬ t.kind.Ends) ∧ us = ts ++ [⟨.eof, "", stop⟩] ∧
    us' = ts.map (Token.shift offset) ++ rest

structure Awaits (limit : Nat) (us : List Token) (p : Parser) : Prop where
  tokens : p.remaining = us
  closed : p.Closed
  depth : p.depth = 0
  limit : p.limit = limit

section
variable {limit offset stop : Nat} {ts rest us : List Token} {t : Token} {p q : Parser} {e : Expr}

theorem Leading.head {u u' : Token} {us' : List Token}
    (h : Leading offset stop rest (u :: us) (u' :: us')) :
    u = ⟨.eof, "", stop⟩ ∧ u' :: us' = rest ∨
      ¬ u.kind.Ends ∧ u' = u.shift offset ∧ Leading offset stop rest us us' := by
  obtain ⟨ts, hts, hus, hus'⟩ := h
  cases ts with
  | nil => exact .inl ⟨(List.cons.inj hus).1, hus'⟩
  | cons v ts =>
    obtain ⟨hv, hothers⟩ := List.forall_mem_cons.1 hts
    cases hus
    cases hus'
    exact .inr ⟨hv, rfl, ts, hothers, rfl, rfl⟩

theorem aligned_leading (rest : List Token) (hkind : t.kind.Ends)
    (hposition : t.position = stop + offset) :
    Aligned (· + offset) (Leading offset stop (t :: rest)) where
  kind h := by
    rcases h.head with ⟨rfl, hrest⟩ | ⟨-, rfl, -⟩
    · cases hrest
      exact .inr ⟨.eof, hkind⟩
    · exact .inl (.refl _)
  position h := by
    rcases h.head with ⟨rfl, hrest⟩ | ⟨-, rfl, -⟩
    · cases hrest
      exact hposition
    · rfl
  tail h hends := by
    rcases h.head with ⟨rfl, -⟩ | ⟨-, -, htail⟩
    · exact absurd .eof hends
    · exact htail

theorem Leading.at_end {q' : Parser} (h : Leading offset stop rest q.remaining q'.remaining)
    (hq : q.current.kind.Ends) : q.current.kind = .eof ∧ q'.remaining = rest := by
  rcases Leading.head h with ⟨hcurrent, hrest⟩ | ⟨hne, -, -⟩
  · exact ⟨congrArg Token.kind hcurrent, hrest⟩
  · exact absurd hq hne

theorem Awaits.ofTokens (limit : Nat) (us : List Token)
    (hlast : us.getLast?.map Token.kind = some .eof) :
    Awaits limit us (.ofTokens limit us) := by
  refine ⟨remaining_ofTokens_of_eof hlast, closed_ofTokens limit us, ?_, ?_⟩
  · cases us <;> rfl
  · cases us <;> rfl

theorem Awaits.step (h : Awaits limit (t :: us) p) (ht : t.kind = .semicolon) :
    Awaits limit us p.step := by
  have hcurrent : p.current = t := (List.cons.inj h.tokens).1
  have hne : p.current.kind ≠ .eof := by
    rw [hcurrent, ht]
    decide
  have htokens := h.tokens
  rw [remaining_step h.closed hne] at htokens
  exact ⟨(List.cons.inj htokens).2, step_closed h.closed, (step_depth p).trans h.depth,
    (step_limit p).trans h.limit⟩

theorem Awaits.after (h : Awaits limit us p) {place : Nat → Nat}
    (he : Run p (.binary 0 (e.remark (Shift.mark ⟨p.nextId, place⟩))) q)
    (hq : q.remaining = rest) :
    Awaits limit rest q ∧ q.nextId = p.nextId + e.nodes.length := by
  obtain ⟨hlimit, hdepth⟩ := he.depth
  refine ⟨⟨hq, he.closed h.closed, ?_, hlimit.trans h.limit⟩, ?_⟩
  · rw [hdepth, h.depth, Nat.zero_sub]
  · rw [he.numbered.2, Expr.nodes_remark, List.length_map]

theorem parseTokens_oneStatement (hts : Token.OneStatement ts) :
    parseTokens limit (ts ++ [⟨.eof, "", stop⟩]) = .ok e ↔
      ∃ q, Run (.ofTokens limit (ts ++ [⟨.eof, "", stop⟩])) (.binary 0 e) q ∧
        q.current.kind = .eof := by
  have hremaining := (Awaits.ofTokens limit (ts ++ [⟨.eof, "", stop⟩]) (by simp)).tokens
  have hnone {e : Expr} {q : Parser}
      (he : Run (.ofTokens limit (ts ++ [⟨.eof, "", stop⟩])) (.binary 0 e) q) :
      q.current.kind ≠ .semicolon := by
    intro hk
    have hmem := he.within.subset (List.mem_cons_self : q.current ∈ q.remaining)
    rw [hremaining, List.mem_append, List.mem_singleton] at hmem
    rcases hmem with hmem | heq
    · exact hts.2 _ hmem (hk ▸ .semicolon)
    · rw [heq] at hk
      cases hk
  rw [parseTokens_eq_ok_iff]
  constructor
  · rintro ⟨items, q, hs, hq, hitems⟩
    cases hs with
    | last he hk =>
      rcases hitems with hitems | ⟨hlength, -⟩
      · cases hitems
        exact ⟨q, he, hq⟩
      · exact absurd rfl hlength
    | closed he hk _ => exact absurd hk (hnone he)
    | next he hk _ _ => exact absurd hk (hnone he)
  · rintro ⟨q, he, hq⟩
    exact ⟨[e], q, .last he (hnone he), hq, .inl rfl⟩

theorem Awaits.beside (h : Awaits limit (ts.map (Token.shift offset) ++ rest) p)
    (hts : Token.OneStatement ts) :
    Beside ⟨p.nextId, (· + offset)⟩ (Leading offset stop rest)
      (.ofTokens limit (ts ++ [⟨.eof, "", stop⟩])) p := by
  have hstart := Awaits.ofTokens limit (ts ++ [⟨.eof, "", stop⟩]) (by simp)
  refine ⟨⟨ts, hts.2, hstart.tokens, h.tokens⟩, ?_, h.depth.trans hstart.depth.symm,
    h.limit.trans hstart.limit.symm, hstart.closed, h.closed⟩
  have hnumber : (Parser.ofTokens limit (ts ++ [⟨.eof, "", stop⟩])).nextId = 0 := by
    cases ts <;> rfl
  rw [hnumber, Nat.zero_add]

theorem Awaits.run (h : Awaits limit (ts.map (Token.shift offset) ++ t :: rest) p)
    (hts : Token.OneStatement ts) (hkind : t.kind.Ends) (hposition : t.position = stop + offset)
    (he : parseTokens limit (ts ++ [⟨.eof, "", stop⟩]) = .ok e) :
    ∃ q, Run p (.binary 0 (e.remark (Shift.mark ⟨p.nextId, (· + offset)⟩))) q ∧
      Awaits limit (t :: rest) q ∧ q.nextId = p.nextId + e.nodes.length := by
  obtain ⟨q, hrun, hq⟩ := (parseTokens_oneStatement hts).1 he
  obtain ⟨q', hrun', hbeside⟩ := (h.beside hts).run (aligned_leading rest hkind hposition) hrun
  exact ⟨q', hrun', h.after hrun' (Leading.at_end hbeside.tokens (hq ▸ .eof)).2⟩

theorem Awaits.alone (h : Awaits limit (ts.map (Token.shift offset) ++ t :: rest) p)
    (hts : Token.OneStatement ts) (hkind : t.kind.Ends) (hposition : t.position = stop + offset)
    {item : Expr} (hitem : Run p (.binary 0 item) q) (hq : q.current.kind.Ends) :
    ∃ e, parseTokens limit (ts ++ [⟨.eof, "", stop⟩]) = .ok e ∧
      item = e.remark (Shift.mark ⟨p.nextId, (· + offset)⟩) ∧
      Awaits limit (t :: rest) q ∧ q.nextId = p.nextId + e.nodes.length := by
  have hA := aligned_leading rest hkind hposition
  obtain ⟨e, r, hrun, rfl, hbeside⟩ := (h.beside hts).run_of hA hitem
  obtain ⟨hr, hrest⟩ := Leading.at_end hbeside.tokens ((hbeside.like hA).ends_iff.1 hq)
  exact ⟨e, (parseTokens_oneStatement hts).2 ⟨r, hrun, hr⟩, rfl, h.after hitem hrest⟩

end

end Parser

namespace Joined
open FieldFormula.Parser
variable {limit offset : Nat} {tss : List (List Token)} {us : List Token} {p : Parser}

theorem current (h : Joined offset tss us) (hp : Awaits limit us p) : ¬ p.current.kind.Ends := by
  obtain ⟨t, ts, rfl, ht⟩ := h.head
  rwa [(List.cons.inj hp.tokens).1]

theorem statements (h : Joined offset tss us) {es : List Expr}
    (hes : List.Forall₂ (fun ts e => parseTokens limit ts = .ok e) tss es)
    (hp : Awaits limit us p) :
    ∃ items q, Statements p items q ∧ q.current.kind = .eof ∧
      Stacked p.nextId es items q.nextId := by
  induction h generalizing es p with
  | last one =>
    obtain ⟨e, _, he, ⟨⟩, rfl⟩ := List.forall₂_cons_left_iff.1 hes
    obtain ⟨q, hrun, hq, hnext⟩ := hp.run one .eof rfl he
    have hcurrent := (List.cons.inj hq.tokens).1
    have heof : q.current.kind = .eof := congrArg Token.kind hcurrent
    have hne : q.current.kind ≠ .semicolon := by
      rw [heof]
      decide
    exact ⟨_, q, .last hrun hne, heof, .cons _ (hnext ▸ .nil)⟩
  | more one others ih =>
    obtain ⟨e, es, he, hothers, rfl⟩ := List.forall₂_cons_left_iff.1 hes
    obtain ⟨q, hrun, hq, hnext⟩ := hp.run one .semicolon rfl he
    have hcurrent := (List.cons.inj hq.tokens).1
    have hstep := hq.step rfl
    have hne : q.step.current.kind ≠ .eof := fun hk => others.current hstep (hk ▸ .eof)
    obtain ⟨items, r, hs, hr, hstacked⟩ := ih hothers hstep
    rw [step_nextId, hnext] at hstacked
    exact ⟨_, r, .next hrun (by rw [hcurrent]) hne hs, hr, .cons _ hstacked⟩

theorem alone (h : Joined offset tss us) {items : List Expr} {q : Parser}
    (hs : Statements p items q) (hq : q.current.kind = .eof) (hp : Awaits limit us p) :
    ∃ es, List.Forall₂ (fun ts e => parseTokens limit ts = .ok e) tss es ∧
      Stacked p.nextId es items q.nextId := by
  induction h generalizing items p with
  | last one =>
    cases hs with
    | last he _ =>
      obtain ⟨e, hparse, rfl, -, hnext⟩ := hp.alone one .eof rfl he (hq ▸ .eof)
      exact ⟨[e], .cons hparse .nil, .cons _ (hnext ▸ .nil)⟩
    | closed he hk _ | next he hk _ _ =>
      obtain ⟨-, -, -, hawaits, -⟩ := hp.alone one .eof rfl he (hk ▸ .semicolon)
      rw [(List.cons.inj hawaits.tokens).1] at hk
      cases hk
  | more one others ih =>
    cases hs with
    | last he _ =>
      obtain ⟨-, -, -, hawaits, -⟩ := hp.alone one .semicolon rfl he (hq ▸ .eof)
      rw [(List.cons.inj hawaits.tokens).1] at hq
      cases hq
    | @closed _ r _ he hk heof =>
      obtain ⟨-, -, -, hawaits, -⟩ := hp.alone one .semicolon rfl he (hk ▸ .semicolon)
      exact absurd (heof ▸ .eof) (others.current (hawaits.step rfl))
    | next he hk _ hs =>
      obtain ⟨e, hparse, rfl, hawaits, hnext⟩ :=
        hp.alone one .semicolon rfl he (hk ▸ .semicolon)
      obtain ⟨es, hes, hstacked⟩ := ih hs (hawaits.step rfl)
      rw [step_nextId, hnext] at hstacked
      exact ⟨e :: es, .cons hparse hes, .cons _ hstacked⟩

end Joined

end FieldFormula
