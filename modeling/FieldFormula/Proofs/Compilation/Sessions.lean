import FieldFormula.Proofs.Parser.Invariants
import FieldFormula.Proofs.Parser.Numbering
import FieldFormula.Proofs.Typing.Entries
import FieldFormula.Proofs.Typing.Marks
import Mathlib.Data.List.Nodup

/-!
One parser and one table of types that are asked again and again. Every tree that the parser gives
is numbered without gaps and apart from all others, also after failures. Main statement: trees that
are typed once each do not interfere, so each has the types and the texts that it has alone
(`sessions_apart`).
-/
namespace FieldFormula

structure Session where
  parser : Parser
  trees : List Expr
  table : TypeTable
  answers : List (Nat × Except TypeError ValueType)

namespace Session

inductive Call where
  | expression
  | formula
  | resolve (tree : Nat)
  deriving DecidableEq, Repr

def start (limit : Nat) (tokens : List Token) : Session := ⟨.ofTokens limit tokens, [], .empty, []⟩

def parsed (s : Session) : EStateM.Result ParseError Parser Expr → Session
  | .ok e p => { s with parser := p, trees := s.trees ++ [e] }
  | .error _ p => { s with parser := p }

def answered (s : Session) (k : Nat) (answer : Except TypeError ValueType) (table : TypeTable) :
    Session :=
  { s with table := table, answers := s.answers ++ [(k, answer)] }

def typed (s : Session) (k : Nat) : EStateM.Result TypeError TypeTable ValueType → Session
  | .ok t table => s.answered k (.ok t) table
  | .error err table => s.answered k (.error err) table

/-- There is nothing to type under a number that no tree has. -/
def step (schema : Schema) (s : Session) : Call → Session
  | .expression => s.parsed (Parser.expression s.parser)
  | .formula => s.parsed (Parser.formula s.parser)
  | .resolve k =>
    match s.trees[k]? with
    | none => s
    | some e => s.typed k (Typing.resolve schema e s.table)

theorem step_resolve_none {schema : Schema} {s : Session} {k : Nat} (hk : s.trees[k]? = none) :
    s.step schema (.resolve k) = s := by
  simp only [step, hk]

theorem step_resolve_some {schema : Schema} {s : Session} {k : Nat} {e : Expr}
    (hk : s.trees[k]? = some e) :
    s.step schema (.resolve k) = s.typed k (Typing.resolve schema e s.table) := by
  simp only [step, hk]

def run (schema : Schema) (limit : Nat) (tokens : List Token) (calls : List Call) : Session :=
  calls.foldl (step schema) (start limit tokens)

/-- The numbers that the parser has given away are those of the trees, and each tree has its own. -/
structure Fresh (s : Session) : Prop where
  closed : s.parser.Closed
  numbered : ∀ e ∈ s.trees, ∃ first next, Parser.Numbered first e.nodes next ∧
    next ≤ s.parser.nextId
  apart : ∀ (j k : Nat) (e e' : Expr), j ≠ k → s.trees[j]? = some e → s.trees[k]? = some e' →
    List.Disjoint (e.nodes.map Expr.id) (e'.nodes.map Expr.id)

section Parsing
variable {s : Session} {m : ParseM Expr}

def Counts (m : ParseM Expr) : Prop :=
  ∀ p : Parser, p.Closed → p.GoesOn (Parser.after m p) ∧
    ∀ e q, m p = .ok e q → Parser.Numbered p.nextId e.nodes q.nextId

theorem counts_expression : Counts Parser.expression := by
  intro p _
  refine ⟨(Parser.accountable_expression p.remaining p (List.Subset.refl _)).1, fun e q h => ?_⟩
  exact Parser.numbered_of_expression h

theorem counts_formula : Counts Parser.formula := by
  intro p _
  refine ⟨(Parser.accountable_formula p.remaining p (List.Subset.refl _)).1, fun e q h => ?_⟩
  exact Parser.numbered_of_formula h

theorem Fresh.moved (h : s.Fresh) {q : Parser} (hq : s.parser.GoesOn q) :
    Fresh { s with parser := q } where
  closed := hq.1.closed h.closed
  numbered e he := by
    obtain ⟨first, next, hnumbered, hnext⟩ := h.numbered e he
    exact ⟨first, next, hnumbered, Nat.le_trans hnext hq.2⟩
  apart := h.apart

theorem getElem?_concat_eq_some {α : Type} {l : List α} {a b : α} {k : Nat}
    (h : (l ++ [a])[k]? = some b) : l[k]? = some b ∨ k = l.length ∧ b = a := by
  rw [List.getElem?_append] at h
  split at h
  · exact .inl h
  · rw [List.getElem?_singleton] at h
    split at h
    · cases h
      exact .inr ⟨by omega, rfl⟩
    · cases h

theorem Fresh.disjoint_next (h : s.Fresh) {e e' : Expr} {next : Nat} (he : e ∈ s.trees)
    (he' : Parser.Numbered s.parser.nextId e'.nodes next) :
    List.Disjoint (e.nodes.map Expr.id) (e'.nodes.map Expr.id) := by
  obtain ⟨first, last, hnumbered, hlast⟩ := h.numbered e he
  intro id hid hid'
  have hlt := (hnumbered.mem_iff.1 hid).2
  have hle := (he'.mem_iff.1 hid').1
  omega

theorem Fresh.extended (h : s.Fresh) {e : Expr} {q : Parser} (hq : s.parser.GoesOn q)
    (he : Parser.Numbered s.parser.nextId e.nodes q.nextId) :
    Fresh { s with parser := q, trees := s.trees ++ [e] } where
  closed := hq.1.closed h.closed
  numbered := by
    refine List.forall_mem_append.2 ⟨(h.moved hq).numbered, List.forall_mem_singleton.2 ?_⟩
    exact ⟨_, _, he, Nat.le_refl _⟩
  apart j k a b hjk ha hb := by
    rcases getElem?_concat_eq_some ha with hj | ⟨rfl, rfl⟩
    · rcases getElem?_concat_eq_some hb with hk | ⟨rfl, rfl⟩
      · exact h.apart j k a b hjk hj hk
      · exact h.disjoint_next (List.mem_of_getElem? hj) he
    · rcases getElem?_concat_eq_some hb with hk | ⟨rfl, rfl⟩
      · exact List.disjoint_symm (h.disjoint_next (List.mem_of_getElem? hk) he)
      · exact absurd rfl hjk

theorem Fresh.parsed (h : s.Fresh) (hm : Counts m) : (s.parsed (m s.parser)).Fresh := by
  obtain ⟨hgoes, hnumbered⟩ := hm s.parser h.closed
  unfold Parser.after at hgoes
  unfold Session.parsed
  cases hq : m s.parser with
  | ok e q =>
    rw [hq] at hgoes
    exact h.extended hgoes (hnumbered e q hq)
  | error err q =>
    rw [hq] at hgoes
    exact h.moved hgoes

theorem Fresh.typed (h : s.Fresh) (k : Nat)
    (x : EStateM.Result TypeError TypeTable ValueType) : (s.typed k x).Fresh := by
  cases x with
  | ok t table => exact ⟨h.closed, h.numbered, h.apart⟩
  | error err table => exact ⟨h.closed, h.numbered, h.apart⟩

theorem Fresh.step (h : s.Fresh) (schema : Schema) (call : Call) : (s.step schema call).Fresh := by
  cases call with
  | expression => exact h.parsed counts_expression
  | formula => exact h.parsed counts_formula
  | resolve k =>
    cases hk : s.trees[k]? with
    | none => rwa [step_resolve_none hk]
    | some e =>
      rw [step_resolve_some hk]
      exact h.typed k _

theorem fresh_start (limit : Nat) (tokens : List Token) : (start limit tokens).Fresh where
  closed := Parser.closed_ofTokens limit tokens
  numbered := List.forall_mem_nil _
  apart _ _ _ _ _ h := nomatch h

end Parsing

/-- The entries of the table are those of the trees typed, which are found under their numbers as
they are when each tree is typed alone. -/
structure Recorded (schema : Schema) (s : Session) : Prop where
  nodup : (s.table.entries.map Prod.fst).Nodup
  owned : ∀ id ∈ s.table.entries.map Prod.fst, ∃ k e, k ∈ s.answers.map Prod.fst ∧
    s.trees[k]? = some e ∧ id ∈ e.nodes.map Expr.id
  alone : ∀ x ∈ s.answers, ∃ e, s.trees[x.1]? = some e ∧
    x.2 = (Typing.infer schema e).map Prod.fst ∧
    ∀ t types, Typing.infer schema e = .ok (t, types) → ∃ later base,
      s.table.entries = later ++ (types.entries ++ base) ∧
      List.Disjoint (e.nodes.map Expr.id) (later.map Prod.fst)

section Typing
variable {schema : Schema} {s : Session} {k : Nat} {e : Expr}

theorem recorded_start (schema : Schema) (limit : Nat) (tokens : List Token) :
    Recorded schema (start limit tokens) where
  nodup := List.nodup_nil
  owned := List.forall_mem_nil _
  alone := List.forall_mem_nil _

theorem Recorded.moved (h : Recorded schema s) (q : Parser) :
    Recorded schema { s with parser := q } :=
  ⟨h.nodup, h.owned, h.alone⟩

theorem Recorded.extended (h : Recorded schema s) (e : Expr) (q : Parser) :
    Recorded schema { s with parser := q, trees := s.trees ++ [e] } := by
  have hkept {k : Nat} {n : Expr} (hk : s.trees[k]? = some n) : (s.trees ++ [e])[k]? = some n :=
    (List.getElem?_append_left (List.getElem?_eq_some_iff.1 hk).1).trans hk
  refine ⟨h.nodup, fun id hid => ?_, fun x hx => ?_⟩
  · obtain ⟨k, n, hanswered, hk, hmem⟩ := h.owned id hid
    exact ⟨k, n, hanswered, hkept hk, hmem⟩
  · obtain ⟨n, hk, halone⟩ := h.alone x hx
    exact ⟨n, hkept hk, halone⟩

theorem Recorded.parsed (h : Recorded schema s) (x : EStateM.Result ParseError Parser Expr) :
    Recorded schema (s.parsed x) := by
  cases x with
  | ok e q => exact h.extended e q
  | error err q => exact h.moved q

theorem Recorded.disjoint (h : Recorded schema s) (hs : s.Fresh) (hk : s.trees[k]? = some e)
    (hnew : k ∉ s.answers.map Prod.fst) :
    List.Disjoint (e.nodes.map Expr.id) (s.table.entries.map Prod.fst) := by
  intro id hid hentry
  obtain ⟨j, n, hj, hn, hmem⟩ := h.owned id hentry
  have hne : j ≠ k := fun heq => hnew (heq ▸ hj)
  exact hs.apart j k n e hne hn hk hmem hid

theorem Recorded.answered (h : Recorded schema s) (hs : s.Fresh) (hk : s.trees[k]? = some e)
    (hnew : k ∉ s.answers.map Prod.fst) {answer : Except TypeError ValueType} {table : TypeTable}
    (hentered : Typing.Entered e.nodes s.table table)
    (hanswer : answer = (Typing.infer schema e).map Prod.fst)
    (halone : ∀ t types, Typing.infer schema e = .ok (t, types) →
      table.entries = types.entries ++ s.table.entries) :
    Recorded schema (s.answered k answer table) := by
  obtain ⟨new, hentries, hids⟩ := hentered
  have hdisjoint := h.disjoint hs hk hnew
  obtain ⟨first, next, hnumbered, -⟩ := hs.numbered e (List.mem_of_getElem? hk)
  have hkeys : table.entries.map Prod.fst =
      (new.map Prod.fst).reverse ++ s.table.entries.map Prod.fst := by
    rw [hentries, List.map_append, List.map_reverse]
  constructor
  · change (table.entries.map Prod.fst).Nodup
    rw [hkeys, List.nodup_append']
    refine ⟨List.nodup_reverse.2 (hnumbered.nodup.sublist hids), h.nodup, ?_⟩
    intro id hid
    exact hdisjoint (hids.subset (List.mem_reverse.1 hid))
  · intro id hid
    change id ∈ table.entries.map Prod.fst at hid
    simp only [Session.answered, List.map_append, List.mem_append]
    rw [hkeys, List.mem_append, List.mem_reverse] at hid
    rcases hid with hid | hid
    · exact ⟨k, e, .inr (by simp), hk, hids.subset hid⟩
    · obtain ⟨j, n, hj, hn, hmem⟩ := h.owned id hid
      exact ⟨j, n, .inl hj, hn, hmem⟩
  · refine List.forall_mem_append.2 ⟨fun x hx => ?_, List.forall_mem_singleton.2 ?_⟩
    · -- the tree of an earlier answer has other numbers than the entries made now
      obtain ⟨n, hn, hx', hearlier⟩ := h.alone x hx
      refine ⟨n, hn, hx', fun t types hinfer => ?_⟩
      obtain ⟨later, base, htable, hlater⟩ := hearlier t types hinfer
      refine ⟨new.reverse ++ later, base, ?_, ?_⟩
      · rw [Session.answered, hentries, htable, List.append_assoc]
      · have hne : x.1 ≠ k := fun heq => hnew (heq ▸ List.mem_map_of_mem hx)
        rw [List.map_append, List.map_reverse]
        intro id hid hlate
        rcases List.mem_append.1 hlate with hlate | hlate
        · exact hs.apart x.1 k n e hne hn hk hid (hids.subset (List.mem_reverse.1 hlate))
        · exact hlater hid hlate
    · refine ⟨e, hk, hanswer, fun t types hinfer => ⟨[], s.table.entries, ?_, ?_⟩⟩
      · exact halone t types hinfer
      · exact List.disjoint_nil_right _

theorem Recorded.typed (h : Recorded schema s) (hs : s.Fresh) (hk : s.trees[k]? = some e)
    (hnew : k ∉ s.answers.map Prod.fst) :
    Recorded schema (s.typed k (Typing.resolve schema e s.table)) := by
  have haccountable := Typing.accountable_resolve schema e s.table
  cases hinfer : Typing.infer schema e with
  | ok x =>
    obtain ⟨table, hresolve, htable⟩ := Typing.resolve_remark_of_infer hinfer .stay s.table
    rw [Shift.remark_stay] at hresolve
    rw [Shift.entries_stay] at htable
    rw [hresolve] at haccountable ⊢
    refine h.answered hs hk hnew haccountable.2 (by rw [hinfer]; rfl) fun t types halone => ?_
    cases hinfer.symm.trans halone
    exact htable
  | error err =>
    obtain ⟨table, hresolve⟩ := Typing.resolve_remark_of_infer_error hinfer .stay s.table
    rw [Shift.remark_stay] at hresolve
    rw [hresolve] at haccountable ⊢
    refine h.answered hs hk hnew haccountable.2 (by rw [hinfer]; rfl) fun t types halone => ?_
    cases hinfer.symm.trans halone

theorem answers_typed (s : Session) (k : Nat)
    (x : EStateM.Result TypeError TypeTable ValueType) :
    (s.typed k x).answers.map Prod.fst = s.answers.map Prod.fst ++ [k] := by
  cases x with
  | ok t table => exact List.map_append
  | error err table => exact List.map_append

theorem answers_parsed (s : Session) (x : EStateM.Result ParseError Parser Expr) :
    (s.parsed x).answers = s.answers := by
  cases x with
  | ok e q => rfl
  | error err q => rfl

/-- As long as no tree is typed twice, one call keeps the entries apart. -/
theorem recorded_step (hs : s.Fresh) (h : (s.answers.map Prod.fst).Nodup → Recorded schema s)
    (call : Call) (hnodup : ((s.step schema call).answers.map Prod.fst).Nodup) :
    Recorded schema (s.step schema call) := by
  cases call with
  | expression =>
    rw [step, answers_parsed] at hnodup
    exact (h hnodup).parsed _
  | formula =>
    rw [step, answers_parsed] at hnodup
    exact (h hnodup).parsed _
  | resolve k =>
    cases hk : s.trees[k]? with
    | none =>
      rw [step_resolve_none hk] at hnodup ⊢
      exact h hnodup
    | some e =>
      rw [step_resolve_some hk] at hnodup ⊢
      rw [answers_typed, List.nodup_append', List.disjoint_singleton] at hnodup
      exact (h hnodup.1).typed hs hk hnodup.2.2

end Typing

theorem sound_foldl {schema : Schema} {s : Session} (hs : s.Fresh)
    (h : (s.answers.map Prod.fst).Nodup → Recorded schema s) (calls : List Call) :
    (calls.foldl (step schema) s).Fresh ∧
      (((calls.foldl (step schema) s).answers.map Prod.fst).Nodup →
        Recorded schema (calls.foldl (step schema) s)) := by
  induction calls generalizing s with
  | nil => exact ⟨hs, h⟩
  | cons call calls ih => exact ih (hs.step schema call) (recorded_step hs h call)

/-- Whatever a parser and a table of types are asked, and whatever fails, the nodes of each tree are
numbered without gaps, children first, and no two trees share a number. Where no tree is typed
twice, no number is entered twice; typing a tree answers as it does alone, and a tree that is typed
has the types and the texts that it has alone. -/
theorem sessions_apart (schema : Schema) (limit : Nat) (tokens : List Token) (calls : List Call) :
    let s := run schema limit tokens calls
    (∀ e ∈ s.trees, ∃ first, e.nodes.map Expr.id = List.range' first e.nodes.length) ∧
    (∀ (j k : Nat) (e e' : Expr), j ≠ k → s.trees[j]? = some e → s.trees[k]? = some e' →
      List.Disjoint (e.nodes.map Expr.id) (e'.nodes.map Expr.id)) ∧
    ((s.answers.map Prod.fst).Nodup →
      (s.table.entries.map Prod.fst).Nodup ∧
      ∀ x ∈ s.answers, ∃ e, s.trees[x.1]? = some e ∧
        x.2 = (Typing.infer schema e).map Prod.fst ∧
        ∀ t types, Typing.infer schema e = .ok (t, types) →
          (∀ id ∈ e.nodes.map Expr.id, s.table.get? id = types.get? id) ∧
          ∀ target : Target, target.generate s.table e = target.generate types e) := by
  intro s
  obtain ⟨hfresh, hrecorded⟩ := sound_foldl (fresh_start limit tokens)
    (fun _ => recorded_start schema limit tokens) calls
  refine ⟨fun e he => ?_, hfresh.apart, fun hnodup => ⟨(hrecorded hnodup).nodup, fun x hx => ?_⟩⟩
  · obtain ⟨first, _, hnumbered, -⟩ := hfresh.numbered e he
    exact ⟨first, hnumbered.1⟩
  · obtain ⟨e, hk, hanswer, halone⟩ := (hrecorded hnodup).alone x hx
    refine ⟨e, hk, hanswer, fun t types hinfer => ?_⟩
    obtain ⟨later, base, htable, hlater⟩ := halone t types hinfer
    have hentries : s.table.entries = later ++ (Shift.stay.entries types.entries ++ base) := by
      rw [Shift.entries_stay]
      exact htable
    have hapart (n : Expr) (hn : n ∈ e.nodes) : n.id + Shift.stay.offset ∉ later.map Prod.fst :=
      fun hmem => hlater (List.mem_map_of_mem hn) hmem
    constructor
    · intro id hid
      obtain ⟨n, hn, rfl⟩ := List.mem_map.1 hid
      exact Typing.get?_among hinfer hentries hn (hapart n hn)
    · intro target
      have htext := generate_remark (Typing.keeps_among hinfer hentries hapart) target
      rwa [Shift.remark_stay] at htext

/-- `1 == foo (1) & true 'x' - 2`: no function is called `foo`, and the first call stops behind it.
The other two give `(1) & true` and `'x' - 2`, of which the second has no type. -/
theorem sessions_apart_failures :
    let number (n : Fin 10) (position : Nat) : Token :=
      ⟨.literal (.number (.ofDigit n)), toString n, position⟩
    let tokens : List Token := [number 1 0, ⟨.operator .equal, "==", 2⟩,
      ⟨.identifier "foo", "foo", 5⟩, ⟨.leftParen, "(", 9⟩, number 1 10, ⟨.rightParen, ")", 11⟩,
      ⟨.operator .concat, "&", 13⟩, ⟨.literal (.boolean true), "true", 15⟩,
      ⟨.literal (.text "x"), "'x'", 20⟩, ⟨.operator .subtract, "-", 24⟩, number 2 26,
      ⟨.eof, "", 27⟩]
    let s := run .empty 64 tokens [.expression, .expression, .formula, .resolve 1, .resolve 0]
    s.trees.map (fun e => e.nodes.map Expr.id) = [[1, 2, 3, 4], [5, 6, 7]] ∧
    s.answers = [(1, .error ⟨.mismatch (.binary .subtract), 24⟩), (0, .ok .string)] ∧
    (s.table.entries.map Prod.fst).Nodup ∧
    ∃ e types, s.trees[0]? = some e ∧ Typing.infer .empty e = .ok (.string, types) ∧
      ∀ target : Target, target.generate s.table e = target.generate types e := by
  intro number tokens s
  have hids : s.trees.map (fun e => e.nodes.map Expr.id) = [[1, 2, 3, 4], [5, 6, 7]] := by
    decide +kernel
  have hanswers : s.answers =
      [(1, .error ⟨.mismatch (.binary .subtract), 24⟩), (0, .ok .string)] := by
    decide +kernel
  have hapart := (sessions_apart .empty 64 tokens
    [.expression, .expression, .formula, .resolve 1, .resolve 0]).2.2
  obtain ⟨s', hs⟩ : ∃ s', s = s' := ⟨s, rfl⟩
  rw [show run .empty 64 tokens _ = s' from hs] at hapart
  rw [hs] at hids hanswers ⊢
  obtain ⟨hnodup, halone⟩ := hapart (by rw [hanswers]; decide)
  obtain ⟨e, he, hanswer, htypes⟩ := halone (0, .ok .string) (by simp [hanswers])
  refine ⟨hids, hanswers, hnodup, e, ?_⟩
  cases hinfer : Typing.infer .empty e with
  | error err =>
    rw [hinfer] at hanswer
    cases hanswer
  | ok x =>
    rw [hinfer] at hanswer
    obtain ⟨t, types⟩ := x
    cases hanswer
    exact ⟨types, he, rfl, (htypes _ _ hinfer).2⟩

end Session

end FieldFormula
