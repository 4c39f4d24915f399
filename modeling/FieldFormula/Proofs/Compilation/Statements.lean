import FieldFormula.Proofs.Compilation.Stages
import FieldFormula.Proofs.Output.Closure
import FieldFormula.Proofs.Parser.Sequences

/-!
Statements compile independently of each other. Behind a semicolon a statement is read as it is
alone, its nodes have numbers of their own, and so the entries of the other statements do not reach
its text. Main statement: a formula compiles exactly when each of its statements does, to their
texts joined and with the type of the last (`statements_independent`).
-/
namespace FieldFormula

abbrev Analysis := Expr × ValueType × TypeTable

instance : Inhabited Analysis := ⟨.literal ⟨0, 0⟩ .null, .null, .empty⟩

namespace Typing
variable {schema : Schema} {first next : Nat} {items : List Expr} {xs : List Analysis}

theorem resolveItems_cons (schema : Schema) (last : ValueType) (item : Expr) (items : List Expr)
    (base : TypeTable) : resolveItems schema last (item :: items) base =
      (resolve schema item >>= fun t => resolveItems schema t items) base := by
  rw [resolveItems, resolve, bind_assoc]

def From (first : Nat) (entries : List (Nat × ValueType)) : Prop := ∀ x ∈ entries, first ≤ x.1

theorem resolveItems_stacked (h : Stacked first (xs.map Prod.fst) items next)
    (hxs : ∀ x ∈ xs, infer schema x.1 = .ok x.2)
    (hnumbers : ∀ x ∈ xs, ∀ n ∈ x.1.nodes, n.id < x.1.nodes.length) (last : ValueType)
    (base : TypeTable) :
    ∃ table new, resolveItems schema last items base = .ok ((xs.map (·.2.1)).getLastD last) table ∧
      table.entries = new ++ base.entries ∧ From first new ∧
      ∀ later final, TypeTable.entries final = later ++ table.entries → From next later →
        ∀ target : Target, items.map (target.generate final) =
          xs.map fun x => target.generate x.2.2 x.1 := by
  induction xs generalizing first items last base with
  | nil =>
    cases h
    exact ⟨base, [], rfl, rfl, nofun, fun _ _ _ _ _ => rfl⟩
  | cons x xs ih =>
    obtain ⟨e, t, types⟩ := x
    obtain ⟨hinfer, hxs⟩ := List.forall_mem_cons.1 hxs
    obtain ⟨hids, hnumbers⟩ := List.forall_mem_cons.1 hnumbers
    cases h with
    | @cons _ _ _ _ items place others =>
      obtain ⟨middle, hresolve, hmiddle⟩ := resolve_remark_of_infer hinfer ⟨first, place⟩ base
      obtain ⟨table, new, hitems, htable, hnew, htexts⟩ := ih others hxs hnumbers t middle
      refine ⟨table, new ++ Shift.entries ⟨first, place⟩ types.entries, ?_, ?_, ?_, ?_⟩
      · rw [resolveItems_cons, bind_eq_ok, List.map_cons, List.getLastD_cons]
        exact ⟨t, middle, hresolve, hitems⟩
      · rw [htable, hmiddle, List.append_assoc]
      · refine List.forall_mem_append.2 ⟨fun x hx => Nat.le_of_add_right_le (hnew x hx), ?_⟩
        exact List.forall_mem_map.2 fun x _ => Nat.le_add_left first x.1
      · intro later final hfinal hlater target
        rw [List.map_cons, List.map_cons, htexts later final hfinal hlater target]
        have hentries : final.entries = (later ++ new) ++
            (Shift.entries ⟨first, place⟩ types.entries ++ base.entries) := by
          rw [hfinal, htable, hmiddle, List.append_assoc]
        -- the statements behind this one have larger numbers than its nodes
        have hapart : ∀ n ∈ e.nodes, n.id + first ∉ (later ++ new).map Prod.fst := by
          intro n hn hmem
          obtain ⟨x, hx, hid⟩ := List.mem_map.1 hmem
          have hlt := hids n hn
          have hle := others.le
          rcases List.mem_append.1 hx with hx | hx
          · have hfrom := hlater x hx
            omega
          · have hfrom := hnew x hx
            omega
        exact congrArg (· :: _) (generate_remark (keeps_among hinfer hentries hapart) target)

theorem infer_of_resolveItems {es : List Expr} (h : Stacked first es items next)
    {last t : ValueType} {base table : TypeTable}
    (hitems : resolveItems schema last items base = .ok t table) :
    ∀ e ∈ es, ∃ x, infer schema e = .ok x := by
  induction h generalizing last base with
  | nil => exact nofun
  | @cons first next e es items place others ih =>
    rw [resolveItems_cons, bind_eq_ok] at hitems
    obtain ⟨u, middle, he, hitems⟩ := hitems
    refine List.forall_mem_cons.2 ⟨?_, ih hitems⟩
    cases hinfer : infer schema e with
    | ok x => exact ⟨x, rfl⟩
    | error err =>
      obtain ⟨last, herr⟩ := resolve_remark_of_infer_error hinfer ⟨first, place⟩ base
      rw [herr] at he
      cases he

end Typing

theorem exists_mem_of_forall₂ {α β : Type} {R : α → β → Prop} {as : List α} {bs : List β}
    (h : List.Forall₂ R as bs) : ∀ a ∈ as, ∃ b ∈ bs, R a b := by
  induction h with
  | nil => exact nofun
  | @cons a b as bs hab _ ih =>
    refine List.forall_mem_cons.2 ⟨⟨b, List.mem_cons_self, hab⟩, fun a' ha' => ?_⟩
    obtain ⟨b', hb', hR⟩ := ih a' ha'
    exact ⟨b', List.mem_cons_of_mem b hb', hR⟩

section
variable {schema : Schema} {limit : Nat} {tss : List (List Token)} {us : List Token}

theorem ids_of_parseTokens {ts : List Token} {e : Expr} (h : parseTokens limit ts = .ok e) :
    ∀ n ∈ e.nodes, n.id < e.nodes.length := by
  unfold parseTokens at h
  split at h
  · rename_i e' q hq
    cases h
    have hnumbered := Parser.numbered_of_formula hq
    have hfirst : (Parser.ofTokens limit ts).nextId = 0 := by cases ts <;> rfl
    rw [hfirst] at hnumbered
    intro n hn
    have hid := (hnumbered.mem_iff.1 (List.mem_map_of_mem hn)).2
    rwa [hnumbered.2, Nat.zero_add] at hid
  · cases h

theorem analyze_joined (h : Joined 0 tss us) (hlast : us.getLast?.map Token.kind = some .eof)
    (hmany : tss.length ≠ 1) {xs : List Analysis}
    (hxs : List.Forall₂ (fun ts x => analyzeTokens schema limit ts = .ok x) tss xs) :
    ∃ y : Analysis, analyzeTokens schema limit us = .ok y ∧
      y.2.1 = (xs.map (·.2.1)).getLastD .null ∧
      ∀ target : Target, target.generate y.2.2 y.1 =
        "; ".intercalate (xs.map fun x => target.generate x.2.2 x.1) := by
  have hparse : List.Forall₂ (fun ts e => parseTokens limit ts = .ok e) tss (xs.map Prod.fst) :=
    List.forall₂_map_right_iff.2 (hxs.imp fun _ _ hx => (analyzeTokens_eq_ok.1 hx).1)
  have hinfer : ∀ x ∈ xs, Typing.infer schema x.1 = .ok x.2 ∧
      ∀ n ∈ x.1.nodes, n.id < x.1.nodes.length := by
    intro x hx
    obtain ⟨ts, -, hts⟩ := exists_mem_of_forall₂ hxs.flip x hx
    obtain ⟨he, hx⟩ := analyzeTokens_eq_ok.1 hts
    exact ⟨hx, ids_of_parseTokens he⟩
  obtain ⟨items, q, hs, hq, hstacked⟩ :=
    h.statements hparse (Parser.Awaits.ofTokens limit us hlast)
  obtain ⟨table, new, hitems, -, -, htexts⟩ := Typing.resolveItems_stacked hstacked
    (fun x hx => (hinfer x hx).1) (fun x hx => (hinfer x hx).2) .null .empty
  have hlength : items.length ≠ 1 := by
    rwa [hstacked.length_eq, ← hparse.length_eq]
  let m := q.step.markAt (Parser.ofTokens limit us).origin
  let t := (xs.map (·.2.1)).getLastD .null
  refine ⟨(.sequence m items, t, table.record m.id t), analyzeTokens_eq_ok.2 ⟨?_, ?_⟩, rfl, ?_⟩
  · exact Parser.parseTokens_eq_ok_iff.2 ⟨items, q, hs, hq, .inr ⟨hlength, rfl⟩⟩
  · exact Typing.infer_eq_ok.2 (Typing.sequence_eq_known.2 ⟨table, hitems, rfl⟩)
  · intro target
    rw [Output.generate_sequence, htexts [(m.id, t)] (table.record m.id t) rfl ?_ target]
    exact List.forall_mem_singleton.2 (Nat.le_of_eq (Parser.step_nextId q).symm)

theorem alone_of_joined (h : Joined 0 tss us) (hlast : us.getLast?.map Token.kind = some .eof)
    (hmany : tss.length ≠ 1) {y : Analysis} (hy : analyzeTokens schema limit us = .ok y) :
    ∀ ts ∈ tss, ∃ x, analyzeTokens schema limit ts = .ok x := by
  obtain ⟨hparse, hinfer⟩ := analyzeTokens_eq_ok.1 hy
  obtain ⟨items, q, hs, hq, hitems⟩ := Parser.parseTokens_eq_ok_iff.1 hparse
  obtain ⟨es, hes, hstacked⟩ := h.alone hs hq (Parser.Awaits.ofTokens limit us hlast)
  rcases hitems with hone | ⟨-, hsequence⟩
  · rw [hes.length_eq, ← hstacked.length_eq, hone] at hmany
    exact absurd rfl hmany
  · rw [hsequence] at hinfer
    obtain ⟨table, hitems, -⟩ := Typing.sequence_eq_known.1 (Typing.infer_eq_ok.1 hinfer)
    intro ts hts
    obtain ⟨e, he, hparse⟩ := exists_mem_of_forall₂ hes ts hts
    obtain ⟨x, hx⟩ := Typing.infer_of_resolveItems hstacked hitems e he
    exact ⟨(e, x), analyzeTokens_eq_ok.2 ⟨hparse, hx⟩⟩

variable {sources : List String}

theorem analyze_intercalate (h : ∀ source ∈ sources, ∃ ts, IsStatement source ts)
    (hne : sources ≠ []) {g : String → Analysis}
    (hg : ∀ source ∈ sources, analyze schema limit source = .ok (g source)) :
    ∃ y : Analysis, analyze schema limit (";".intercalate sources) = .ok y ∧
      y.2.1 = (g (sources.getLast hne)).2.1 ∧
      ∀ target : Target, target.generate y.2.2 y.1 =
        "; ".intercalate
          (sources.map fun source => target.generate (g source).2.2 (g source).1) := by
  by_cases hone : sources.length = 1
  · obtain ⟨source, rfl⟩ := List.length_eq_one_iff.1 hone
    refine ⟨g source, ?_, rfl, fun target => ?_⟩
    · rw [String.intercalate_singleton]
      exact hg source List.mem_cons_self
    · rw [List.map_singleton, String.intercalate_singleton]
  · choose! f hf using h
    obtain ⟨us, hjoined, hscanned⟩ := Joined.scanned hf hne 0
    have hus := tokenize_eq_ok_iff.2 hscanned
    have hxs : List.Forall₂ (fun ts x => analyzeTokens schema limit ts = .ok x) (sources.map f)
        (sources.map g) := by
      rw [List.forall₂_map_left_iff, List.forall₂_map_right_iff, List.forall₂_same]
      intro source hsource
      rw [← analyze_of_tokenize (hf source hsource).1]
      exact hg source hsource
    obtain ⟨y, hy, htype, htexts⟩ := analyze_joined hjoined (getLast?_of_tokenize hus)
      (by rwa [List.length_map]) hxs
    refine ⟨y, (analyze_of_tokenize hus).trans hy, ?_, fun target => ?_⟩
    · rw [htype, List.map_map, List.getLastD_eq_getLast?, List.getLast?_map,
        List.getLast?_eq_some_getLast hne]
      rfl
    · rw [htexts target, List.map_map]
      rfl

theorem analyze_of_intercalate (h : ∀ source ∈ sources, ∃ ts, IsStatement source ts)
    (hne : sources ≠ []) {y : Analysis}
    (hy : analyze schema limit (";".intercalate sources) = .ok y) :
    ∀ source ∈ sources, ∃ x, analyze schema limit source = .ok x := by
  by_cases hone : sources.length = 1
  · obtain ⟨source, rfl⟩ := List.length_eq_one_iff.1 hone
    rw [String.intercalate_singleton] at hy
    exact List.forall_mem_singleton.2 ⟨y, hy⟩
  · choose! f hf using h
    obtain ⟨us, hjoined, hscanned⟩ := Joined.scanned hf hne 0
    have hus := tokenize_eq_ok_iff.2 hscanned
    rw [analyze_of_tokenize hus] at hy
    intro source hsource
    rw [analyze_of_tokenize (hf source hsource).1]
    exact alone_of_joined hjoined (getLast?_of_tokenize hus) (by rwa [List.length_map]) hy
      (f source) (List.mem_map_of_mem hsource)

theorem compile_ok_iff {target : Target} {source : String} :
    (∃ text, compile schema limit target source = .ok text) ↔
      ∃ x, analyze schema limit source = .ok x := by
  rw [compile_eq_map]
  cases analyze schema limit source with
  | ok x => exact iff_of_true ⟨_, rfl⟩ ⟨x, rfl⟩
  | error err => exact iff_of_false nofun nofun

theorem exists_analyses {target : Target} {texts : List String}
    (h : sources.map (compile schema limit target) = texts.map .ok) :
    ∃ g : String → Analysis, (∀ source ∈ sources, analyze schema limit source = .ok (g source)) ∧
      texts = sources.map fun source => target.generate (g source).2.2 (g source).1 := by
  have hsources : ∀ source ∈ sources, ∃ x, analyze schema limit source = .ok x := by
    intro source hsource
    have hmem := List.mem_map_of_mem hsource (f := compile schema limit target)
    rw [h] at hmem
    obtain ⟨text, -, htext⟩ := List.mem_map.1 hmem
    exact compile_ok_iff.1 ⟨text, htext.symm⟩
  choose! g hg using hsources
  refine ⟨g, hg, List.map_injective_iff.2 (fun _ _ => Except.ok.inj) (h.symm.trans ?_)⟩
  rw [List.map_map]
  refine List.map_congr_left fun source hsource => ?_
  rw [compile_eq_map, hg source hsource]
  rfl

end

/-- Statements between semicolons are compiled independently of each other. The formula compiles
exactly when each of them does alone; its text is then made of their texts, and its type is that of
the last. -/
theorem statements_independent (schema : Schema) (limit : Nat) (target : Target)
    (sources : List String) (hne : sources ≠ [])
    (h : ∀ source ∈ sources, ∃ ts, IsStatement source ts) :
    ((∃ text, compile schema limit target (";".intercalate sources) = .ok text) ↔
      ∀ source ∈ sources, ∃ text, compile schema limit target source = .ok text) ∧
    ∀ texts : List String, sources.map (compile schema limit target) = texts.map .ok →
      compile schema limit target (";".intercalate sources) = .ok ("; ".intercalate texts) ∧
      ∃ t, check schema limit (";".intercalate sources) = .ok t ∧
        check schema limit (sources.getLast hne) = .ok t := by
  constructor
  · simp only [compile_ok_iff]
    constructor
    · rintro ⟨y, hy⟩
      exact analyze_of_intercalate h hne hy
    · intro hsources
      choose! g hg using hsources
      obtain ⟨y, hy, -⟩ := analyze_intercalate h hne hg
      exact ⟨y, hy⟩
  · intro texts htexts
    obtain ⟨g, hg, rfl⟩ := exists_analyses htexts
    obtain ⟨y, hy, htype, hgenerate⟩ := analyze_intercalate h hne hg
    refine ⟨?_, y.2.1, ?_, ?_⟩
    · rw [compile_eq_map, hy, ← hgenerate target]
      rfl
    · rw [check_eq_map, hy]
      rfl
    · rw [check_eq_map, hg _ (List.getLast_mem hne), htype]
      rfl

theorem statements_independent_quoted :
    let schema := Schema.empty.insert "Qty" ⟨"f1", .number⟩
    let sources := ["\x7b\x7bQty\x7d\x7d * 2", " iF(\x7b\x7bQty\x7d\x7d > 1, 'a;b', null)",
      "1 + 2 > 3 "]
    (∀ source ∈ sources, ∃ ts, IsStatement source ts) ∧
      compile schema 64 .script (";".intercalate sources) = .ok
        ("($$VARIABLES['Qty'] ?? 0) * 2; (($$VARIABLES['Qty'] ?? 0) > 1 ? \"a;b\" : null); " ++
          "1 + 2 > 3") ∧
      check schema 64 (";".intercalate sources) = .ok .boolean := by
  intro schema sources
  have hsources : ∀ source ∈ sources, ∃ ts, IsStatement source ts := by
    have hstatement (source : String) (h : (tokenize source).toOption.any (fun ts =>
        decide (2 ≤ ts.length ∧ ∀ t ∈ ts, t.kind ≠ .semicolon)) = true) :
        ∃ ts, IsStatement source ts := Parser.exists_ok h
    simp only [sources, List.forall_mem_cons]
    exact ⟨hstatement _ (by decide +kernel), hstatement _ (by decide +kernel),
      hstatement _ (by decide +kernel), nofun⟩
  obtain ⟨hcompile, t, hcheck, hlast⟩ := (statements_independent schema 64 .script sources
    (List.cons_ne_nil _ _) hsources).2
    ["($$VARIABLES['Qty'] ?? 0) * 2", "(($$VARIABLES['Qty'] ?? 0) > 1 ? \"a;b\" : null)",
      "1 + 2 > 3"]
    (by decide +kernel)
  have htype : check schema 64 "1 + 2 > 3 " = .ok .boolean := by decide +kernel
  cases hlast.symm.trans htype
  exact ⟨hsources, hcompile, hcheck⟩

end FieldFormula
