import FieldFormula.Proofs.Compilation.Mentions
import FieldFormula.Proofs.Json.Reading
import FieldFormula.Request

/-!
Schemas written as JSON text. Whatever the order of the fields and the spaces between words, the
text is read as a schema with the same fields (`exists_schema_of_written`). Main statement: a
request with the schema as text has the answer of the compiler with the schema itself
(`request_eq_compilation`).
-/
namespace FieldFormula

open Json (Spaced Reads quoted objectWords)

def Field.Written (f : Field) (words : List (List Char)) : Prop :=
  words = objectWords [("id", [quoted f.id]), ("type", [quoted f.type.name])] ∨
  words = objectWords [("type", [quoted f.type.name]), ("id", [quoted f.id])]

structure Schema.Lists (schema : Schema) (fields : List (String × Field)) : Prop where
  nodup : (fields.map Prod.fst).Nodup
  mem (name : String) (f : Field) : (name, f) ∈ fields ↔ schema.get? name = some f

/-- The text is the schema as an object, its fields in any order. -/
def Schema.Written (schema : Schema) (text : String) : Prop :=
  ∃ (fields : List (String × Field)) (members : List (String × List (List Char))),
    schema.Lists fields ∧
    List.Forall₂ (fun x m => m.1 = x.1 ∧ x.2.Written m.2) fields members ∧
    Spaced (objectWords members) text.toList

def Field.words (f : Field) : List (List Char) :=
  objectWords [("id", [quoted f.id]), ("type", [quoted f.type.name])]

def Schema.compact (fields : List (String × Field)) : String :=
  String.ofList (objectWords (fields.map fun x => (x.1, x.2.words))).flatten

section Fields
variable {f : Field} {fields : List (String × Field)}

theorem ValueType.ofName?_name {t : ValueType} (h : t ≠ .null) : ofName? t.name = some t := by
  cases t with
  | null => exact absurd rfl h
  | _ => rfl

theorem Field.ofParts?_eq (h : f.type ≠ .null) :
    ofParts? (.text (some f.id)) (.text (some f.type.name)) = some f := by
  simp [ofParts?, ValueType.ofJson?, ValueType.ofName?_name h]

theorem Field.Written.read {words : List (List Char)} (h : f.Written words)
    (ht : f.type ≠ .null) : ∃ j, Reads 4 words j ∧ Field.ofJson? j = some f := by
  have hid := Json.reads_text f.id
  have htype := Json.reads_text f.type.name
  rcases h with rfl | rfl
  · refine ⟨_, Json.reads_object (.cons hid (.cons htype .nil)), ?_⟩
    exact ofParts?_eq ht
  · refine ⟨_, Json.reads_object (.cons htype (.cons hid .nil)), ?_⟩
    exact ofParts?_eq ht

theorem lookup_filter {entries : List (String × Field)} {name other : String}
    (h : other ≠ name) : (entries.filter (·.1 != name)).lookup other = entries.lookup other := by
  induction entries with
  | nil => rfl
  | cons x entries ih =>
    by_cases hx : x.1 = name
    · have hne : (other == x.1) = false := by simpa [hx] using h
      rw [List.filter_cons_of_neg (by simp [hx]), ih, List.lookup_cons, hne]
    · rw [List.filter_cons_of_pos (by simp [hx]), List.lookup_cons, List.lookup_cons, ih]

theorem Schema.get?_insert (s : Schema) (name : String) (f : Field) (other : String) :
    (s.insert name f).get? other = if other = name then some f else s.get? other := by
  rw [get?, insert, List.lookup_cons]
  by_cases h : other = name
  · simp [h]
  · rw [if_neg h, lookup_filter h, beq_false_of_ne h, get?]

def Schema.insertAll (s : Schema) (fields : List (String × Field)) : Schema :=
  fields.foldl (fun s x => s.insert x.1 x.2) s

theorem Schema.get?_insertAll_of_not_mem {name : String} (h : name ∉ fields.map Prod.fst)
    (s : Schema) : (s.insertAll fields).get? name = s.get? name := by
  induction fields generalizing s with
  | nil => rfl
  | cons x fields ih =>
    rw [List.map_cons, List.mem_cons, not_or] at h
    exact (ih h.2 _).trans (by rw [get?_insert, if_neg h.1])

theorem Schema.get?_insertAll_of_mem {name : String} (hnodup : (fields.map Prod.fst).Nodup)
    (h : (name, f) ∈ fields) (s : Schema) : (s.insertAll fields).get? name = some f := by
  induction fields generalizing s with
  | nil => cases h
  | cons x fields ih =>
    obtain ⟨hx, hothers⟩ := List.nodup_cons.1 hnodup
    rcases List.mem_cons.1 h with rfl | h
    · exact (get?_insertAll_of_not_mem hx _).trans (by rw [get?_insert, if_pos rfl])
    · exact ih hothers h _

theorem Schema.Lists.get?_insertAll {schema : Schema} (h : schema.Lists fields) (name : String) :
    (Schema.empty.insertAll fields).get? name = schema.get? name := by
  cases hfield : schema.get? name with
  | some f => exact Schema.get?_insertAll_of_mem h.nodup ((h.mem name f).2 hfield) _
  | none =>
    refine Schema.get?_insertAll_of_not_mem (fun hmem => ?_) _
    obtain ⟨⟨_, f⟩, hx, rfl⟩ := List.mem_map.1 hmem
    rw [(h.mem _ f).1 hx] at hfield
    cases hfield

theorem mem_iff_lookup (hnodup : (fields.map Prod.fst).Nodup) (name : String) (f : Field) :
    (name, f) ∈ fields ↔ fields.lookup name = some f := by
  induction fields with
  | nil => simp
  | cons x fields ih =>
    obtain ⟨hx, hothers⟩ := List.nodup_cons.1 hnodup
    rw [List.mem_cons, List.lookup_cons]
    by_cases hname : name = x.1
    · subst hname
      have hnot : (x.1, f) ∉ fields := fun hmem => hx (List.mem_map.2 ⟨_, hmem, rfl⟩)
      simp [hnot, Prod.ext_iff, eq_comm]
    · rw [beq_false_of_ne hname, ih hothers]
      simp [hname, Prod.ext_iff]

theorem Schema.lists_of_perm {schema : Schema} (h : fields.Perm schema.entries) :
    schema.Lists fields := by
  refine ⟨(h.map Prod.fst).nodup_iff.2 schema.nodup, fun name f => ?_⟩
  rw [h.mem_iff, mem_iff_lookup schema.nodup, Schema.get?]

theorem Schema.Lists.written_compact {schema : Schema} (h : schema.Lists fields) :
    schema.Written (Schema.compact fields) := by
  refine ⟨fields, fields.map fun x => (x.1, x.2.words), h, ?_, ?_⟩
  · rw [List.forall₂_map_right_iff, List.forall₂_same]
    exact fun x _ => ⟨rfl, .inl rfl⟩
  · rw [Schema.compact, String.toList_ofList]
    exact Json.spaced_flatten _

theorem exists_values {members : List (String × List (List Char))}
    (h : List.Forall₂ (fun x m => m.1 = x.1 ∧ x.2.Written m.2) fields members)
    (ht : ∀ x ∈ fields, x.2.type ≠ .null) :
    ∃ js, List.Forall₂ (fun m j => Reads 4 m.2 j) members js ∧
      ∀ s : Schema, (List.zipWith (fun m j => (some m.1, j)) members js).foldlM
        Schema.insertJson? s = some (s.insertAll fields) := by
  induction h with
  | nil => exact ⟨[], .nil, fun _ => rfl⟩
  | @cons x m fields members hx _ ih =>
    obtain ⟨hname, hwritten⟩ := hx
    obtain ⟨hfirst, hothers⟩ := List.forall_mem_cons.1 ht
    obtain ⟨j, hj, hfield⟩ := hwritten.read hfirst
    obtain ⟨js, hjs, hfold⟩ := ih hothers
    refine ⟨j :: js, .cons hj hjs, fun s => ?_⟩
    have hinsert : s.insertJson? (some m.1, j) = some (s.insert x.1 x.2) := by
      simp [Schema.insertJson?, hfield, hname]
    rw [List.zipWith_cons_cons, List.foldlM_cons, hinsert]
    exact hfold _

end Fields

section Texts
variable {schema : Schema} {text : String}

theorem trim_ne_nil {c : Char} {cs : List Char} (hc : c ∈ cs) (hblank : Text.isBlank c = false) :
    Text.trim cs ≠ [] := by
  intro h
  have hall : ∀ d ∈ cs.dropWhile Text.isBlank, Text.isBlank d = true := by
    intro d hd
    rw [Text.trim, List.reverse_eq_nil_iff, List.dropWhile_eq_nil_iff] at h
    exact h d (List.mem_reverse.2 hd)
  rw [← List.takeWhile_append_dropWhile (p := Text.isBlank) (l := cs), List.mem_append] at hc
  rcases hc with hc | hc
  · rw [List.mem_takeWhile_imp hc] at hblank
    cases hblank
  · rw [hall c hc] at hblank
    cases hblank

theorem Json.Spaced.mem_of_object {members : List (String × List (List Char))} {cs : List Char}
    (h : Spaced (objectWords members) cs) : '\x7b' ∈ cs := by
  obtain ⟨words, hwords⟩ : ∃ words, objectWords members = ['\x7b'] :: words := by
    cases members with
    | nil => exact ⟨_, rfl⟩
    | cons m ms => exact ⟨_, rfl⟩
  rw [hwords] at h
  cases h with
  | cons _ _ => simp

theorem exists_schema_of_written (ht : ∀ name f, schema.get? name = some f → f.type ≠ .null)
    (h : schema.Written text) :
    ∃ s, Schema.ofText? (some text) = some s ∧ ∀ name, s.get? name = schema.get? name := by
  obtain ⟨fields, members, hlists, hmembers, hspaced⟩ := h
  have htypes : ∀ x ∈ fields, x.2.type ≠ .null :=
    fun x hx => ht x.1 x.2 ((hlists.mem x.1 x.2).1 hx)
  obtain ⟨js, hjs, hfold⟩ := exists_values hmembers htypes
  have hlength := Nat.le_trans (Json.length_objectWords members) hspaced.length_le
  have hparse := Json.parse?_of_reads (Json.reads_object hjs) hspaced (by omega)
  refine ⟨Schema.empty.insertAll fields, ?_, hlists.get?_insertAll⟩
  have hblank : (Text.trim text.toList).isEmpty = false :=
    List.isEmpty_eq_false_iff.2 (trim_ne_nil hspaced.mem_of_object (by decide))
  simp only [Schema.ofText?, hblank, Bool.false_eq_true, if_false, Schema.parse?, hparse,
    Option.bind_some]
  exact hfold .empty

end Texts

theorem request_eq_compilation (schema : Schema)
    (htypes : ∀ name f, schema.get? name = some f → f.type ≠ .null) (text : String)
    (h : schema.Written text) (formula : String) (target : Target) (checkOnly : Bool)
    (limit : Nat) :
    Request.execute ⟨formula, some text, target, checkOnly, limit⟩ =
      if checkOnly then ((check schema limit formula).map .checked).mapError .compile
      else ((compile schema limit target formula).map .compiled).mapError .compile := by
  obtain ⟨s, hread, hget⟩ := exists_schema_of_written htypes h
  have hanalyze : analyze s limit formula = analyze schema limit formula :=
    analyze_congr fun name _ => by rw [Schema.type?, Schema.type?, hget]
  rw [Request.execute, Request.readSchema, hread, check_eq_map, compile_eq_map, ← hanalyze,
    ← check_eq_map, ← compile_eq_map]
  cases checkOnly with
  | true =>
    change ((check s limit formula).mapError _).bind _ = ((check s limit formula).map _).mapError _
    cases check s limit formula <;> rfl
  | false =>
    change ((compile s limit target formula).mapError _).bind _ =
      ((compile s limit target formula).map _).mapError _
    cases compile s limit target formula <;> rfl

/-- The fields stand in another order than in the schema, and one name and one id need escapes. The
target changes the text and not the type. -/
theorem request_eq_compilation_reordered :
    let schema : Schema :=
      ⟨[("Qty", ⟨"q1", .number⟩), ("a\"\x01", ⟨"n\n", .string⟩)], by decide⟩
    let text := "\x7b\"a\\\"\\u0001\":\x7b\"id\":\"n\\n\",\"type\":\"string\"\x7d," ++
      "\"Qty\":\x7b\"id\":\"q1\",\"type\":\"number\"\x7d\x7d"
    let formula := "\x7b\x7bQty\x7d\x7d + 1"
    schema.Written text ∧
      Request.execute ⟨formula, some text, .sql, false, 64⟩ =
        .ok (.compiled "COALESCE($$VARIABLES['Qty'], 0) + 1") ∧
      Request.execute ⟨formula, some text, .script, false, 64⟩ =
        .ok (.compiled "($$VARIABLES['Qty'] ?? 0) + 1") ∧
      Request.execute ⟨formula, some text, .script, true, 64⟩ = .ok (.checked .number) ∧
      Request.execute ⟨"\x7b\x7bSum\x7d\x7d", some text, .sql, false, 64⟩ =
        .error (.compile (.type ⟨.unknownField "Sum", 0⟩)) := by
  intro schema text formula
  have hlists : schema.Lists schema.entries.reverse :=
    Schema.lists_of_perm (List.reverse_perm _)
  have htext : Schema.compact schema.entries.reverse = text := by decide +kernel
  have hwritten : schema.Written text := htext ▸ hlists.written_compact
  have htypes : ∀ name f, schema.get? name = some f → f.type ≠ .null := by
    intro name f hf
    have hall : ∀ x ∈ schema.entries.reverse, x.2.type ≠ .null := by decide
    exact hall (name, f) ((hlists.mem name f).2 hf)
  have hanswer := request_eq_compilation schema htypes text hwritten
  refine ⟨hwritten, ?_, ?_, ?_, ?_⟩
  · exact (hanswer formula .sql false 64).trans (by decide +kernel)
  · exact (hanswer formula .script false 64).trans (by decide +kernel)
  · exact (hanswer formula .script true 64).trans (by decide +kernel)
  · exact (hanswer _ .sql false 64).trans (by decide +kernel)

end FieldFormula
