import FieldFormula.Token.Scanner

/-!
Where the tokens of a formula lie in its source. A reading takes no more characters than there are,
so a scanner's tokens can be laid over the text it stands before, each behind a gap of blanks
(`Scanner.scanned_of_tokens`). Main statement: tokens lose nothing of the source but blanks
(`tokenize_lossless`).
-/
namespace FieldFormula

namespace Token
variable {c : Char} {cs : List Char}

theorem readMark?_length_le {r : Reading Kind} (h : readMark? c cs = some r) :
    r.length ≤ cs.length + 1 := by
  have hnext {x : Char} (hx : cs.head? = some x) : 2 ≤ cs.length + 1 := by
    obtain ⟨tail, rfl⟩ := List.head?_eq_some_iff.1 hx
    simp
  unfold readMark? at h
  split at h
  · cases h
    simp [Reading.ok]
  · split at h
    · cases h
      split
      · exact hnext ‹_›
      · simp [Reading.ok]
    · obtain ⟨kind, -, rfl⟩ := Option.map_eq_some_iff.1 h
      split
      · exact hnext ‹_›
      · simp [Reading.fail]

theorem length_beforeBraces? {inner : List Char} (h : beforeBraces? cs = some inner) :
    inner.length + 2 ≤ cs.length := by
  fun_induction beforeBraces? cs generalizing inner with
  | case1 => cases h
  | case2 =>
    cases h
    simp
  | case3 c cs _ ih =>
    obtain ⟨tail, htail, rfl⟩ := Option.map_eq_some_iff.1 h
    have := ih htail
    simp
    omega

theorem readField_length_le (cs : List Char) : (readField cs).length ≤ cs.length + 2 := by
  unfold readField
  split
  · exact Nat.le_refl _
  · rename_i inner h
    have := length_beforeBraces? h
    dsimp only
    split <;> simp only [Reading.ok, Reading.fail] <;> omega

theorem readDate_length_le (cs : List Char) : (readDate cs).length ≤ cs.length + 1 := by
  have hle := (List.takeWhile_sublist (fun c => c != '#') (l := cs)).length_le
  unfold readDate
  dsimp only
  split
  · simp only [Reading.fail]
    omega
  · split <;> simp only [Reading.ok, Reading.fail] <;> omega

theorem readQuoted_length_le (quote : Char) (taken : Nat) (cs : List Char) :
    (readQuoted quote taken cs).length ≤ taken + cs.length := by
  fun_induction readQuoted quote taken cs with
  | case1 => simp [Reading.fail]
  | case2 => simp [Reading.ok]
  | case3 => simp [Reading.fail]
  | case4 _ _ _ _ _ _ ih =>
    simp only [Reading.map, List.length_cons] at ih ⊢
    omega
  | case5 => simp
  | case6 _ _ _ _ _ ih =>
    simp only [Reading.map, List.length_cons] at ih ⊢
    omega

theorem length_fractionDigits (cs : List Char) :
    fractionDigits cs = [] ∨ (fractionDigits cs).length + 1 ≤ cs.length := by
  unfold fractionDigits
  split
  · exact .inr (Nat.succ_le_succ (List.takeWhile_sublist _).length_le)
  · exact .inl rfl

theorem length_numberText_le (cs : List Char) :
    (numberText (cs.takeWhile Char.isDigit) (fractionDigits (cs.dropWhile Char.isDigit))).length ≤
      cs.length := by
  have hsplit := congrArg List.length
    (List.takeWhile_append_dropWhile (p := Char.isDigit) (l := cs))
  rw [List.length_append] at hsplit
  unfold numberText
  split
  · omega
  · rename_i hne
    rcases length_fractionDigits (cs.dropWhile Char.isDigit) with hnil | hle
    · rw [hnil] at hne
      exact absurd rfl hne
    · rw [List.length_append, List.length_cons]
      omega

theorem readNumber_length_le (cs : List Char) : (readNumber cs).length ≤ cs.length := by
  unfold readNumber
  dsimp only
  split <;> exact length_numberText_le cs

theorem read_length_le (cs : List Char) : (read cs).length ≤ cs.length := by
  cases cs with
  | nil => exact Nat.le_refl _
  | cons c cs =>
    simp only [read]
    split
    · exact readMark?_length_le ‹_›
    · split
      · rename_i h
        obtain ⟨tail, rfl⟩ := List.head?_eq_some_iff.1 h.2
        exact readField_length_le tail
      · split
        · exact readDate_length_le cs
        · split
          · have := readQuoted_length_le c 1 cs
            simp [Reading.map]
            omega
          · split
            · exact (List.takeWhile_sublist _).length_le
            · split
              · exact readNumber_length_le _
              · simp [Reading.fail]

theorem single?_ne_eof : single? c ≠ some .eof := by
  unfold single?
  split <;> simp

theorem pair?_ne_eof {next : Char} {long short : Kind} (h : pair? c = some (next, long, short)) :
    long ≠ .eof ∧ short ≠ .eof := by
  unfold pair? at h
  split at h <;> cases h <;> simp

theorem doubled?_ne_eof : doubled? c ≠ some .eof := by
  unfold doubled?
  split <;> simp

theorem readMark?_ne_eof {r : Reading Kind} (h : readMark? c cs = some r) :
    r.outcome ≠ .ok .eof := by
  unfold readMark? at h
  split at h
  · rename_i kind hkind
    cases h
    rintro ⟨⟩
    exact single?_ne_eof hkind
  · split at h
    · rename_i hpair
      obtain ⟨hlong, hshort⟩ := pair?_ne_eof hpair
      cases h
      split
      · simpa [Reading.ok] using hlong
      · simpa [Reading.ok] using hshort
    · obtain ⟨kind, hkind, rfl⟩ := Option.map_eq_some_iff.1 h
      split
      · rintro ⟨⟩
        exact doubled?_ne_eof hkind
      · simp [Reading.fail]

theorem readField_ne_eof (cs : List Char) : (readField cs).outcome ≠ .ok .eof := by
  unfold readField
  split
  · simp [Reading.fail]
  · dsimp only
    split <;> simp [Reading.ok, Reading.fail]

theorem readDate_ne_eof (cs : List Char) : (readDate cs).outcome ≠ .ok .eof := by
  unfold readDate
  dsimp only
  split
  · simp [Reading.fail]
  · split <;> simp [Reading.ok, Reading.fail]

theorem ofName_ne_eof (name : String) : ofName name ≠ .eof := by
  unfold ofName
  grind

theorem readNumber_ne_eof (cs : List Char) : (readNumber cs).outcome ≠ .ok .eof := by
  unfold readNumber
  dsimp only
  split <;> simp [Reading.ok, Reading.fail]

theorem eq_nil_of_read_eof (h : (read cs).outcome = .ok .eof) : cs = [] := by
  cases cs with
  | nil => rfl
  | cons c cs =>
    exfalso
    revert h
    simp only [read]
    split
    · exact readMark?_ne_eof ‹_›
    · split
      · exact readField_ne_eof _
      · split
        · exact readDate_ne_eof _
        · split
          · cases hq : (readQuoted c 1 cs).outcome <;> simp [Reading.map, hq, Except.map]
          · split
            · simp [readName, Reading.ok, ofName_ne_eof]
            · split
              · exact readNumber_ne_eof _
              · simp [Reading.fail]

theorem ne_nil_of_read {text rest : List Char} {k : Kind}
    (h : read (text ++ rest) = .ok k text.length) (hk : k ≠ .eof) : text ≠ [] := by
  have hpos : 0 < (read (text ++ rest)).length :=
    read_length_pos (congrArg Reading.outcome h) hk
  rw [h] at hpos
  exact List.ne_nil_of_length_pos hpos

def stop (t : Token) : Nat := t.position + t.text.length

end Token

/-- The tokens of a text whose first character is at `offset`: each behind blanks and read from its
characters and those that follow, and the end of the formula at the end of the text. -/
inductive Scanned : Nat → List Char → List Token → Prop where
  | eof {offset : Nat} {gap : List Char} (blank : gap.all Text.isBlank = true) :
      Scanned offset gap [⟨.eof, "", offset + gap.length⟩]
  | token {offset : Nat} {gap text rest : List Char} {kind : Token.Kind} {ts : List Token}
      (blank : gap.all Text.isBlank = true) (named : kind ≠ .eof)
      (reads : Token.read (text ++ rest) = .ok kind text.length)
      (others : Scanned (offset + gap.length + text.length) rest ts) :
      Scanned offset (gap ++ (text ++ rest))
        (⟨kind, String.ofList text, offset + gap.length⟩ :: ts)

namespace Scanner

theorem next_eq_ok {s : Scanner} {t : Token} (h : s.next.1 = .ok t) :
    ∃ gap text, gap.all Text.isBlank = true ∧ s.rest = gap ++ (text ++ s.next.2.rest) ∧
      Token.read (text ++ s.next.2.rest) = .ok t.kind text.length ∧
      t = ⟨t.kind, String.ofList text, s.position + gap.length⟩ ∧
      s.next.2.position = s.position + gap.length + text.length := by
  have hskip : s.rest = s.rest.takeWhile Text.isBlank ++ s.skipBlanks.rest :=
    List.takeWhile_append_dropWhile.symm
  simp only [next, tokenAt] at h
  split at h
  · rename_i kind hread
    cases h
    have hlength := List.length_take_of_le (Token.read_length_le s.skipBlanks.rest)
    refine ⟨s.rest.takeWhile Text.isBlank,
      s.skipBlanks.rest.take (Token.read s.skipBlanks.rest).length, List.all_takeWhile, ?_, ?_,
      rfl, ?_⟩
    · rw [next, advance, List.take_append_drop, ← hskip]
    · rw [next, advance, List.take_append_drop, hlength, Reading.ok, ← hread]
    · rw [hlength]
      rfl
  · cases h

theorem tokens_eq_ok {s : Scanner} {ts : List Token} (h : s.tokens = .ok ts) :
    ∃ t, s.next.1 = .ok t ∧ (t.kind = .eof ∧ ts = [t] ∨
      t.kind ≠ .eof ∧ ∃ others, s.next.2.tokens = .ok others ∧ ts = t :: others) := by
  rw [tokens] at h
  split at h
  · cases h
  · rename_i t hnext
    refine ⟨t, hnext, ?_⟩
    split at h
    · rename_i heof
      cases h
      exact .inl ⟨heof, rfl⟩
    · rename_i hne
      cases hothers : s.next.2.tokens with
      | error e => simp [hothers, Except.map] at h
      | ok others =>
        rw [hothers] at h
        cases h
        exact .inr ⟨hne, others, rfl, rfl⟩

theorem scanned_of_tokens {s : Scanner} {ts : List Token} (h : s.tokens = .ok ts) :
    Scanned s.position s.rest ts := by
  induction ts generalizing s with
  | nil =>
    obtain ⟨t, -, ⟨-, hts⟩ | ⟨-, others, -, hts⟩⟩ := tokens_eq_ok h
    · cases hts
    · cases hts
  | cons t ts ih =>
    obtain ⟨t', hnext, hcase⟩ := tokens_eq_ok h
    obtain ⟨gap, text, hgap, hrest, hread, htoken, hposition⟩ := next_eq_ok hnext
    rcases hcase with ⟨heof, hts⟩ | ⟨hne, others, hothers, hts⟩
    · cases hts
      rw [heof] at hread
      have hnil := Token.eq_nil_of_read_eof (congrArg Reading.outcome hread)
      obtain ⟨rfl, hnil⟩ := List.append_eq_nil_iff.1 hnil
      rw [hrest, hnil, htoken, heof, List.append_nil]
      exact .eof hgap
    · cases hts
      have hscanned := ih hothers
      rw [hposition] at hscanned
      rw [hrest, htoken]
      exact .token hgap hne hread hscanned

end Scanner

namespace Scanned
variable {offset : Nat} {cs : List Char} {ts : List Token}

theorem eof_last (h : Scanned offset cs ts) :
    ∃ init, ts = init ++ [⟨.eof, "", offset + cs.length⟩] ∧
      ∀ t ∈ init, t.kind ≠ .eof ∧ t.text ≠ "" := by
  induction h with
  | eof _ => exact ⟨[], rfl, fun t ht => absurd ht List.not_mem_nil⟩
  | @token offset gap text rest kind ts _ hkind hread _ ih =>
    obtain ⟨init, rfl, hinit⟩ := ih
    have htext := Token.ne_nil_of_read hread hkind
    refine ⟨⟨kind, String.ofList text, offset + gap.length⟩ :: init, ?_, ?_⟩
    · simp [Nat.add_assoc]
    · refine List.forall_mem_cons.2 ⟨⟨hkind, ?_⟩, hinit⟩
      simpa using htext

theorem slice (h : Scanned offset cs ts) : ∀ t ∈ ts, offset ≤ t.position ∧
    t.text.toList = (cs.drop (t.position - offset)).take t.text.length := by
  induction h with
  | eof _ => simp
  | @token offset gap text rest kind ts _ _ _ _ ih =>
    refine List.forall_mem_cons.2 ⟨⟨by simp, ?_⟩, fun t ht => ?_⟩
    · simp
    · obtain ⟨hle, hslice⟩ := ih t ht
      have hdrop : t.position - offset =
          gap.length + (text.length + (t.position - (offset + gap.length + text.length))) := by
        omega
      refine ⟨by omega, ?_⟩
      rw [hslice, hdrop, ← List.drop_drop, List.drop_left, ← List.drop_drop, List.drop_left]

theorem ordered (h : Scanned offset cs ts) : ts.Pairwise fun t u => t.stop ≤ u.position := by
  induction h with
  | eof _ => exact List.pairwise_singleton ..
  | @token offset gap text rest kind ts _ _ _ others ih =>
    refine List.pairwise_cons.2 ⟨fun u hu => ?_, ih⟩
    have := (others.slice u hu).1
    simpa [Token.stop] using this

theorem nodup_positions (h : Scanned offset cs ts) : (ts.map Token.position).Nodup := by
  induction h with
  | eof _ => simp
  | @token offset gap text rest kind ts _ hkind hread others ih =>
    refine List.nodup_cons.2 ⟨fun hmem => ?_, ih⟩
    obtain ⟨u, hu, hposition⟩ := List.mem_map.1 hmem
    have hposition : u.position = offset + gap.length := hposition
    have hle := (others.slice u hu).1
    have hpos := List.length_pos_iff.2 (Token.ne_nil_of_read hread hkind)
    omega

theorem blank_or_covered (h : Scanned offset cs ts) {i : Nat} {c : Char} (hc : cs[i]? = some c) :
    Text.isBlank c = true ∨ ∃ t ∈ ts, t.position ≤ offset + i ∧ offset + i < t.stop := by
  induction h generalizing i with
  | eof hblank => exact .inl (List.all_eq_true.1 hblank c (List.mem_of_getElem? hc))
  | @token offset gap text rest kind ts hblank _ _ _ ih =>
    by_cases hgap : i < gap.length
    · rw [List.getElem?_append_left hgap] at hc
      exact .inl (List.all_eq_true.1 hblank c (List.mem_of_getElem? hc))
    · by_cases htext : i < gap.length + text.length
      · refine .inr ⟨_, List.mem_cons_self, ?_, ?_⟩
        · simp; omega
        · simp [Token.stop]; omega
      · rw [List.getElem?_append_right (by omega), List.getElem?_append_right (by omega)] at hc
        refine (ih hc).imp id fun ⟨t, ht, hle, hlt⟩ => ⟨t, List.mem_cons_of_mem _ ht, ?_, ?_⟩
        · omega
        · omega

theorem recovered (h : Scanned offset cs ts) : ∃ gaps : List (List Char),
    gaps.length = ts.length ∧ (∀ gap ∈ gaps, gap.all Text.isBlank = true) ∧
    cs = (List.zipWith (fun gap t => gap ++ t.text.toList) gaps ts).flatten := by
  induction h with
  | @eof offset gap hblank => exact ⟨[gap], rfl, by simpa using hblank, by simp⟩
  | @token offset gap text rest kind ts hblank _ _ _ ih =>
    obtain ⟨gaps, hlength, hall, hrest⟩ := ih
    refine ⟨gap :: gaps, by simp [hlength], List.forall_mem_cons.2 ⟨hblank, hall⟩, ?_⟩
    simp [← hrest]

end Scanned

/-- The tokens lie in the source one behind the other, and all else is blank. -/
structure Lossless (source : String) (ts : List Token) : Prop where
  eof : ∃ init, ts = init ++ [⟨.eof, "", source.length⟩] ∧ ∀ t ∈ init, t.kind ≠ .eof ∧ t.text ≠ ""
  slice : ∀ t ∈ ts, t.text.toList = (source.toList.drop t.position).take t.text.length
  ordered : ts.Pairwise fun t u => t.stop ≤ u.position
  blank : ∀ i c, source.toList[i]? = some c →
    (∀ t ∈ ts, ¬ (t.position ≤ i ∧ i < t.stop)) → Text.isBlank c = true
  recovered : ∃ gaps : List (List Char), gaps.length = ts.length ∧
    (∀ gap ∈ gaps, gap.all Text.isBlank = true) ∧
    source.toList = (List.zipWith (fun gap t => gap ++ t.text.toList) gaps ts).flatten

theorem tokenize_lossless {source : String} {ts : List Token} (h : tokenize source = .ok ts) :
    Lossless source ts := by
  have hscanned : Scanned 0 source.toList ts := Scanner.scanned_of_tokens h
  constructor
  · simpa [String.length_toList] using hscanned.eof_last
  · exact fun t ht => (hscanned.slice t ht).2
  · exact hscanned.ordered
  · intro i c hc hfree
    rcases hscanned.blank_or_covered hc with hblank | ⟨t, ht, hcovered⟩
    · exact hblank
    · exact absurd (by simpa using hcovered) (hfree t ht)
  · exact hscanned.recovered

theorem tokenize_lossless_conditional :
    let source := "\u00a0IF(\x7b\x7b Цена \x7d\x7d >= 1.50, 'it\\'s', #2024-01-31#) "
    ∃ ts, tokenize source = .ok ts ∧ Lossless source ts ∧
      ts.map Token.text = ["IF", "(", "\x7b\x7b Цена \x7d\x7d", ">=", "1.50", ",", "'it\\'s'", ",",
        "#2024-01-31#", ")", ""] := by
  intro source
  have htexts : (tokenize source).toOption.map (List.map Token.text) =
      some ["IF", "(", "\x7b\x7b Цена \x7d\x7d", ">=", "1.50", ",", "'it\\'s'", ",",
        "#2024-01-31#", ")", ""] := by
    decide +kernel
  cases h : tokenize source with
  | error e =>
    rw [h] at htexts
    cases htexts
  | ok ts =>
    rw [h] at htexts
    exact ⟨ts, rfl, tokenize_lossless h, Option.some.inj htexts⟩

end FieldFormula
