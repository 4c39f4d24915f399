import FieldFormula.Proofs.Token.Joining

/-!
Text between quotes. A quote within it is shielded by a backslash, which is itself written as two.
Main statement: every text can be written between either quote and is read back up to the closing
quote, whatever follows; and what is read as text is the text between its quotes without escapes,
in which its quote does not stand unshielded (`quotation_exact`).
-/
namespace FieldFormula.Token

def escapes : List (Char × Char) :=
  [('n', '\n'), ('t', '\t'), ('r', '\r'), ('"', '"'), ('\'', '\''), ('\\', '\\')]

def unescape? : List Char → Option (List Char)
  | [] => some []
  | c :: cs =>
    if c = '\\' then
      match cs with
      | [] => none
      | e :: cs => (escapes.lookup e).bind fun d => (unescape? cs).map (d :: ·)
    else (unescape? cs).map (c :: ·)

/-- `body` is `value` with a backslash before each backslash and each `q`; a line feed, a tab and a
carriage return may also be written as escapes. -/
inductive Written (q : Char) : List Char → List Char → Prop where
  | nil : Written q [] []
  | raw {c : Char} {value body : List Char} :
      c ≠ q → c ≠ '\\' → Written q value body → Written q (c :: value) (c :: body)
  | shielded {c : Char} {value body : List Char} :
      c = q ∨ c = '\\' → Written q value body → Written q (c :: value) ('\\' :: c :: body)
  | lineFeed {value body : List Char} :
      Written q value body → Written q ('\n' :: value) ('\\' :: 'n' :: body)
  | tab {value body : List Char} :
      Written q value body → Written q ('\t' :: value) ('\\' :: 't' :: body)
  | carriageReturn {value body : List Char} :
      Written q value body → Written q ('\r' :: value) ('\\' :: 'r' :: body)

def backslashes (cs : List Char) : Nat := (cs.reverse.takeWhile (· == '\\')).length

/-- Each `q` in the text stands behind an odd number of backslashes. -/
def Shielded (q : Char) (body : List Char) : Prop :=
  ∀ before after, body = before ++ q :: after → backslashes before % 2 = 1

inductive Spelled (q : Char) : List Char → List Char → Prop where
  | nil : Spelled q [] []
  | plain {c : Char} {body value : List Char} :
      c ≠ q → c ≠ '\\' → Spelled q body value → Spelled q (c :: body) (c :: value)
  | escape {e c : Char} {body value : List Char} :
      escape? e = some c → Spelled q body value → Spelled q ('\\' :: e :: body) (c :: value)

variable {q c : Char} {body value cs rest : List Char} {taken : Nat}

theorem ne_backslash (h : q = '"' ∨ q = '\'') : '\\' ≠ q := by
  rcases h with rfl | rfl <;> decide

section Reading

theorem readQuoted_of_spelled (hq : '\\' ≠ q) (h : Spelled q body value) (taken : Nat) :
    readQuoted q taken (body ++ q :: rest) = .ok value (taken + body.length + 1) := by
  induction h generalizing taken with
  | nil => exact readQuoted_quote q taken rest
  | plain hquote hescape _ ih =>
    rw [List.cons_append, readQuoted_plain hquote hescape, ih, List.length_cons]
    simp only [Reading.map, Reading.ok, Except.map]
    congr 1
    omega
  | escape he _ ih =>
    rw [List.cons_append, List.cons_append, readQuoted_escape hq he, ih, List.length_cons,
      List.length_cons]
    simp only [Reading.map, Reading.ok, Except.map]
    congr 1
    omega

theorem spelled_of_readQuoted (h : (readQuoted q taken cs).outcome = .ok value) :
    ∃ body rest, cs = body ++ q :: rest ∧ Spelled q body value ∧
      (readQuoted q taken cs).length = taken + body.length + 1 := by
  fun_induction readQuoted q taken cs generalizing value with
  | case1 => cases h
  | case2 taken cs =>
    cases h
    exact ⟨[], cs, rfl, .nil, rfl⟩
  | case3 => cases h
  | case4 taken e cs c he _ ih =>
    obtain ⟨tail, htail⟩ := exists_ok_of_map h
    obtain ⟨body, rest, rfl, hbody, hlength⟩ := ih htail
    simp only [Reading.map, htail, Except.map, Except.ok.injEq] at h ⊢
    subst h
    refine ⟨'\\' :: e :: body, rest, rfl, .escape he hbody, ?_⟩
    rw [hlength, List.length_cons, List.length_cons]
    omega
  | case5 => cases h
  | case6 taken c cs hquote hescape ih =>
    obtain ⟨tail, htail⟩ := exists_ok_of_map h
    obtain ⟨body, rest, rfl, hbody, hlength⟩ := ih htail
    simp only [Reading.map, htail, Except.map, Except.ok.injEq] at h ⊢
    subst h
    refine ⟨c :: body, rest, rfl, .plain hquote hescape hbody, ?_⟩
    rw [hlength, List.length_cons]
    omega

theorem read_of_spelled {s : String} (hq : q = '"' ∨ q = '\'') (h : Spelled q body s.toList)
    (rest : List Char) : read (q :: (body ++ [q]) ++ rest) =
      .ok (.literal (.text s)) (q :: (body ++ [q])).length := by
  rw [List.cons_append, List.append_assoc, List.singleton_append, read_quoted hq,
    readQuoted_of_spelled (ne_backslash hq) h]
  simp only [Reading.map, Reading.ok, Except.map, String.ofList_toList, List.length_cons,
    List.length_append, List.length_nil]
  congr 1
  omega

theorem spelled_of_read {text : List Char} {s : String}
    (h : read (text ++ rest) = .ok (.literal (.text s)) text.length) :
    ∃ q body, (q = '"' ∨ q = '\'') ∧ text = q :: (body ++ [q]) ∧ Spelled q body s.toList := by
  have hok : (read (text ++ rest)).outcome = .ok (.literal (.text s)) := by rw [h]; rfl
  have hlength : (read (text ++ rest)).length = text.length := by rw [h]; rfl
  cases text with
  | nil => exact absurd hlength (Nat.ne_of_gt (read_length_pos hok (by intro heof; cases heof)))
  | cons q cs =>
    rw [List.cons_append] at hok hlength
    have hq : q = '"' ∨ q = '\'' := starts_of_read hok
    rw [read_quoted hq] at hok hlength
    obtain ⟨value, hvalue⟩ := exists_ok_of_map hok
    obtain ⟨body, after, hcs, hbody, hread⟩ := spelled_of_readQuoted hvalue
    simp only [Reading.map, hvalue, Except.map, Except.ok.injEq, Kind.literal.injEq,
      Literal.text.injEq] at hok
    subst hok
    refine ⟨q, body, hq, ?_, (String.toList_ofList (l := value)).symm ▸ hbody⟩
    -- the token takes as many characters as stand up to the closing quote
    have hcount : (body ++ [q]).length = cs.length := by
      simp only [Reading.map, hread, List.length_cons] at hlength
      rw [List.length_append, List.length_singleton]
      omega
    rw [List.append_cons] at hcs
    rw [← List.append_inj_left hcs.symm hcount]

end Reading

section Writing

theorem Written.spelled (hq : q = '"' ∨ q = '\'') (h : Written q value body) :
    Spelled q body value := by
  induction h with
  | nil => exact .nil
  | raw hquote hescape _ ih => exact .plain hquote hescape ih
  | shielded hc _ ih =>
    refine .escape ?_ ih
    rcases hc with rfl | rfl
    · rcases hq with rfl | rfl <;> rfl
    · rfl
  | lineFeed _ ih | tab _ ih | carriageReturn _ ih => exact .escape rfl ih

theorem exists_written (q : Char) (value : List Char) : ∃ body, Written q value body := by
  induction value with
  | nil => exact ⟨[], .nil⟩
  | cons c value ih =>
    obtain ⟨body, hbody⟩ := ih
    by_cases hc : c = q ∨ c = '\\'
    · exact ⟨_, .shielded hc hbody⟩
    · obtain ⟨hquote, hescape⟩ := not_or.1 hc
      exact ⟨_, .raw hquote hescape hbody⟩

theorem escape?_eq_lookup (e : Char) : escape? e = escapes.lookup e := by
  unfold escape?
  split
  case h_7 hn ht hr hdouble hsingle hbackslash =>
    have hnone : ∀ entry ∈ escapes, (e != entry.1) = true := by
      simp only [escapes, List.forall_mem_cons, bne_iff_ne]
      exact ⟨hn, ht, hr, hdouble, hsingle, hbackslash, List.forall_mem_nil _⟩
    exact (List.lookup_eq_none_iff.2 hnone).symm
  all_goals rfl

theorem Spelled.unescape (h : Spelled q body value) : unescape? body = some value := by
  induction h with
  | nil => rfl
  | plain _ hescape _ ih =>
    rw [unescape?.eq_def]
    simp [hescape, ih]
  | escape he _ ih =>
    rw [escape?_eq_lookup] at he
    rw [unescape?, if_pos rfl, he, ih]
    rfl

theorem backslashes_append (before cs : List Char) : backslashes (before ++ cs) =
    if backslashes cs = cs.length then cs.length + backslashes before else backslashes cs := by
  unfold backslashes
  rw [List.reverse_append, List.takeWhile_append, List.length_reverse]
  split
  · rw [List.length_append, List.length_reverse]
  · rfl

theorem backslashes_plain (hc : c ≠ '\\') (cs : List Char) :
    backslashes (c :: cs) = backslashes cs := by
  have hbefore : backslashes [c] = 0 := by simp [backslashes, hc]
  rw [← List.singleton_append, backslashes_append, hbefore]
  split
  · omega
  · rfl

theorem backslashes_escape (e : Char) (cs : List Char) :
    backslashes ('\\' :: e :: cs) % 2 = backslashes cs % 2 := by
  -- the escaped character may be a backslash as well, but then there are two
  have hbefore : backslashes ['\\', e] % 2 = 0 := by
    by_cases he : e = '\\' <;> simp [backslashes, he]
  have happend := backslashes_append ['\\', e] cs
  rw [List.cons_append, List.singleton_append] at happend
  rw [happend]
  split <;> omega

theorem Spelled.shielded (hq : '\\' ≠ q) (h : Spelled q body value) : Shielded q body := by
  induction h with
  | nil =>
    intro before after hsplit
    exact absurd hsplit.symm (List.append_ne_nil_of_right_ne_nil _ (List.cons_ne_nil _ _))
  | plain hquote hescape _ ih =>
    intro before after hsplit
    cases before with
    | nil => exact absurd (List.head_eq_of_cons_eq hsplit) hquote
    | cons b before =>
      obtain ⟨rfl, hbody⟩ := List.cons.inj hsplit
      rw [backslashes_plain hescape]
      exact ih before after hbody
  | escape he _ ih =>
    intro before after hsplit
    -- the quote is the backslash itself, what it escapes, or stands further on
    rcases before with _ | ⟨b, _ | ⟨e, before⟩⟩
    · exact absurd (List.head_eq_of_cons_eq hsplit) hq
    · obtain ⟨rfl, -⟩ := List.cons.inj hsplit
      rfl
    · obtain ⟨rfl, hrest⟩ := List.cons.inj hsplit
      obtain ⟨rfl, hbody⟩ := List.cons.inj hrest
      rw [backslashes_escape]
      exact ih before after hbody

end Writing

theorem quotation_exact :
    (∀ (q : Char) (s : String), ∃ body, Written q s.toList body) ∧
    (∀ (q : Char) (s : String) (body r : List Char) (position : Nat), q = '"' ∨ q = '\'' →
      Written q s.toList body →
      (⟨q :: (body ++ q :: r), position⟩ : Scanner).next =
        (.ok ⟨.literal (.text s), String.ofList (q :: (body ++ [q])), position⟩,
          ⟨r, position + body.length + 2⟩)) ∧
    ∀ (scanner : Scanner) (t : Token) (value : String), scanner.next.1 = .ok t →
      t.kind = .literal (.text value) →
      ∃ q body, (q = '"' ∨ q = '\'') ∧ t.text = String.ofList (q :: (body ++ [q])) ∧
        unescape? body = some value.toList ∧ Shielded q body := by
  refine ⟨fun q s => exists_written q s.toList, ?_, ?_⟩
  · intro q s body r position hq hwritten
    have hread := read_of_spelled hq (hwritten.spelled hq) r
    have hnext := Scanner.next_of_read position (List.all_nil (f := Text.isBlank)) hread
    rw [List.nil_append, List.cons_append, List.append_assoc, List.singleton_append] at hnext
    rw [hnext, List.length_nil, List.length_cons, List.length_append, List.length_singleton]
    rfl
  · intro scanner t value hnext hkind
    obtain ⟨gap, text, -, -, hread, htoken, -⟩ := Scanner.next_eq_ok hnext
    rw [hkind] at hread
    obtain ⟨q, body, hq, rfl, hbody⟩ := spelled_of_read hread
    exact ⟨q, body, hq, congrArg Token.text htoken, hbody.unescape,
      hbody.shielded (ne_backslash hq)⟩

theorem quotation_exact_shielded :
    let body := ['\\', '\'', '\\', '\\', '\\', 'n']
    let scanner : Scanner := ⟨'\'' :: (body ++ ['\'', '\'', 'x']), 3⟩
    let t : Token := ⟨.literal (.text "'\\\n"), "'\\'\\\\\\n'", 3⟩
    Written '\'' "'\\\n".toList body ∧ scanner.next = (.ok t, ⟨['\'', 'x'], 11⟩) ∧
      ∃ q body, (q = '"' ∨ q = '\'') ∧ t.text = String.ofList (q :: (body ++ [q])) ∧
        unescape? body = some "'\\\n".toList ∧ Shielded q body := by
  intro body scanner t
  have hwritten : Written '\'' "'\\\n".toList body :=
    .shielded (.inl rfl) (.shielded (.inr rfl) (.lineFeed .nil))
  have hnext : scanner.next = (.ok t, ⟨['\'', 'x'], 11⟩) :=
    quotation_exact.2.1 '\'' "'\\\n" body ['\'', 'x'] 3 (.inr rfl) hwritten
  exact ⟨hwritten, hnext, quotation_exact.2.2 scanner t _ (congrArg Prod.fst hnext) rfl⟩

end FieldFormula.Token
