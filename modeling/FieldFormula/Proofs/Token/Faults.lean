import FieldFormula.Proofs.Token.Coverage

/-!
Where lexical errors are reported. Main statement: the source shows the cause of an error at the
position the error gives (`Scanner.shown_of_tokens`).
-/
namespace FieldFormula

theorem eq_error_of_map {ε α β : Type} {x : Except ε α} {f : α → β} {e : ε}
    (h : x.map f = .error e) : x = .error e := by
  cases x with
  | ok a => cases h
  | error err =>
    cases h
    rfl

namespace LexError

def Cause.ShownBy (cs : List Char) : Cause → Prop
  | unexpectedChar ch | singleOperator ch => [ch] <+: cs
  | unterminatedString => ['"'] <+: cs ∨ ['\''] <+: cs
  | invalidEscape ch => ['\\', ch] <+: cs
  | unterminatedVariable | emptyVariable => ['\x7b', '\x7b'] <+: cs
  | invalidNumber text => text.toList <+: cs
  | invalidDate text => '#' :: text.toList <+: cs

def Shown (cs : List Char) (e : LexError) : Prop :=
  e.position < cs.length ∧ e.cause.ShownBy (cs.drop e.position)

theorem Shown.shift {cs : List Char} {e : LexError} {n : Nat} (h : e.Shown (cs.drop n)) :
    (e.shift n).Shown cs := by
  obtain ⟨hlt, hcause⟩ := h
  rw [List.length_drop] at hlt
  rw [List.drop_drop] at hcause
  refine ⟨?_, hcause⟩
  simp only [LexError.shift]
  omega

end LexError

namespace Token
variable {c : Char} {cs : List Char} {e : LexError}

theorem readMark?_shown {r : Reading Kind} (h : readMark? c cs = some r)
    (he : r.outcome = .error e) : e.Shown (c :: cs) := by
  unfold readMark? at h
  split at h
  · cases h
    cases he
  · split at h
    · cases h
      split at he <;> cases he
    · obtain ⟨kind, -, rfl⟩ := Option.map_eq_some_iff.1 h
      split at he
      · cases he
      · cases he
        exact ⟨by simp, by simp [LexError.Cause.ShownBy]⟩

theorem readField_shown (he : (readField cs).outcome = .error e) :
    e.Shown ('\x7b' :: '\x7b' :: cs) := by
  have hbraces : ['\x7b', '\x7b'] <+: '\x7b' :: '\x7b' :: cs := by simp
  unfold readField at he
  split at he
  · cases he
    exact ⟨by simp, hbraces⟩
  · dsimp only at he
    split at he
    · cases he
      exact ⟨by simp, hbraces⟩
    · cases he

theorem readDate_shown (he : (readDate cs).outcome = .error e) : e.Shown ('#' :: cs) := by
  have hdate : '#' :: (String.ofList (cs.takeWhile (· != '#'))).toList <+: '#' :: cs := by
    rw [String.toList_ofList, List.cons_prefix_cons]
    exact ⟨rfl, List.takeWhile_prefix _⟩
  unfold readDate at he
  dsimp only at he
  split at he
  · cases he
    exact ⟨by simp, hdate⟩
  · split at he
    · cases he
    · cases he
      exact ⟨by simp, hdate⟩

theorem unterminated_shown {quote : Char} (hquote : quote = '"' ∨ quote = '\'')
    (h : [quote] <+: cs) : LexError.Shown cs ⟨.unterminatedString, 0⟩ := by
  refine ⟨h.length_le, ?_⟩
  rcases hquote with rfl | rfl
  · exact .inl h
  · exact .inr h

/-- The text of `seen` is taken already and starts with the opening quote. -/
theorem readQuoted_shown {quote : Char} (hquote : quote = '"' ∨ quote = '\'') (seen : List Char)
    (hopen : [quote] <+: seen) (he : (readQuoted quote seen.length cs).outcome = .error e) :
    e.Shown (seen ++ cs) := by
  generalize htaken : seen.length = taken at he
  fun_induction readQuoted quote taken cs generalizing seen with
  | case1 taken =>
    cases he
    exact unterminated_shown hquote (hopen.trans (List.prefix_append seen []))
  | case2 => cases he
  | case3 =>
    cases he
    exact unterminated_shown hquote (hopen.trans (List.prefix_append seen _))
  | case4 taken x cs _ _ _ ih =>
    have hshown := ih _ (hopen.trans (List.prefix_append seen ['\\', x])) (by simp [htaken])
      (eq_error_of_map he)
    simpa using hshown
  | case5 taken x cs _ _ =>
    cases he
    subst htaken
    exact ⟨by simp, by simp [LexError.Cause.ShownBy]⟩
  | case6 taken c cs _ _ ih =>
    have hshown := ih _ (hopen.trans (List.prefix_append seen [c])) (by simp [htaken])
      (eq_error_of_map he)
    simpa using hshown

theorem fractionDigits_prefix (h : fractionDigits cs ≠ []) : '.' :: fractionDigits cs <+: cs := by
  unfold fractionDigits at h ⊢
  split
  · exact List.cons_prefix_cons.2 ⟨rfl, List.takeWhile_prefix _⟩
  · simp at h

theorem numberText_prefix (cs : List Char) : numberText (cs.takeWhile Char.isDigit)
    (fractionDigits (cs.dropWhile Char.isDigit)) <+: cs := by
  unfold numberText
  split
  · exact List.takeWhile_prefix _
  · rename_i hne
    have hfraction := fractionDigits_prefix (by simpa using hne)
    have hnumber := (List.prefix_append_right_inj (cs.takeWhile Char.isDigit)).2 hfraction
    rwa [List.takeWhile_append_dropWhile] at hnumber

theorem readNumber_shown (he : (readNumber (c :: cs)).outcome = .error e) :
    e.Shown (c :: cs) := by
  have hprefix := numberText_prefix (c :: cs)
  unfold readNumber at he
  dsimp only at he
  split at he
  · cases he
  · cases he
    refine ⟨by simp, ?_⟩
    simpa [LexError.Cause.ShownBy] using hprefix

theorem read_shown (he : (read cs).outcome = .error e) : e.Shown cs := by
  cases cs with
  | nil => cases he
  | cons c cs =>
    revert he
    simp only [read]
    split
    · exact fun he => readMark?_shown ‹_› he
    · split
      · rename_i h
        obtain ⟨rfl, hnext⟩ := h
        obtain ⟨tail, rfl⟩ := List.head?_eq_some_iff.1 hnext
        exact fun he => readField_shown he
      · split
        · rename_i hhash
          subst hhash
          exact fun he => readDate_shown he
        · split
          · rename_i hquote
            exact fun he => readQuoted_shown hquote [c] (List.prefix_refl _) (eq_error_of_map he)
          · split
            · intro he
              cases he
            · split
              · exact fun he => readNumber_shown he
              · intro he
                cases he
                exact ⟨by simp, by simp [LexError.Cause.ShownBy]⟩

end Token

namespace Scanner
variable {source : List Char} {s : Scanner} {e : LexError}

def Stands (source : List Char) (s : Scanner) : Prop := s.rest = source.drop s.position

theorem Stands.skipBlanks (h : s.Stands source) : s.skipBlanks.Stands source := by
  calc s.rest.dropWhile Text.isBlank
      = (s.rest.takeWhile Text.isBlank ++ s.rest.dropWhile Text.isBlank).drop
          (s.rest.takeWhile Text.isBlank).length := List.drop_left.symm
    _ = s.rest.drop (s.rest.takeWhile Text.isBlank).length := by
        rw [List.takeWhile_append_dropWhile]
    _ = source.drop (s.position + (s.rest.takeWhile Text.isBlank).length) := by
        rw [← List.drop_drop, ← h]

theorem Stands.next (h : s.Stands source) : s.next.2.Stands source := by
  have hskip : s.skipBlanks.rest = source.drop s.skipBlanks.position := h.skipBlanks
  rw [Stands, Scanner.next, advance, hskip, List.drop_drop]

theorem shown_of_next (h : s.Stands source) (he : s.next.1 = .error e) : e.Shown source := by
  have hskip : s.skipBlanks.rest = source.drop s.skipBlanks.position := h.skipBlanks
  simp only [Scanner.next, tokenAt] at he
  split at he
  · cases he
  · rename_i err hread
    cases he
    rw [hskip] at hread
    exact (Token.read_shown hread).shift

theorem shown_of_tokens (h : s.Stands source) (he : s.tokens = .error e) : e.Shown source := by
  fun_induction tokens s with
  | case1 s err hnext =>
    cases he
    exact shown_of_next h hnext
  | case2 => cases he
  | case3 s t hnext ht ih => exact ih h.next (eq_error_of_map he)

end Scanner

theorem tokenize_error_shown {source : String} {e : LexError} (h : tokenize source = .error e) :
    e.Shown source.toList :=
  Scanner.shown_of_tokens (s := .ofSource source) rfl h

end FieldFormula
