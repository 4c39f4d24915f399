import FieldFormula.Proofs.Token.Faults
import FieldFormula.Proofs.Token.Joining

/-!
Calling a scanner again and again, also after errors. A call either moves on or leaves the scanner
where every further call answers the same (`Scanner.next_of_halts`, `Scanner.position_lt_next`), so
the answers settle after as many calls as the source has characters. Main statement: the scanner
stays within its source over every run (`scanner_resumable`).
-/
namespace FieldFormula

def LexError.Cause.stays : Cause → Bool
  | unexpectedChar _ | singleOperator _ => true
  | _ => false

namespace Token
variable {c : Char} {cs : List Char} {e : LexError}

theorem readMark?_stays {r : Reading Kind} (h : readMark? c cs = some r)
    (he : r.outcome = .error e) : r.length = 0 ∧ e.cause.stays = true := by
  unfold readMark? at h
  split at h
  · cases h
    cases he
  · split at h
    · cases h
      split at he <;> cases he
    · obtain ⟨kind, -, rfl⟩ := Option.map_eq_some_iff.1 h
      split at he
      · cases he
      · rename_i hne
        cases he
        rw [if_neg hne]
        exact ⟨rfl, rfl⟩

theorem readField_moves (he : (readField cs).outcome = .error e) : e.cause.stays = false := by
  unfold readField at he
  split at he
  · cases he
    rfl
  · dsimp only at he
    split at he <;> cases he
    rfl

theorem readDate_moves (he : (readDate cs).outcome = .error e) : e.cause.stays = false := by
  unfold readDate at he
  dsimp only at he
  split at he
  · cases he
    rfl
  · split at he <;> cases he
    rfl

theorem readQuoted_moves {quote : Char} {taken : Nat}
    (he : (readQuoted quote taken cs).outcome = .error e) : e.cause.stays = false := by
  fun_induction readQuoted quote taken cs with
  | case1 | case3 | case5 =>
    cases he
    rfl
  | case2 => cases he
  | case4 _ _ _ _ _ _ ih | case6 _ _ _ _ _ ih => exact ih (eq_error_of_map he)

theorem readNumber_moves (he : (readNumber cs).outcome = .error e) : e.cause.stays = false := by
  unfold readNumber at he
  dsimp only at he
  split at he <;> cases he
  rfl

theorem read_error_length (he : (read cs).outcome = .error e) :
    (read cs).length = 0 ↔ e.cause.stays = true := by
  have hmoves {n : Nat} (hn : 0 < n) (hcause : e.cause.stays = false) :
      n = 0 ↔ e.cause.stays = true :=
    iff_of_false (Nat.ne_of_gt hn) (Bool.eq_false_iff.1 hcause)
  cases cs with
  | nil => cases he
  | cons c cs =>
    revert he
    simp only [read]
    split
    · intro he
      obtain ⟨hlength, hcause⟩ := readMark?_stays ‹_› he
      exact iff_of_true hlength hcause
    · split
      · exact fun he => hmoves (readField_length_pos _) (readField_moves he)
      · split
        · exact fun he => hmoves (readDate_length_pos _) (readDate_moves he)
        · split
          · exact fun he =>
              hmoves (le_readQuoted_length c 1 cs) (readQuoted_moves (eq_error_of_map he))
          · split
            · intro he
              cases he
            · split
              · exact fun he => hmoves (readNumber_length_pos _ ‹_›) (readNumber_moves he)
              · intro he
                cases he
                exact iff_of_true rfl rfl

end Token

namespace Scanner
variable {s : Scanner} {n m : Nat}

/-- Answers behind which the scanner does not move: the end of the formula, a character that starts
no token, and a character that is a token only when doubled. -/
def halts : Except LexError Token → Bool
  | .ok t => t.kind == .eof
  | .error e => e.cause.stays

theorem halts_iff (s : Scanner) :
    halts s.next.1 = true ↔ (Token.read s.skipBlanks.rest).length = 0 := by
  simp only [next, tokenAt]
  cases hread : (Token.read s.skipBlanks.rest).outcome with
  | error e => exact (Token.read_error_length hread).symm
  | ok kind =>
    rw [halts, beq_iff_eq]
    constructor
    · rintro rfl
      rw [Token.eq_nil_of_read_eof hread]
      rfl
    · intro hlength
      by_contra hne
      exact Nat.ne_of_gt (Token.read_length_pos hread hne) hlength

theorem next_skipBlanks (s : Scanner) : s.skipBlanks.next = s.next := by
  have hnext := next_behind_blanks s.position (List.all_takeWhile (p := Text.isBlank) (l := s.rest))
    (s.rest.dropWhile Text.isBlank)
  rw [List.takeWhile_append_dropWhile] at hnext
  exact hnext.symm

theorem next_of_halts (h : halts s.next.1 = true) : s.next.2.next = s.next := by
  have hstay : s.next.2 = s.skipBlanks := by
    rw [next, (halts_iff s).1 h]
    rfl
  rw [hstay, next_skipBlanks]

theorem position_le_skipBlanks (s : Scanner) : s.position ≤ s.skipBlanks.position :=
  Nat.le_add_right ..

theorem skipBlanks_le_next (s : Scanner) : s.skipBlanks.position ≤ s.next.2.position :=
  Nat.le_add_right ..

theorem position_lt_next (h : halts s.next.1 = false) : s.position < s.next.2.position := by
  rw [← Bool.not_eq_true, halts_iff] at h
  have hle := position_le_skipBlanks s
  simp only [next, advance]
  omega

theorem position_add_rest_next (s : Scanner) :
    s.next.2.position + s.next.2.rest.length = s.position + s.rest.length := by
  have hsplit := congrArg List.length
    (List.takeWhile_append_dropWhile (p := Text.isBlank) (l := s.rest))
  have hle := Token.read_length_le s.skipBlanks.rest
  simp only [next, advance, skipBlanks, List.length_append, List.length_drop] at hsplit hle ⊢
  omega

def after (s : Scanner) : Nat → Scanner
  | 0 => s
  | n + 1 => (s.after n).next.2

theorem after_of_next {r : Except LexError Token} {s' : Scanner}
    (h : (s.after n).next = (r, s')) : s.after (n + 1) = s' := by
  rw [after, h]

theorem Stands.after {source : List Char} (h : s.Stands source) (n : Nat) :
    (s.after n).Stands source := by
  induction n with
  | zero => exact h
  | succ n ih => exact ih.next

theorem position_add_rest_after (s : Scanner) (n : Nat) :
    (s.after n).position + (s.after n).rest.length = s.position + s.rest.length := by
  induction n with
  | zero => rfl
  | succ n ih => exact (position_add_rest_next _).trans ih

theorem next_after_of_halts (hle : n ≤ m) (h : halts (s.after n).next.1 = true) :
    (s.after m).next = (s.after n).next := by
  induction hle with
  | refl => rfl
  | step _ ih =>
    rw [← ih] at h
    exact (next_of_halts h).trans ih

theorem add_le_position_after (h : ∀ k < n, halts (s.after k).next.1 = false) :
    s.position + n ≤ (s.after n).position := by
  induction n with
  | zero => exact Nat.le_refl _
  | succ n ih =>
    have hle := ih fun k hk => h k (Nat.lt_succ_of_lt hk)
    exact Nat.lt_of_le_of_lt hle (position_lt_next (h n (Nat.lt_succ_self n)))

/-- There are not enough characters for every call to take one. -/
theorem exists_halts (s : Scanner) : ∃ n ≤ s.rest.length, halts (s.after n).next.1 = true := by
  by_contra hnone
  have hmoves : ∀ k < s.rest.length + 1, halts (s.after k).next.1 = false :=
    fun k hk => Bool.eq_false_iff.2 fun h => hnone ⟨k, Nat.le_of_lt_succ hk, h⟩
  have hle := add_le_position_after hmoves
  have hreach := position_add_rest_after s (s.rest.length + 1)
  omega

end Scanner

open Scanner in
/-- Over a run of calls the scanner stands in its source and never moves back. The text of a token
begins behind the blanks and ends where the call leaves the scanner, so it lies in the source. -/
structure Resumable (source : String) (run : Nat → Scanner) : Prop where
  stands : ∀ n, (run n).rest = source.toList.drop (run n).position
  bounded : ∀ n, (run n).position ≤ source.length
  ordered : ∀ n, (run n).position ≤ (run n).skipBlanks.position ∧
    (run n).skipBlanks.position ≤ (run (n + 1)).position
  halted : ∀ n m, n ≤ m → halts (run n).next.1 = true → (run m).next.1 = (run n).next.1
  advanced : ∀ n, halts (run n).next.1 = false → (run n).position < (run (n + 1)).position
  settled : ∀ n, source.length ≤ n → (run n).next.1 = (run source.length).next.1

theorem scanner_resumable (source : String) :
    Resumable source (Scanner.ofSource source).after := by
  have hstands : (Scanner.ofSource source).Stands source.toList := rfl
  have hreach (n : Nat) := (Scanner.ofSource source).position_add_rest_after n
  have hlength : (Scanner.ofSource source).rest.length = source.length := String.length_toList
  constructor
  · exact fun n => hstands.after n
  · intro n
    have hsum := hreach n
    simp only [Scanner.ofSource, String.length_toList] at hsum ⊢
    omega
  · exact fun n => ⟨Scanner.position_le_skipBlanks _, Scanner.skipBlanks_le_next _⟩
  · exact fun n m hle h => congrArg Prod.fst (Scanner.next_after_of_halts hle h)
  · exact fun n h => Scanner.position_lt_next h
  · intro n hn
    obtain ⟨k, hk, hhalts⟩ := (Scanner.ofSource source).exists_halts
    rw [hlength] at hk
    rw [Scanner.next_after_of_halts (Nat.le_trans hk hn) hhalts,
      Scanner.next_after_of_halts hk hhalts]

/-- A wrong escape, a name in what was to be text, a wrong date, and half an operator for ever. -/
theorem scanner_resumable_malformed :
    let s := Scanner.ofSource "'\\q #x# = 1"
    (s.after 0).next.1 = .error ⟨.invalidEscape 'q', 1⟩ ∧
      (s.after 1).next.1 = .ok ⟨.identifier "q", "q", 2⟩ ∧
      (s.after 2).next.1 = .error ⟨.invalidDate "x", 4⟩ ∧
      ∀ n, 3 ≤ n → (s.after n).next.1 = .error ⟨.singleOperator '=', 8⟩ := by
  intro s
  have h0 : (s.after 0).next =
      (.error ⟨.invalidEscape 'q', 1⟩, ⟨['q', ' ', '#', 'x', '#', ' ', '=', ' ', '1'], 2⟩) := by
    decide +kernel
  have h1 : (s.after 1).next =
      (.ok ⟨.identifier "q", "q", 2⟩, ⟨[' ', '#', 'x', '#', ' ', '=', ' ', '1'], 3⟩) := by
    rw [Scanner.after_of_next h0]
    decide +kernel
  have h2 : (s.after 2).next = (.error ⟨.invalidDate "x", 4⟩, ⟨[' ', '=', ' ', '1'], 7⟩) := by
    rw [Scanner.after_of_next h1]
    decide +kernel
  have h3 : (s.after 3).next.1 = .error ⟨.singleOperator '=', 8⟩ := by
    rw [Scanner.after_of_next h2]
    decide +kernel
  have hhalts : Scanner.halts (s.after 3).next.1 = true := by
    rw [h3]
    rfl
  exact ⟨congrArg Prod.fst h0, congrArg Prod.fst h1, congrArg Prod.fst h2,
    fun n hn => ((scanner_resumable _).halted 3 n hn hhalts).trans h3⟩

end FieldFormula
