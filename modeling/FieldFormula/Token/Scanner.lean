import FieldFormula.Token.Reading

/-!
The scanner walks over a formula and hands out one token at a time. It goes on after an error from
where the failed reading stopped. Main statement: every token but the last shortens the text left,
so a formula has finitely many tokens.
-/
namespace FieldFormula

structure Scanner where
  rest : List Char
  position : Nat
  deriving DecidableEq, Repr

namespace Scanner

def ofSource (source : String) : Scanner := ⟨source.toList, 0⟩

def skipBlanks (s : Scanner) : Scanner :=
  ⟨s.rest.dropWhile Text.isBlank, s.position + (s.rest.takeWhile Text.isBlank).length⟩

def advance (n : Nat) (s : Scanner) : Scanner := ⟨s.rest.drop n, s.position + n⟩

def tokenAt (s : Scanner) (r : Reading Token.Kind) : Except LexError Token :=
  match r.outcome with
  | .ok kind => .ok ⟨kind, String.ofList (s.rest.take r.length), s.position⟩
  | .error e => .error (e.shift s.position)

def next (s : Scanner) : Except LexError Token × Scanner :=
  let start := s.skipBlanks
  let r := Token.read start.rest
  (start.tokenAt r, start.advance r.length)

theorem next_rest_length_lt {s : Scanner} {t : Token} (h : s.next.1 = .ok t) (ht : t.kind ≠ .eof) :
    s.next.2.rest.length < s.rest.length := by
  simp only [next, tokenAt] at h
  split at h
  · rename_i kind hk
    cases h
    have hpos := Token.read_length_pos hk ht
    have hne : s.skipBlanks.rest ≠ [] := by
      intro hnil
      rw [hnil] at hk
      simp only [Token.read, Reading.ok, Except.ok.injEq] at hk
      exact ht hk.symm
    have hlt := List.length_pos_iff.2 hne
    have hle : s.skipBlanks.rest.length ≤ s.rest.length := (List.dropWhile_sublist _).length_le
    simp only [next, advance, List.length_drop]
    omega
  · cases h

def tokens (s : Scanner) : Except LexError (List Token) :=
  match _h : s.next.1 with
  | .error e => .error e
  | .ok t => if _ht : t.kind = .eof then .ok [t] else (tokens s.next.2).map (t :: ·)
termination_by s.rest.length
decreasing_by exact next_rest_length_lt _h _ht

end Scanner

def tokenize (source : String) : Except LexError (List Token) := (Scanner.ofSource source).tokens

end FieldFormula
