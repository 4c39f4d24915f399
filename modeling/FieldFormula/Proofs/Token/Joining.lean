import FieldFormula.Proofs.Token.Locality
import Mathlib.Data.List.Forall2

/-!
Tokens of texts that are put together. A text has the tokens that `Scanned` says, and no others
(`Scanner.tokens_eq_ok_iff`). Main statements: the tokens of a text stay before a separator, where
those of the rest follow (`Scanned.tokens_append`, `tokenize_spaced`); and names may change their
case and blanks their number (`Scanned.relaid`).
-/
namespace FieldFormula

namespace Scanner
variable {offset : Nat} {gap text rest cs : List Char} {kind : Token.Kind} {ts : List Token}

theorem tokens_of_next {s : Scanner} {t : Token} (h : s.next.1 = .ok t) :
    s.tokens = if t.kind = .eof then .ok [t] else s.next.2.tokens.map (t :: ·) := by
  rw [tokens]
  split
  · rename_i err herr
    rw [h] at herr
    cases herr
  · rename_i t' ht'
    rw [h] at ht'
    cases ht'
    split <;> rfl

theorem tokens_of_error {s : Scanner} {e : LexError} (h : s.next.1 = .error e) :
    s.tokens = .error e := by
  rw [tokens]
  split
  · rename_i err herr
    rw [h] at herr
    cases herr
    rfl
  · rename_i t ht
    rw [h] at ht
    cases ht

theorem tokens_congr {s s' : Scanner} (h : s.next = s'.next) : s.tokens = s'.tokens := by
  cases hnext : s.next.1 with
  | error e => rw [tokens_of_error hnext, tokens_of_error (h ▸ hnext)]
  | ok t =>
    have hnext' : s'.next.1 = .ok t := h ▸ hnext
    rw [tokens_of_next hnext, tokens_of_next hnext', h]

theorem next_behind_blanks (offset : Nat) (hgap : gap.all Text.isBlank = true) (cs : List Char) :
    (⟨gap ++ cs, offset⟩ : Scanner).next = (⟨cs, offset + gap.length⟩ : Scanner).next := by
  have hall := List.all_eq_true.1 hgap
  have hskip : (⟨gap ++ cs, offset⟩ : Scanner).skipBlanks =
      (⟨cs, offset + gap.length⟩ : Scanner).skipBlanks := by
    rw [skipBlanks, skipBlanks, List.dropWhile_append_of_pos hall,
      List.takeWhile_append_of_pos hall, List.length_append, Nat.add_assoc]
  rw [next, next, hskip]

theorem skipBlanks_gap (offset : Nat) (hgap : gap.all Text.isBlank = true)
    (hcs : ∀ c ∈ cs.head?, Text.isBlank c = false) :
    (⟨gap ++ cs, offset⟩ : Scanner).skipBlanks = ⟨cs, offset + gap.length⟩ := by
  have htake := Text.takeWhile_append_eq_left.2 ⟨hgap, hcs⟩
  rw [skipBlanks, htake, Text.dropWhile_of_takeWhile htake]

theorem next_of_read (offset : Nat) (hgap : gap.all Text.isBlank = true)
    (hread : Token.read (text ++ rest) = .ok kind text.length) :
    (⟨gap ++ (text ++ rest), offset⟩ : Scanner).next =
      (.ok ⟨kind, String.ofList text, offset + gap.length⟩,
        ⟨rest, offset + gap.length + text.length⟩) := by
  have hhead : ∀ c ∈ (text ++ rest).head?, Text.isBlank c = false := by
    intro c hc
    apply Bool.eq_false_iff.2
    intro hblank
    obtain ⟨cs, hcs⟩ := List.head?_eq_some_iff.1 hc
    rw [hcs, Token.read_blank hblank] at hread
    cases hread
  rw [next, skipBlanks_gap offset hgap hhead]
  dsimp only
  rw [hread]
  simp [tokenAt, advance, Reading.ok]

theorem tokens_of_scanned (h : Scanned offset cs ts) :
    (⟨cs, offset⟩ : Scanner).tokens = .ok ts := by
  induction h with
  | @eof offset gap hgap =>
    have hnext := @next_of_read gap [] [] .eof offset hgap rfl
    rw [List.append_nil, List.append_nil] at hnext
    rw [tokens_of_next (congrArg Prod.fst hnext), if_pos rfl]
  | @token offset gap text rest kind ts hgap hne hread _ ih =>
    have hnext := next_of_read offset hgap hread
    rw [tokens_of_next (congrArg Prod.fst hnext), if_neg hne, hnext, ih]
    rfl

theorem tokens_eq_ok_iff {s : Scanner} : s.tokens = .ok ts ↔ Scanned s.position s.rest ts :=
  ⟨scanned_of_tokens, tokens_of_scanned⟩

end Scanner

theorem tokenize_eq_ok_iff {source : String} {ts : List Token} :
    tokenize source = .ok ts ↔ Scanned 0 source.toList ts :=
  Scanner.tokens_eq_ok_iff

theorem tokenize_of_read {source : String} {kind : Token.Kind} (hne : kind ≠ .eof)
    (hread : Token.read source.toList = .ok kind source.toList.length) :
    tokenize source = .ok [⟨kind, source, 0⟩, ⟨.eof, "", source.length⟩] := by
  have hread' : Token.read (source.toList ++ []) = .ok kind source.toList.length := by
    rw [List.append_nil, hread]
  have hscanned := @Scanned.token 0 [] source.toList [] kind _ rfl hne hread' (.eof rfl)
  rw [tokenize_eq_ok_iff]
  simpa [String.length_toList] using hscanned

def Token.shift (n : Nat) (t : Token) : Token := { t with position := t.position + n }

namespace Scanner

def shift (n : Nat) (s : Scanner) : Scanner := { s with position := s.position + n }

def relocate (n : Nat) : Except LexError (List Token) → Except LexError (List Token)
  | .ok ts => .ok (ts.map (Token.shift n))
  | .error e => .error (e.shift n)

section
variable {s : Scanner} (n : Nat)

theorem skipBlanks_shift (s : Scanner) : (s.shift n).skipBlanks = s.skipBlanks.shift n := by
  simp only [skipBlanks, shift, Nat.add_right_comm]

theorem next_shift (s : Scanner) : (s.shift n).next.2 = s.next.2.shift n := by
  simp only [next, skipBlanks_shift]
  simp only [advance, shift, Nat.add_right_comm]

theorem next_shift_ok {t : Token} (h : s.next.1 = .ok t) :
    (s.shift n).next.1 = .ok (t.shift n) := by
  simp only [next, skipBlanks_shift]
  simp only [next, tokenAt, shift] at h ⊢
  split at h
  · cases h
    rfl
  · cases h

theorem next_shift_error {e : LexError} (h : s.next.1 = .error e) :
    (s.shift n).next.1 = .error (e.shift n) := by
  simp only [next, skipBlanks_shift]
  simp only [next, tokenAt, shift] at h ⊢
  split at h
  · cases h
  · cases h
    simp only [LexError.shift, Nat.add_comm n, Nat.add_right_comm]

/-- Nothing that is read depends on where in a source it stands. -/
theorem tokens_shift (s : Scanner) : (s.shift n).tokens = relocate n s.tokens := by
  fun_induction tokens s with
  | case1 s e hnext => exact tokens_of_error (next_shift_error n hnext)
  | case2 s t hnext heof =>
    rw [tokens_of_next (next_shift_ok n hnext)]
    exact if_pos heof
  | case3 s t hnext hne ih =>
    have hne' : (t.shift n).kind ≠ .eof := hne
    rw [tokens_of_next (next_shift_ok n hnext), if_neg hne', next_shift, ih]
    cases s.next.2.tokens <;> rfl

end

end Scanner

namespace Scanned
variable {offset : Nat} {gap cs more : List Char} {ts us : List Token}

theorem ne_nil (h : Scanned offset cs ts) : ts ≠ [] := by
  cases h <;> exact List.cons_ne_nil _ _

theorem shift (h : Scanned offset cs ts) (n : Nat) :
    Scanned (offset + n) cs (ts.map (Token.shift n)) := by
  have htokens := Scanner.tokens_shift n ⟨cs, offset⟩
  rw [Scanner.tokens_of_scanned h] at htokens
  exact Scanner.scanned_of_tokens htokens

/-- The tokens of a text stay before a separator, where those of the rest follow, or its error. -/
theorem tokens_append (h : Scanned offset cs ts) (hmore : Text.Parted more) :
    (⟨cs ++ more, offset⟩ : Scanner).tokens =
      (⟨more, offset + cs.length⟩ : Scanner).tokens.map (ts.dropLast ++ ·) := by
  induction h with
  | @eof offset gap hgap =>
    rw [Scanner.tokens_congr (Scanner.next_behind_blanks offset hgap more)]
    cases (⟨more, offset + gap.length⟩ : Scanner).tokens <;> rfl
  | @token offset gap text rest kind ts hgap hne hread others ih =>
    have hread' := Token.read_after hread hne (.inr ⟨more, rfl, hmore⟩)
    have hnext := Scanner.next_of_read offset hgap hread'
    rw [List.append_assoc, List.append_assoc, Scanner.tokens_of_next (congrArg Prod.fst hnext),
      if_neg hne, hnext, ih, List.dropLast_cons_of_ne_nil others.ne_nil, List.length_append,
      List.length_append, Nat.add_assoc, Nat.add_assoc]
    cases (⟨more, offset + (gap.length + (text.length + rest.length))⟩ : Scanner).tokens <;> rfl

theorem append (h : Scanned offset cs ts) (hmore : Text.Parted more)
    (hus : Scanned (offset + cs.length) more us) :
    Scanned offset (cs ++ more) (ts.dropLast ++ us) := by
  rw [← Scanner.tokens_eq_ok_iff (s := ⟨cs ++ more, offset⟩), h.tokens_append hmore,
    Scanner.tokens_of_scanned hus]
  rfl

theorem semicolon (h : Scanned (offset + 1) cs ts) :
    Scanned offset (';' :: cs) (⟨.semicolon, ";", offset⟩ :: ts) := by
  have hread : Token.read ([';'] ++ cs) = .ok .semicolon [';'].length := rfl
  exact @token offset [] [';'] cs .semicolon ts rfl (by decide) hread h

end Scanned

namespace Token

def Kind.isName : Kind → Bool
  | identifier _ | conditional | literal (.boolean _) | literal .null => true
  | _ => false

inductive Kind.Alike : Kind → Kind → Prop where
  | refl (kind : Kind) : Alike kind kind
  | name {s s' : String} : Text.upper s = Text.upper s' → Alike (.identifier s) (.identifier s')

theorem ofName_alike {s s' : String} (h : Text.lower s = Text.lower s') :
    (ofName s).Alike (ofName s') := by
  unfold ofName
  rw [h]
  dsimp only
  split
  · exact .refl _
  · split
    · exact .refl _
    · split
      · exact .refl _
      · split
        · exact .refl _
        · exact .name (Text.upper_eq_of_lower_eq h)

section
open Text
variable {text rest : List Char} {k : Kind}

theorem form_of_isName (h : k.isName = true) : k.form = .word := by
  cases k with
  | literal value => cases value <;> first | rfl | cases h
  | identifier _ | conditional => rfl
  | _ => cases h

theorem name_of_read (h : read (text ++ rest) = .ok k text.length) (hk : k.isName = true) :
    ∃ c cs, text = c :: cs ∧ isNameStart c = true ∧ text.all isNamePart = true ∧
      k = ofName (String.ofList text) := by
  have hok : (read (text ++ rest)).outcome = .ok k := by rw [h]; rfl
  have hlength : (read (text ++ rest)).length = text.length := by rw [h]; rfl
  cases text with
  | nil =>
    have hne : k ≠ .eof := by
      rintro rfl
      cases hk
    exact absurd hlength (Nat.ne_of_gt (read_length_pos hok hne))
  | cons c cs =>
    rw [List.cons_append] at hok hlength
    have hname : isNameStart c = true := by
      have hstarts := starts_of_read hok
      rwa [form_of_isName hk] at hstarts
    rw [read_name hname] at hok hlength
    have htext : (c :: cs ++ rest).takeWhile isNamePart = c :: cs :=
      takeWhile_eq_of_length hlength
    refine ⟨c, cs, rfl, hname, (takeWhile_append_eq_left.1 htext).1, ?_⟩
    rw [readName, ← List.cons_append, htext] at hok
    exact (Except.ok.inj hok).symm

theorem read_of_name {c : Char} {cs : List Char} (hstart : isNameStart c = true)
    (hall : (c :: cs).all isNamePart = true) (hrest : Parted rest) :
    read (c :: cs ++ rest) = .ok (ofName (String.ofList (c :: cs))) (c :: cs).length := by
  have htext : (c :: cs ++ rest).takeWhile isNamePart = c :: cs :=
    takeWhile_append_eq_left.2 ⟨hall, fun d hd => isNamePart_of_isSeparator (hrest d hd)⟩
  rw [List.cons_append, read_name hstart, ← List.cons_append, readName, htext]

end

/-- The word is the text of the token, where a name may be in another case. -/
def Respelled (t : Token) (word : List Char) : Prop :=
  if t.kind.isName then word.map Char.toLower = t.text.toList.map Char.toLower
  else word = t.text.toList

instance (t : Token) (word : List Char) : Decidable (t.Respelled word) :=
  inferInstanceAs (Decidable (ite (t.kind.isName = true) _ _))

theorem read_respelled {text rest rest' word : List Char} {k : Kind} {position : Nat}
    (h : read (text ++ rest) = .ok k text.length) (hne : k ≠ .eof)
    (hword : Respelled ⟨k, String.ofList text, position⟩ word) (hrest : Text.Parted rest') :
    ∃ k', k.Alike k' ∧ k' ≠ .eof ∧ read (word ++ rest') = .ok k' word.length := by
  unfold Respelled at hword
  split at hword
  · rename_i hname
    obtain ⟨c, cs, rfl, hstart, hall, rfl⟩ := name_of_read h hname
    rw [String.toList_ofList] at hword
    cases word with
    | nil => cases hword
    | cons d ds =>
      have hhead : d.toLower = c.toLower := (List.cons.inj hword).1
      have hstart' : Text.isNameStart d = true := by
        rw [← Text.isNameStart_toLower, hhead, Text.isNameStart_toLower, hstart]
      have hall' : (d :: ds).all Text.isNamePart = true := by
        rw [← Text.all_isNamePart_toLower, hword, Text.all_isNamePart_toLower, hall]
      have hlower :
          Text.lower (String.ofList (c :: cs)) = Text.lower (String.ofList (d :: ds)) := by
        rw [Text.lower, Text.lower, String.toList_ofList, String.toList_ofList, hword]
      exact ⟨_, ofName_alike hlower, ofName_ne_eof _, read_of_name hstart' hall' hrest⟩
  · rw [String.toList_ofList] at hword
    subst hword
    exact ⟨k, .refl k, hne, read_after h hne (.inl hrest)⟩

end Token

/-- The tokens written down again: behind blanks of any number, but at least one between two of
them, and names in any case. -/
def Relaid (ts : List Token) (cs : List Char) : Prop :=
  ∃ gaps words : List (List Char), gaps.length = ts.length ∧
    (∀ gap ∈ gaps, gap.all Text.isBlank = true) ∧ (∀ gap ∈ gaps.tail.dropLast, gap ≠ []) ∧
    List.Forall₂ Token.Respelled ts words ∧ cs = (List.zipWith (· ++ ·) gaps words).flatten

theorem Text.parted_of_blank {cs : List Char} (h : cs.all isBlank = true) : Parted cs := by
  intro c hc
  rw [isSeparator, List.all_eq_true.1 h c (List.mem_of_mem_head? hc), Bool.true_or]

theorem Text.parted_append {cs : List Char} (h : cs.all isBlank = true) (hne : cs ≠ [])
    (more : List Char) : Parted (cs ++ more) := by
  cases cs with
  | nil => exact absurd rfl hne
  | cons c cs => exact fun d hd => parted_of_blank h d hd

/-- Blanks keep apart what stands before them and behind them: the tokens of the first text are
followed by those of the second, or by its error, at the place where the second text stands. -/
theorem tokenize_spaced {first blanks : String} {tokens : List Token} {eof : Token}
    (hfirst : tokenize first = .ok (tokens ++ [eof])) (hne : blanks ≠ "")
    (hblank : blanks.toList.all Text.isBlank = true) (second : String) :
    tokenize (first ++ blanks ++ second) =
      (Scanner.relocate (first.length + blanks.length) (tokenize second)).map (tokens ++ ·) := by
  have hparted : Text.Parted (blanks.toList ++ second.toList) :=
    Text.parted_append hblank (by simpa using hne) second.toList
  have happend := (tokenize_eq_ok_iff.1 hfirst).tokens_append hparted
  have hbehind := Scanner.next_behind_blanks (0 + first.toList.length) hblank second.toList
  have hshift := Scanner.tokens_shift (first.length + blanks.length) (.ofSource second)
  rw [Scanner.tokens_congr hbehind, List.dropLast_concat, Nat.add_assoc, String.length_toList,
    String.length_toList] at happend
  rw [← tokenize] at hshift
  rw [tokenize, Scanner.ofSource, String.toList_append, String.toList_append, List.append_assoc,
    happend, ← hshift]
  rfl

/-- The operator before the blanks does not go on behind them. -/
theorem tokenize_spaced_operator :
    tokenize "'x' > \n = 2" = .error ⟨.singleOperator '=', 8⟩ ∧
    tokenize "'x' > \n 2" = .ok [⟨.literal (.text "x"), "'x'", 0⟩, ⟨.operator .greater, ">", 4⟩,
      ⟨.literal (.number (.ofDigit 2)), "2", 8⟩, ⟨.eof, "", 9⟩] := by
  have hfirst : tokenize "'x' >" = .ok ([⟨.literal (.text "x"), "'x'", 0⟩,
      ⟨.operator .greater, ">", 4⟩] ++ [⟨.eof, "", 5⟩]) := by
    decide +kernel
  have hblank : " \n ".toList.all Text.isBlank = true := by decide +kernel
  have hbroken := tokenize_spaced hfirst (by decide) hblank "= 2"
  have hwhole := tokenize_spaced hfirst (by decide) hblank "2"
  have herror : tokenize "= 2" = .error ⟨.singleOperator '=', 0⟩ := by decide +kernel
  have hsecond : tokenize "2" =
      .ok [⟨.literal (.number (.ofDigit 2)), "2", 0⟩, ⟨.eof, "", 1⟩] := by
    decide +kernel
  rw [herror] at hbroken
  rw [hsecond] at hwhole
  exact ⟨hbroken, hwhole⟩

namespace Scanned
variable {offset : Nat} {cs : List Char} {ts : List Token}

theorem word_of_singleton {t : Token} (h : Scanned offset cs [t]) {word : List Char}
    (hword : t.Respelled word) : word = [] := by
  cases h with
  | eof _ => exact hword
  | token _ _ _ others => exact absurd rfl others.ne_nil

theorem parted_relaid (h : Scanned offset cs ts) {gaps words : List (List Char)}
    (hlength : gaps.length = ts.length) (hblank : ∀ gap ∈ gaps, gap.all Text.isBlank = true)
    (hapart : ∀ gap ∈ gaps.dropLast, gap ≠ []) (hwords : List.Forall₂ Token.Respelled ts words) :
    Text.Parted (List.zipWith (· ++ ·) gaps words).flatten := by
  cases hwords with
  | nil => exact absurd rfl h.ne_nil
  | @cons t word ts words hword hwords =>
    cases gaps with
    | nil => cases hlength
    | cons gap gaps =>
      have hgap := hblank gap List.mem_cons_self
      rw [List.zipWith_cons_cons, List.flatten_cons, List.append_assoc]
      cases gaps with
      | nil =>
        -- the gap before the end, behind which nothing is written
        cases ts with
        | cons t' ts => cases hlength
        | nil =>
          rw [h.word_of_singleton hword, List.zipWith_nil_left, List.flatten_nil, List.append_nil,
            List.append_nil]
          exact Text.parted_of_blank hgap
      | cons gap' gaps => exact Text.parted_append hgap (hapart gap List.mem_cons_self) _

theorem relaid (h : Scanned offset cs ts) {cs' : List Char} (hrelaid : Relaid ts cs')
    (offset' : Nat) : ∃ us, Scanned offset' cs' us ∧
      List.Forall₂ (fun t u => t.kind.Alike u.kind) ts us := by
  obtain ⟨gaps, words, hlength, hblank, hapart, hwords, rfl⟩ := hrelaid
  induction h generalizing gaps words offset' with
  | eof _ =>
    cases hwords with
    | @cons _ word _ _ hword hwords =>
      cases hwords
      obtain ⟨gap, rfl⟩ := List.length_eq_one_iff.1 hlength
      have hword : word = [] := hword
      subst hword
      have hgap := hblank gap List.mem_cons_self
      refine ⟨[⟨.eof, "", offset' + gap.length⟩], ?_, .cons (.refl _) .nil⟩
      simpa using Scanned.eof hgap
  | @token offset gap text rest kind ts hgap hne hread others ih =>
    cases hwords with
    | @cons _ word _ words hword hwords =>
      cases gaps with
      | nil => cases hlength
      | cons gap' gaps =>
        obtain ⟨hblank', hblanks⟩ := List.forall_mem_cons.1 hblank
        have hlength' : gaps.length = ts.length := Nat.succ.inj hlength
        have hparted := others.parted_relaid hlength' hblanks hapart hwords
        obtain ⟨kind', halike, hne', hread'⟩ := Token.read_respelled hread hne hword hparted
        have hapart' : ∀ gap ∈ gaps.tail.dropLast, gap ≠ [] := by
          intro gap hgap
          rw [← List.tail_dropLast] at hgap
          exact hapart gap (List.mem_of_mem_tail hgap)
        obtain ⟨us, hus, hkinds⟩ :=
          ih (offset' + gap'.length + word.length) gaps words hlength' hblanks hapart' hwords
        refine ⟨⟨kind', String.ofList word, offset' + gap'.length⟩ :: us, ?_, .cons halike hkinds⟩
        rw [List.zipWith_cons_cons, List.flatten_cons, List.append_assoc]
        exact .token hblank' hne' hread' hus

end Scanned

end FieldFormula
