import FieldFormula.Proofs.Token.Joining
import Mathlib.Data.List.Chain
import Mathlib.Data.List.DropRight
import Mathlib.Data.List.Infix

/-!
Names of fields. What stands between the braces ends at the first two closing braces and loses the
blanks at its ends. Main statement: the names that a formula can write are those that are not empty,
have no blank at either end and no two closing braces in a row, and each of them is read back from
between two pairs of braces with one blank on either side (`field_writable_iff`).
-/
namespace FieldFormula

namespace Text
variable {cs ds : List Char}

def Trimmed (cs : List Char) : Prop :=
  (∀ c ∈ cs.head?, isBlank c = false) ∧ ∀ c ∈ cs.getLast?, isBlank c = false

instance (cs : List Char) : Decidable (Trimmed cs) :=
  @instDecidableAnd _ _ (Option.decidableForallMem cs.head?)
    (Option.decidableForallMem cs.getLast?)

theorem mem_head?_of_isPrefix (h : cs <+: ds) {c : Char} (hc : c ∈ cs.head?) : c ∈ ds.head? := by
  obtain ⟨more, rfl⟩ := h
  rw [List.head?_append, Option.mem_def.1 hc]
  rfl

theorem trim_eq_rdropWhile (cs : List Char) :
    trim cs = (cs.dropWhile isBlank).rdropWhile isBlank := rfl

theorem trimmed_trim (cs : List Char) : Trimmed (trim cs) := by
  rw [trim_eq_rdropWhile]
  constructor
  · intro c hc
    have hprefix := List.rdropWhile_prefix isBlank (cs.dropWhile isBlank)
    have hhead := List.head?_dropWhile_not isBlank cs
    rw [Option.mem_def.1 (mem_head?_of_isPrefix hprefix hc)] at hhead
    exact hhead
  · intro c hc
    obtain ⟨hne, rfl⟩ := List.mem_getLast?_eq_getLast hc
    exact Bool.eq_false_iff.2 (List.rdropWhile_last_not isBlank _ hne)

theorem trim_isInfix (cs : List Char) : trim cs <:+: cs := by
  have hleft : cs.dropWhile isBlank <:+ cs := List.dropWhile_suffix isBlank
  have hright : trim cs <+: cs.dropWhile isBlank := List.rdropWhile_prefix isBlank _
  exact hright.isInfix.trans hleft.isInfix

theorem trim_spaced (h : Trimmed cs) (hne : cs ≠ []) : trim (' ' :: cs ++ [' ']) = cs := by
  have hblank : isBlank ' ' = true := by decide
  obtain ⟨c, ds, rfl⟩ := List.exists_cons_of_ne_nil hne
  have hfirst : isBlank c = false := h.1 c rfl
  rw [trim_eq_rdropWhile, List.cons_append, List.dropWhile_cons_of_pos hblank, List.cons_append,
    List.dropWhile_cons_of_neg (by simp [hfirst]), ← List.cons_append,
    List.rdropWhile_concat_pos isBlank _ ' ' hblank, List.rdropWhile_eq_self_iff]
  intro hlast
  rw [h.2 _ (List.getLast?_eq_some_getLast hlast)]
  decide

end Text

namespace Token
variable {cs inner : List Char}

def Unpaired (a b : Char) : Prop := ¬ (a = '\x7d' ∧ b = '\x7d')

theorem isChain_unpaired_iff : cs.IsChain Unpaired ↔ ¬ ['\x7d', '\x7d'] <:+: cs := by
  rw [List.isChain_iff_forall_rel_of_append_cons_cons]
  constructor
  · rintro h ⟨before, after, rfl⟩
    exact h (List.append_assoc ..) ⟨rfl, rfl⟩
  · rintro h a b before after rfl ⟨rfl, rfl⟩
    exact h ⟨before, after, List.append_assoc ..⟩

theorem isPrefix_beforeBraces? (h : beforeBraces? cs = some inner) : inner <+: cs := by
  fun_induction beforeBraces? cs generalizing inner with
  | case1 => cases h
  | case2 =>
    cases h
    exact List.nil_prefix
  | case3 c cs _ ih =>
    obtain ⟨tail, htail, rfl⟩ := Option.map_eq_some_iff.1 h
    exact List.cons_prefix_cons.2 ⟨rfl, ih htail⟩

/-- The braces that end a name are the first two in a row. -/
theorem isChain_beforeBraces? (h : beforeBraces? cs = some inner) : inner.IsChain Unpaired := by
  fun_induction beforeBraces? cs generalizing inner with
  | case1 => cases h
  | case2 =>
    cases h
    exact .nil
  | case3 c cs hne ih =>
    obtain ⟨tail, htail, rfl⟩ := Option.map_eq_some_iff.1 h
    refine List.isChain_cons.2 ⟨fun d hd hpair => ?_, ih htail⟩
    obtain ⟨ds, hds⟩ :=
      List.head?_eq_some_iff.1 (Text.mem_head?_of_isPrefix (isPrefix_beforeBraces? htail) hd)
    exact hne ds hpair.1 (hpair.2 ▸ hds)

theorem beforeBraces?_append (h : (inner ++ ['\x7d']).IsChain Unpaired) (rest : List Char) :
    beforeBraces? (inner ++ '\x7d' :: '\x7d' :: rest) = some inner := by
  induction inner with
  | nil => rfl
  | cons c inner ih =>
    rw [List.cons_append, List.isChain_cons] at h
    -- the character behind `c` is the one before which the rest of the name stands
    have hcons : beforeBraces? (c :: (inner ++ '\x7d' :: '\x7d' :: rest)) =
        (beforeBraces? (inner ++ '\x7d' :: '\x7d' :: rest)).map (c :: ·) := by
      refine beforeBraces?.eq_3 _ _ fun tail hc htail => h.1 '\x7d' ?_ ⟨hc, rfl⟩
      have hhead := congrArg List.head? htail
      cases inner with
      | nil => rfl
      | cons d inner => exact hhead
    rw [List.cons_append, hcons, ih h.2]
    rfl

end Token

structure Writable (name : String) : Prop where
  nonempty : name ≠ ""
  trimmed : Text.Trimmed name.toList
  unpaired : ¬ ['\x7d', '\x7d'] <:+: name.toList

instance (name : String) : Decidable (Writable name) :=
  decidable_of_iff (name ≠ "" ∧ Text.Trimmed name.toList ∧ ¬ ['\x7d', '\x7d'] <:+: name.toList)
    ⟨fun ⟨h, h', h''⟩ => ⟨h, h', h''⟩, fun h => ⟨h.nonempty, h.trimmed, h.unpaired⟩⟩

variable {name : String}

namespace Token
variable {cs rest : List Char}

theorem writable_of_readField (h : (readField cs).outcome = .ok (.field name)) :
    Writable name := by
  unfold readField at h
  split at h
  · cases h
  · rename_i inner hinner
    dsimp only at h
    split at h
    · cases h
    · rename_i hne
      cases h
      have hpairs : (Text.trim inner).IsChain Unpaired :=
        List.IsChain.infix (isChain_beforeBraces? hinner) (Text.trim_isInfix inner)
      refine ⟨?_, ?_, ?_⟩
      · simpa using hne
      · rw [String.toList_ofList]
        exact Text.trimmed_trim inner
      · rw [String.toList_ofList]
        exact isChain_unpaired_iff.1 hpairs

theorem writable_of_read (h : (read cs).outcome = .ok (.field name)) : Writable name := by
  cases cs with
  | nil => cases h
  | cons c cs =>
    obtain ⟨rfl, ds, rfl⟩ : c = '\x7b' ∧ ∃ ds, cs = '\x7b' :: ds := starts_of_read h
    rw [read_field] at h
    exact writable_of_readField h

def braced (name : String) : String := "\x7b\x7b " ++ name ++ " \x7d\x7d"

theorem isChain_spaced (h : ¬ ['\x7d', '\x7d'] <:+: cs) :
    (' ' :: cs ++ [' '] ++ ['\x7d']).IsChain Unpaired := by
  have hblank : ' ' ≠ '\x7d' := by decide
  have hends : [' ', '\x7d'].IsChain Unpaired := List.isChain_pair.2 fun h => hblank h.1
  rw [List.append_assoc, List.cons_append, List.isChain_cons, List.isChain_append]
  refine ⟨fun _ _ h => hblank h.1, isChain_unpaired_iff.2 h, hends, ?_⟩
  rintro x - y hy ⟨-, rfl⟩
  exact hblank (Option.some.inj hy)

theorem read_braced (h : Writable name) :
    read (braced name).toList = .ok (.field name) (braced name).toList.length := by
  have hne : name.toList ≠ [] := by
    rw [ne_eq, String.toList_eq_nil_iff]
    exact h.nonempty
  have hchars : (braced name).toList =
      '\x7b' :: '\x7b' :: (' ' :: name.toList ++ [' '] ++ ['\x7d', '\x7d']) := by
    simp [braced]
  have hinner : beforeBraces? (' ' :: name.toList ++ [' '] ++ ['\x7d', '\x7d']) =
      some (' ' :: name.toList ++ [' ']) :=
    beforeBraces?_append (isChain_spaced h.unpaired) []
  rw [hchars, read_field, readField, hinner]
  simp only [Text.trim_spaced h.trimmed hne, List.isEmpty_iff, hne, if_false, String.ofList_toList]
  congr 1
  simp

end Token

theorem writable_of_tokenize {source : String} {t eof : Token}
    (h : tokenize source = .ok [t, eof]) (ht : t.kind = .field name) : Writable name := by
  obtain ⟨u, hnext, ⟨-, hts⟩ | ⟨-, others, -, hts⟩⟩ := Scanner.tokens_eq_ok h
  · cases hts
  · cases hts
    obtain ⟨gap, text, -, -, hread, -, -⟩ := Scanner.next_eq_ok hnext
    rw [ht] at hread
    exact Token.writable_of_read (congrArg Reading.outcome hread)

theorem tokenize_braced (h : Writable name) : tokenize (Token.braced name) =
    .ok [⟨.field name, Token.braced name, 0⟩, ⟨.eof, "", name.length + 6⟩] := by
  have hlength : (Token.braced name).length = name.length + 6 := by
    rw [← String.length_toList, ← String.length_toList]
    simp [Token.braced]
  rw [← hlength]
  exact tokenize_of_read (by simp) (Token.read_braced h)

theorem field_writable_iff (name : String) :
    ((∃ source t eof, tokenize source = .ok [t, eof] ∧ t.kind = .field name ∧ eof.kind = .eof) ↔
      Writable name) ∧
    (Writable name → tokenize (Token.braced name) =
      .ok [⟨.field name, Token.braced name, 0⟩, ⟨.eof, "", name.length + 6⟩]) := by
  refine ⟨⟨?_, fun h => ?_⟩, tokenize_braced⟩
  · rintro ⟨source, t, eof, h, ht, -⟩
    exact writable_of_tokenize h ht
  · exact ⟨_, _, _, tokenize_braced h, rfl, rfl⟩

/-- A name that starts and ends with a closing brace and has two opening ones in it. -/
theorem field_writable_braces :
    let name := "\x7d a\x7b\x7b\x7d"
    Writable name ∧ tokenize "\x7b\x7b \x7d a\x7b\x7b\x7d \x7d\x7d" =
      .ok [⟨.field name, "\x7b\x7b \x7d a\x7b\x7b\x7d \x7d\x7d", 0⟩, ⟨.eof, "", 12⟩] := by
  intro name
  have hname : Writable name := by decide +kernel
  have hbraced : Token.braced name = "\x7b\x7b \x7d a\x7b\x7b\x7d \x7d\x7d" := by decide +kernel
  have hlength : name.length + 6 = 12 := by decide +kernel
  have htokens := (field_writable_iff name).2 hname
  rw [hbraced, hlength] at htokens
  exact ⟨hname, htokens⟩

end FieldFormula
