import FieldFormula.Proofs.Decimal.Digits
import FieldFormula.Proofs.Logic.Scanning
import FieldFormula.Proofs.Reading.Tree

/-!
The lexemes of texts in either target, found by an automaton on characters. A symbol goes on as long
as some symbol of the target does, so that two minus signs in a row are never two operators. Braces
of scripts are counted to tell the end of a hole of a template from the end of an object. Main
statements: words, symbols, numbers and quoted text are each scanned into their lexeme, whatever
follows that does not continue them (`scans_word`, `scans_symbol`, `scans_number`, `scans_quoted`).
-/
namespace FieldFormula.Reading
open Logic (isWordChar escape? hexValue?)

def links : Target → List Link
  | .sql => .comma :: [.or, .and, .equal, .notEqual, .less, .greater, .lessEqual, .greaterEqual,
      .add, .subtract, .multiply, .divide, .modulo, .power].map Link.binary
  | .script => .comma :: .orElse :: .loose false :: .loose true ::
      [.or, .and, .equal, .notEqual, .less, .greater, .lessEqual, .greaterEqual, .add, .subtract,
        .multiply, .divide, .modulo].map Link.binary

def Link.symbol : Target → Link → String
  | .sql, binary op => Sql.operator op
  | .script, binary op => Script.operator op
  | _, loose negated => if negated then "!=" else "=="
  | _, orElse => "??"
  | _, comma => ","

def nullWord : Target → String
  | .sql => "NULL"
  | .script => "null"

def lexicon (target : Target) : List (String × Lexeme) :=
  [("true", .constant true), ("false", .constant false), (nullWord target, .null),
    ("(", .leftParen), (")", .rightParen), ("[", .leftBracket), ("]", .rightBracket)] ++
  (match target with
    | .sql => [("NOT", .bang), ("IS", .is), ("::", .cast), ("CASE", .caseMark), ("WHEN", .whenMark),
        ("THEN", .thenMark), ("ELSE", .elseMark), ("END", .endMark)]
    | .script => [("!", .bang), (".", .dot), ("?", .question), (":", .colon)]) ++
  (links target).map fun op => (op.symbol target, .link op)

/-- Symbols that the target reads as one and that have no meaning here, such as the start of a
comment. -/
def reserved : Target → List String
  | .sql => ["--", "/*", "<>", "||", "->", "@", "~", "&", "|", "#", ";"]
  | .script => ["--", "++", "**", "//", "/*", "<<", ">>", "=>", "=", "&", "|", "^", "~", "?.",
      "...", "+=", "-=", "*=", "/=", "%=", ";", "@", "#"]

def symbols (target : Target) : List String := (lexicon target).map Prod.fst ++ reserved target

def begins (target : Target) (cs : List Char) : Bool :=
  (symbols target).any fun s => cs.isPrefixOf s.toList

def Quote.char : Quote → Char
  | single => '\''
  | double => '"'

/-- The lexeme at hand, which may go on with the next character or end before it. -/
inductive Pending where
  | nothing
  | word (letters : List Char)
  | whole (digits : List Char)
  | fraction (digits places : List Char)
  | symbol (cs : List Char)
  | ended (quote : Quote) (value : List Char)
  deriving DecidableEq, Repr

inductive Mode where
  | pending (p : Pending)
  | quoted (quote : Quote) (value : List Char)
  | escaped (quote : Quote) (value : List Char)
  | code (quote : Quote) (value : List Char) (sum missing : Nat)
  | tick
  | dollar (l : Lexeme)
  | behindHole
  deriving DecidableEq, Repr

def Mode.between : Mode := .pending .nothing

def extend? (target : Target) : Pending → Char → Option Mode
  | .nothing, _ => none
  | .word letters, c => if isWordChar c then some (.pending (.word (letters ++ [c]))) else none
  | .whole digits, c =>
    if c.isDigit then some (.pending (.whole (digits ++ [c])))
    else if c = '.' then some (.pending (.fraction digits [])) else none
  | .fraction digits places, c =>
    if c.isDigit then some (.pending (.fraction digits (places ++ [c]))) else none
  | .symbol cs, c =>
    if begins target (cs ++ [c]) then some (.pending (.symbol (cs ++ [c]))) else none
  | .ended quote value, c =>
    if target = .sql ∧ c = quote.char then some (.quoted quote (value ++ [c])) else none

def wordLexeme (target : Target) (w : String) : Lexeme :=
  ((lexicon target).lookup w).getD (.name w)

def flush (target : Target) : Pending → Option (List Lexeme)
  | .nothing => some []
  | .word letters => some [wordLexeme target (String.ofList letters)]
  | .whole digits => (Decimal.ofParts? (Nat.ofDigitChars 10 digits 0) 0).map ([.number ·])
  | .fraction digits places =>
    if places = [] then none
    else
      (Decimal.ofParts? (Nat.ofDigitChars 10 (digits ++ places) 0) places.length).map ([.number ·])
  | .symbol cs => ((lexicon target).lookup (String.ofList cs)).map ([·])
  | .ended quote value => some [.text quote (String.ofList value)]

/-- The lexemes, the mode and the open braces after the first character of a lexeme; of the braces,
those of holes are `true`. -/
def start (target : Target) (braces : List Bool) (c : Char) :
    Option (List Lexeme × Mode × List Bool) :=
  if c = ' ' then some ([], .between, braces)
  else if c.isDigit then some ([], .pending (.whole [c]), braces)
  else if isWordChar c then some ([], .pending (.word [c]), braces)
  else if c = '\'' then some ([], .quoted .single [], braces)
  else if target = .script ∧ c = '"' then some ([], .quoted .double [], braces)
  else if target = .script ∧ c = '\x60' then some ([], .tick, braces)
  else if target = .script ∧ c = '\x7b' then some ([.leftBrace], .between, false :: braces)
  else if target = .script ∧ c = '\x7d' then
    match braces with
    | true :: braces => some ([], .behindHole, braces)
    | false :: braces => some ([.rightBrace], .between, braces)
    | [] => none
  else if begins target [c] then some ([], .pending (.symbol [c]), braces)
  else none

def next (target : Target) (braces : List Bool) : Mode → Char →
    Option (List Lexeme × Mode × List Bool)
  | .quoted quote value, c =>
    if c = quote.char then some ([], .pending (.ended quote value), braces)
    else if target = .script ∧ c = '\\' then some ([], .escaped quote value, braces)
    else if target = .script ∧ (c = '\n' ∨ c = '\r') then none
    else some ([], .quoted quote (value ++ [c]), braces)
  | .escaped quote value, c =>
    if c = 'u' then some ([], .code quote value 0 4, braces)
    else (escape? c).map fun d => ([], .quoted quote (value ++ [d]), braces)
  | .code quote value sum missing, c =>
    (hexValue? c).bind fun digit =>
      if missing ≠ 1 then some ([], .code quote value (sum * 16 + digit) (missing - 1), braces)
      else if (sum * 16 + digit).isValidChar then
        some ([], .quoted quote (value ++ [Char.ofNat (sum * 16 + digit)]), braces)
      else none
  | .tick, c => if c = '$' then some ([], .dollar .templateStart, braces) else none
  | .dollar l, c => if c = '\x7b' then some ([l], .between, true :: braces) else none
  | .behindHole, c =>
    if c = '\x60' then some ([.templateEnd], .between, braces)
    else if c = '$' then some ([], .dollar .templateNext, braces)
    else none
  | .pending p, c =>
    match extend? target p c with
    | some mode => some ([], mode, braces)
    | none => (flush target p).bind fun ls =>
      (start target braces c).map fun (ms, mode, braces) => (ls ++ ms, mode, braces)

def finish (target : Target) : Mode → Option (List Lexeme)
  | .pending p => flush target p
  | _ => none

def scan (target : Target) : Mode → List Bool → List Char → Option (List Lexeme)
  | mode, _, [] => finish target mode
  | mode, braces, c :: cs =>
    (next target braces mode c).bind fun (ls, mode, braces) =>
      (scan target mode braces cs).map (ls ++ ·)

def read (target : Target) (text : String) : Option Tree :=
  (scan target .between [] text.toList).bind (Reader.run target (.wanting []))

section
variable {target : Target} {c : Char} {cs ds rest : List Char} {ls ms : List Lexeme}
  {mode : Mode} {braces : List Bool}

theorem scan_cons {mode' : Mode} {braces' : List Bool}
    (h : next target braces mode c = some (ls, mode', braces')) :
    scan target mode braces (c :: cs) = (scan target mode' braces' cs).map (ls ++ ·) := by
  rw [scan, h, Option.bind_some]

theorem scan_skip {mode' : Mode} {braces' : List Bool}
    (h : next target braces mode c = some ([], mode', braces')) :
    scan target mode braces (c :: cs) = scan target mode' braces' cs := by
  rw [scan_cons h]
  simp

theorem scan_extend {p : Pending} {mode : Mode} (h : extend? target p c = some mode) :
    scan target (.pending p) braces (c :: cs) = scan target mode braces cs := by
  apply scan_skip
  rw [next, h]

theorem next_between : next target braces .between c = start target braces c := by
  cases hs : start target braces c <;> simp [next, Mode.between, extend?, flush, hs]

theorem scan_flush {p : Pending} (hf : flush target p = some ls)
    (hn : ∀ c ∈ rest.head?, extend? target p c = none) :
    scan target (.pending p) braces rest = (scan target .between braces rest).map (ls ++ ·) := by
  cases rest with
  | nil =>
    rw [scan, finish, hf, scan, Mode.between, finish, flush, Option.map_some, List.append_nil]
  | cons c cs =>
    have hnext : next target braces (.pending p) c =
        (start target braces c).map fun (ms, mode, braces) => (ls ++ ms, mode, braces) := by
      rw [next, hn c rfl, hf]
      rfl
    rw [scan, scan, hnext, next_between]
    cases start target braces c with
    | none => rfl
    | some emitted => simp [Function.comp_def]

/-- Whatever text follows whose first character satisfies `p`, `s` is scanned into `ls`. -/
def Scans (target : Target) (p : Char → Bool) (s : String) (ls : List Lexeme) : Prop :=
  ∀ rest braces, (∀ c ∈ rest.head?, p c = true) →
    scan target .between braces (s.toList ++ rest) =
      (scan target .between braces rest).map (ls ++ ·)

def starts (p : Char → Bool) (s : String) : Bool := s.toList.head?.any p

variable {p q : Char → Bool} {s t : String}

theorem starts_iff : starts p s = true ↔ ∃ c, s.toList.head? = some c ∧ p c = true :=
  Option.any_eq_true _ _

theorem starts_append (h : starts p s = true) : starts p (s ++ t) = true := by
  obtain ⟨c, hc, hp⟩ := starts_iff.1 h
  refine starts_iff.2 ⟨c, ?_, hp⟩
  rw [String.toList_append, List.head?_append, hc, Option.some_or]

theorem Scans.imp (h : Scans target p s ls) (hq : ∀ c, q c = true → p c = true) :
    Scans target q s ls :=
  fun rest braces hr => h rest braces fun c hc => hq c (hr c hc)

theorem Scans.before (h : Scans target p s ls) (hp : p c = true) :
    scan target .between braces (s.toList ++ c :: rest) =
      (scan target .between braces (c :: rest)).map (ls ++ ·) := by
  apply h
  rintro d ⟨⟩
  exact hp

theorem Scans.append (h : Scans target p s ls) (k : Scans target q t ms)
    (ht : starts p t = true) : Scans target q (s ++ t) (ls ++ ms) := by
  intro rest braces hr
  obtain ⟨d, hd, hp⟩ := starts_iff.1 ht
  have hhead : ∀ c ∈ (t.toList ++ rest).head?, p c = true := by
    rw [List.head?_append, hd, Option.some_or]
    rintro c ⟨⟩
    exact hp
  rw [String.toList_append, List.append_assoc, h _ _ hhead, k rest braces hr, Option.map_map]
  simp [Function.comp_def]

theorem Scans.then (h : Scans target (fun _ => true) s ls) (k : Scans target q t ms) :
    Scans target q (s ++ t) (ls ++ ms) := by
  intro rest braces hr
  rw [String.toList_append, List.append_assoc, h _ _ fun _ _ => rfl, k rest braces hr,
    Option.map_map]
  simp [Function.comp_def]

theorem scans_blank : Scans target p " " [] := by
  intro rest braces _
  have hblank : start target braces ' ' = some ([], .between, braces) := rfl
  have hlist : " ".toList ++ rest = ' ' :: rest := rfl
  rw [hlist, scan_skip (next_between.trans hblank)]
  simp

theorem Scans.spaced (h : Scans target p s ls) (hp : p ' ' = true) :
    Scans target q (" " ++ (s ++ " ")) ls := by
  have hall := (scans_blank (p := fun _ => true)).then (h.append (scans_blank (p := q)) hp)
  rwa [List.nil_append, List.append_nil] at hall

def isWord (w : String) : Bool := w.toList.all isWordChar && starts (fun c => !c.isDigit) w

theorem exists_cons_of_isWord (h : isWord s = true) : ∃ c cs, s.toList = c :: cs ∧
    c.isDigit = false ∧ isWordChar c = true ∧ cs.all isWordChar = true := by
  rw [isWord, starts, Bool.and_eq_true] at h
  obtain ⟨hall, hhead⟩ := h
  cases hlist : s.toList with
  | nil =>
    rw [hlist] at hhead
    cases hhead
  | cons c cs =>
    rw [hlist, List.all_cons, Bool.and_eq_true] at hall
    rw [hlist] at hhead
    exact ⟨c, cs, rfl, by simpa using hhead, hall⟩

theorem scan_extends (f : List Char → Pending) {accepts : Char → Bool} {xs : List Char}
    (hf : ∀ xs c, accepts c = true → extend? target (f xs) c = some (.pending (f (xs ++ [c]))))
    (hds : ds.all accepts = true) :
    scan target (.pending (f xs)) braces (ds ++ rest) =
      scan target (.pending (f (xs ++ ds))) braces rest := by
  induction ds generalizing xs with
  | nil => simp
  | cons d ds ih =>
    rw [List.all_cons, Bool.and_eq_true] at hds
    rw [List.cons_append, scan_extend (hf xs d hds.1), ih hds.2]
    simp

theorem scans_word (hs : isWord s = true) :
    Scans target (fun c => !isWordChar c) s [wordLexeme target s] := by
  intro rest braces hr
  obtain ⟨c, cs, hlist, hdigit, hword, hall⟩ := exists_cons_of_isWord hs
  have hblank : c ≠ ' ' := by
    rintro rfl
    exact absurd hword (by decide)
  have hstart : start target braces c = some ([], .pending (.word [c]), braces) := by
    simp [start, hblank, hdigit, hword]
  have hflush : flush target (.word (c :: cs)) = some [wordLexeme target s] := by
    rw [flush, ← hlist, String.ofList_toList]
  rw [hlist, List.cons_append, scan_skip (next_between.trans hstart),
    scan_extends .word (fun _ _ hc => if_pos hc) hall]
  refine scan_flush hflush fun d hd => ?_
  have hnot : isWordChar d = false := by simpa using hr d hd
  simp [extend?, hnot]

def following (target : Target) (cs : List Char) : List Char :=
  (symbols target).filterMap fun s =>
    if cs.isPrefixOf s.toList then (s.toList.drop cs.length).head? else none

theorem mem_following (h : begins target (cs ++ [c]) = true) : c ∈ following target cs := by
  obtain ⟨s, hs, hpre⟩ := List.any_eq_true.1 h
  obtain ⟨tail, htail⟩ := List.isPrefixOf_iff_prefix.1 hpre
  have hcs : cs.isPrefixOf s.toList = true := by
    rw [List.isPrefixOf_iff_prefix, ← htail, List.append_assoc]
    exact List.prefix_append ..
  refine List.mem_filterMap.2 ⟨s, hs, ?_⟩
  rw [if_pos hcs, ← htail, List.append_assoc, List.drop_left]
  rfl

theorem begins_of_append (h : begins target (cs ++ ds) = true) : begins target cs = true := by
  obtain ⟨s, hs, hpre⟩ := List.any_eq_true.1 h
  refine List.any_eq_true.2 ⟨s, hs, ?_⟩
  rw [List.isPrefixOf_iff_prefix] at hpre ⊢
  exact (List.prefix_append cs ds).trans hpre

theorem scan_symbol (cs : List Char) (h : begins target (cs ++ ds) = true) :
    scan target (.pending (.symbol cs)) braces (ds ++ rest) =
      scan target (.pending (.symbol (cs ++ ds))) braces rest := by
  induction ds generalizing cs with
  | nil => simp
  | cons d ds ih =>
    have hds : begins target ((cs ++ [d]) ++ ds) = true := by simpa using h
    have hnext : extend? target (.symbol cs) d = some (.pending (.symbol (cs ++ [d]))) :=
      if_pos (begins_of_append hds)
    rw [List.cons_append, scan_extend hnext, ih (cs ++ [d]) hds]
    simp

def isSymbolStart (target : Target) (c : Char) : Bool :=
  !isWordChar c && begins target [c] &&
    !(List.contains [' ', '\'', '"', '\x60', '\x7b', '\x7d'] c)

theorem start_symbol (h : isSymbolStart target c = true) :
    start target braces c = some ([], .pending (.symbol [c]), braces) := by
  simp only [isSymbolStart, Bool.and_eq_true, Bool.not_eq_true', List.contains_eq_mem,
    decide_eq_false_iff_not, List.mem_cons, List.not_mem_nil, or_false, not_or] at h
  obtain ⟨⟨hw, hb⟩, h₁, h₂, h₃, h₄, h₅, h₆⟩ := h
  have hdigit : c.isDigit = false := by
    simp only [isWordChar, Char.isAlphanum, Bool.or_eq_false_iff] at hw
    exact hw.1.1.2
  simp [start, hw, h₁, h₂, h₃, h₄, h₅, h₆, hb, hdigit]

theorem begins_of_lookup {l : Lexeme} (h : (lexicon target).lookup s = some l) :
    begins target s.toList = true := by
  obtain ⟨before, after, hlexicon, -⟩ := List.lookup_eq_some_iff.1 h
  refine List.any_eq_true.2 ⟨s, ?_, List.isPrefixOf_iff_prefix.2 List.prefix_rfl⟩
  simp [symbols, hlexicon]

theorem scans_symbol {l : Lexeme} (hl : (lexicon target).lookup s = some l)
    (hs : starts (isSymbolStart target) s = true)
    (hp : (following target s.toList).all (fun c => !p c) = true) : Scans target p s [l] := by
  intro rest braces hr
  have hbegins := begins_of_lookup hl
  rw [starts] at hs
  cases hlist : s.toList with
  | nil =>
    rw [hlist] at hs
    cases hs
  | cons c cs =>
    rw [hlist] at hs hp hbegins
    have hflush : flush target (.symbol ([c] ++ cs)) = some [l] := by
      rw [flush, List.singleton_append, ← hlist, String.ofList_toList, hl, Option.map_some]
    rw [List.cons_append, scan_skip (next_between.trans (start_symbol hs)),
      scan_symbol [c] hbegins]
    refine scan_flush hflush fun d hd => if_neg fun hgoes => ?_
    have hnot := List.all_eq_true.1 hp d (mem_following hgoes)
    rw [hr d hd] at hnot
    cases hnot

theorem scan_whole {whole : List Char} (hne : whole ≠ []) (hall : whole.all Char.isDigit = true) :
    scan target .between braces (whole ++ rest) =
      scan target (.pending (.whole whole)) braces rest := by
  obtain ⟨first, others, rfl⟩ := List.exists_cons_of_ne_nil hne
  rw [List.all_cons, Bool.and_eq_true] at hall
  have hblank : first ≠ ' ' := by
    rintro rfl
    exact absurd hall.1 (by decide)
  have hstart : start target braces first = some ([], .pending (.whole [first]), braces) := by
    simp [start, hblank, hall.1]
  rw [List.cons_append, scan_skip (next_between.trans hstart),
    scan_extends .whole (fun _ _ hc => if_pos hc) hall.2]
  rfl

theorem scans_number {d : Decimal} (h : d.negative = false) :
    Scans target (fun c => !c.isDigit && c != '.') d.toText [.number d] := by
  intro rest braces hr
  obtain ⟨whole, fraction, hchars, hne, hwhole, hfraction, hlength, hvalue⟩ := Decimal.toChars_eq h
  have hd : Decimal.ofParts? (Nat.ofDigitChars 10 (whole ++ fraction) 0) fraction.length =
      some d := by
    rw [hlength, hvalue, Decimal.ofParts?_self h]
  have hends : ∀ c ∈ rest.head?, c.isDigit = false ∧ c ≠ '.' := by
    intro c hc
    simpa using hr c hc
  rw [Decimal.toText, String.toList_ofList, hchars]
  by_cases hzero : d.scale = 0
  · have hnil : fraction = [] := List.eq_nil_of_length_eq_zero (hlength.trans hzero)
    rw [if_pos hzero, scan_whole hne hwhole]
    refine scan_flush ?_ fun c hc => ?_
    · rw [hnil, List.append_nil, List.length_nil] at hd
      rw [flush, hd, Option.map_some]
    · simp [extend?, hends c hc]
  · have hnil : fraction ≠ [] := by
      rintro rfl
      exact hzero hlength.symm
    have hpoint : extend? target (.whole whole) '.' = some (.pending (.fraction whole [])) := rfl
    rw [if_neg hzero, List.append_assoc, scan_whole hne hwhole, List.cons_append,
      scan_extend hpoint, scan_extends (.fraction whole) (fun _ _ hc => if_pos hc) hfraction,
      List.nil_append]
    refine scan_flush ?_ fun c hc => ?_
    · rw [flush, if_neg hnil, hd, Option.map_some]
    · simp [extend?, hends c hc]

def encode : Target → Quote → Char → List Char
  | .sql, _ => Sql.quoteChar
  | .script, .single => Text.escapeKeyChar
  | .script, .double => Text.escapeChar

variable {quote : Quote} {value : List Char}

theorem next_backslash : next .script braces (.quoted quote value) '\\' =
    some ([], .escaped quote value, braces) := by
  cases quote <;> rfl

theorem scan_control (h : c.toNat < 32) :
    scan .script (.quoted quote value) braces ('\\' :: 'u' :: (Text.hexDigits c.toNat ++ rest)) =
      scan .script (.quoted quote (value ++ [c])) braces rest := by
  obtain ⟨h₁, h₂, h₃, h₄⟩ := Logic.hexValue?_hexDigits h
  have hvalue : (((0 * 16 + 0) * 16 + 0) * 16 + c.toNat / 16) * 16 + c.toNat % 16 = c.toNat := by
    omega
  have hvalid : c.toNat.isValidChar := c.valid
  have hdigit {sum missing n : Nat} {d : Char} (hd : hexValue? d = some n) (hm : missing ≠ 1) :
      next .script braces (.code quote value sum missing) d =
        some ([], .code quote value (sum * 16 + n) (missing - 1), braces) := by
    rw [next, hd, Option.bind_some, if_pos hm]
  have hlast : next .script braces
      (.code quote value (((0 * 16 + 0) * 16 + 0) * 16 + c.toNat / 16) 1)
      (Text.hexDigit c.toNat) = some ([], .quoted quote (value ++ [c]), braces) := by
    rw [next, h₄, Option.bind_some, if_neg (by decide), hvalue, if_pos hvalid, Char.ofNat_toNat]
  have hcode : next .script braces (.escaped quote value) 'u' =
      some ([], .code quote value 0 4, braces) := rfl
  rw [scan_skip next_backslash, scan_skip hcode, Text.hexDigits]
  simp only [List.cons_append, List.nil_append]
  rw [scan_skip (hdigit h₁ (by decide)), scan_skip (hdigit h₂ (by decide)),
    scan_skip (hdigit h₃ (by decide)), scan_skip hlast]

theorem next_quoted (hq : c ≠ quote.char)
    (hs : target = .script → c ≠ '\\' ∧ c ≠ '\n' ∧ c ≠ '\r') :
    next target braces (.quoted quote value) c =
      some ([], .quoted quote (value ++ [c]), braces) := by
  have hback : ¬ (target = .script ∧ c = '\\') := fun h => (hs h.1).1 h.2
  have hline : ¬ (target = .script ∧ (c = '\n' ∨ c = '\r')) := fun h =>
    h.2.elim (hs h.1).2.1 (hs h.1).2.2
  rw [next, if_neg hq, if_neg hback, if_neg hline]

theorem scan_escaped {d : Char} (hd : d ≠ 'u') (hc : escape? d = some c) :
    scan .script (.quoted quote value) braces ('\\' :: d :: rest) =
      scan .script (.quoted quote (value ++ [c])) braces rest := by
  have hnext : next .script braces (.escaped quote value) d =
      some ([], .quoted quote (value ++ [c]), braces) := by
    rw [next, if_neg hd, hc, Option.map_some]
  rw [scan_skip next_backslash, scan_skip hnext]

theorem scan_escapeChar (hq : c = quote.char → c = '"') :
    scan .script (.quoted quote value) braces (Text.escapeChar c ++ rest) =
      scan .script (.quoted quote (value ++ [c])) braces rest := by
  rw [Text.escapeChar]
  split_ifs with h₁ h₂ h₃ h₄ h₅ h₆ h₇ h₈
  · exact scan_escaped (by decide) (by rw [h₁]; rfl)
  · exact scan_escaped (by decide) (by rw [h₂]; rfl)
  · exact scan_escaped (by decide) (by rw [h₃]; rfl)
  · exact scan_escaped (by decide) (by rw [h₄]; rfl)
  · exact scan_escaped (by decide) (by rw [h₅]; rfl)
  · exact scan_escaped (by decide) (by rw [h₆]; rfl)
  · exact scan_escaped (by decide) (by rw [h₇]; rfl)
  · exact scan_control h₈
  · exact scan_skip (next_quoted (fun h => h₁ (hq h)) fun _ => ⟨h₂, h₅, h₆⟩)

theorem scan_encode (hq : target = .sql → quote = .single) :
    scan target (.quoted quote value) braces (encode target quote c ++ rest) =
      scan target (.quoted quote (value ++ [c])) braces rest := by
  cases target with
  | sql =>
    cases hq rfl
    rw [encode, Sql.quoteChar]
    split
    · rename_i hc
      have hend : next .sql braces (.quoted .single value) '\'' =
          some ([], .pending (.ended .single value), braces) := rfl
      have hmore : extend? .sql (.ended .single value) '\'' =
          some (.quoted .single (value ++ ['\''])) := rfl
      rw [hc, List.cons_append, List.cons_append, List.nil_append, scan_skip hend,
        scan_extend hmore]
    · rename_i hc
      exact scan_skip (next_quoted hc fun h => absurd h (by decide))
  | script =>
    cases quote with
    | double => exact scan_escapeChar id
    | single =>
      rw [encode, Text.escapeKeyChar]
      split
      · rename_i hc
        exact scan_escaped (by decide) (by rw [hc]; rfl)
      · rename_i hc
        exact scan_escapeChar fun h => absurd h hc

theorem scan_quoted {s : List Char} (hq : target = .sql → quote = .single) :
    scan target (.quoted quote value) braces (s.flatMap (encode target quote) ++ rest) =
      scan target (.quoted quote (value ++ s)) braces rest := by
  induction s generalizing value with
  | nil => simp
  | cons c s ih =>
    rw [List.flatMap_cons, List.append_assoc, scan_encode hq, ih, List.append_assoc,
      List.singleton_append]

def quoted (target : Target) (quote : Quote) (s : String) : String :=
  String.ofList (quote.char :: (s.toList.flatMap (encode target quote) ++ [quote.char]))

theorem scans_quoted (s : String) (hq : target = .sql → quote = .single) :
    Scans target (fun c => c != '\'') (quoted target quote s) [.text quote s] := by
  intro rest braces hr
  have hstart : start target braces quote.char = some ([], .quoted quote [], braces) := by
    cases target with
    | sql =>
      cases hq rfl
      rfl
    | script => cases quote <;> rfl
  have hend : next target braces (.quoted quote s.toList) quote.char =
      some ([], .pending (.ended quote s.toList), braces) := if_pos rfl
  have hflush : flush target (.ended quote s.toList) = some [.text quote s] := by
    rw [flush, String.ofList_toList]
  rw [quoted, String.toList_ofList, List.cons_append, List.append_assoc,
    scan_skip (next_between.trans hstart), scan_quoted hq, List.nil_append,
    List.singleton_append, scan_skip hend]
  refine scan_flush hflush fun c hc => if_neg fun ⟨hsql, hchar⟩ => ?_
  have hne : c ≠ '\'' := by simpa using hr c hc
  rw [hq hsql] at hchar
  exact hne hchar

end

end FieldFormula.Reading
