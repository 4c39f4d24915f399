import FieldFormula.Proofs.Logic.Term
import Mathlib.Tactic.SplitIfs

/-!
The lexemes of logical texts in either target, found by an automaton on characters. A field stands
between `$$VARIABLES[` and `]` as a quoted key, with escapes in a script and doubled quotes in SQL.
Main statement: the text of a term is scanned into the lexemes of the term (`scans_text`), so the
text of a term whose operands bind tightly enough has the value of the term (`evaluate_text`).
-/
namespace FieldFormula.Logic

inductive Mode where
  | between
  | word (letters : List Char)
  | paired (c : Char)
  | bracket
  | key (name : List Char)
  | escaped (name : List Char)
  | code (name : List Char) (value missing : Nat)
  | closed (name : List Char)
  deriving DecidableEq, Repr

def isWordChar (c : Char) : Bool := c.isAlphanum || c == '_' || c == '$'

def words : Target → List (String × Lexeme)
  | .script => [("true", .constant true), ("false", .constant false)]
  | .sql => [("true", .constant true), ("false", .constant false), ("NOT", .not),
      ("AND", .connective .and), ("OR", .connective .or), ("COALESCE", .coalesce)]

def word? (target : Target) (letters : List Char) : Option Lexeme :=
  (words target).lookup (String.ofList letters)

def symbol? : Target → Char → Option Lexeme
  | _, '(' => some .leftParen
  | _, ')' => some .rightParen
  | .script, '!' => some .not
  | .sql, ',' => some .comma
  | _, _ => none

def pair? : Target → Char → Option Connective
  | .script, '&' => some .and
  | .script, '|' => some .or
  | .script, '?' => some .orElse
  | _, _ => none

def escape? : Char → Option Char
  | '\'' => some '\''
  | '"' => some '"'
  | '\\' => some '\\'
  | 'b' => some '\x08'
  | 'f' => some '\x0c'
  | 'n' => some '\n'
  | 'r' => some '\r'
  | 't' => some '\t'
  | _ => none

def hexValue? (c : Char) : Option Nat := (List.range 16).find? fun n => Nat.digitChar n == c

def start (target : Target) (c : Char) : Option (List Lexeme × Mode) :=
  if c = ' ' then some ([], .between)
  else if isWordChar c then some ([], .word [c])
  else
    match symbol? target c with
    | some l => some ([l], .between)
    | none => (pair? target c).map fun _ => ([], .paired c)

def next (target : Target) : Mode → Char → Option (List Lexeme × Mode)
  | .between, c => start target c
  | .word letters, c =>
    if isWordChar c then some ([], .word (letters ++ [c]))
    else if String.ofList letters = "$$VARIABLES" then
      if c = '[' then some ([], .bracket) else none
    else (word? target letters).bind fun l => (start target c).map fun (ls, mode) => (l :: ls, mode)
  | .paired d, c =>
    if c = d then (pair? target c).map fun op => ([.connective op], .between) else none
  | .bracket, c => if c = '\'' then some ([], .key []) else none
  | .key name, c =>
    if c = '\'' then some ([], .closed name)
    else if target = .script ∧ c = '\\' then some ([], .escaped name)
    else if target = .script ∧ (c = '\n' ∨ c = '\r') then none
    else some ([], .key (name ++ [c]))
  | .escaped name, c =>
    if c = 'u' then some ([], .code name 0 4)
    else (escape? c).map fun d => ([], .key (name ++ [d]))
  | .code name value missing, c =>
    (hexValue? c).bind fun digit =>
      if missing ≠ 1 then some ([], .code name (value * 16 + digit) (missing - 1))
      else if (value * 16 + digit).isValidChar then
        some ([], .key (name ++ [Char.ofNat (value * 16 + digit)]))
      else none
  | .closed name, c =>
    if c = ']' then some ([.field (String.ofList name)], .between)
    else if target = .sql ∧ c = '\'' then some ([], .key (name ++ ['\'']))
    else none

def finish (target : Target) : Mode → Option (List Lexeme)
  | .between => some []
  | .word letters => (word? target letters).map ([·])
  | _ => none

def scan (target : Target) : Mode → List Char → Option (List Lexeme)
  | mode, [] => finish target mode
  | mode, c :: cs =>
    (next target mode c).bind fun (ls, mode) => (scan target mode cs).map (ls ++ ·)

def evaluate (target : Target) (env : String → Option Bool) (text : String) :
    Option (Option Bool) :=
  ((scan target .between text.toList).bind read).map (Term.eval target env)

section
variable {target : Target} {c : Char} {cs rest : List Char}

theorem scan_cons {mode : Mode} (ls : List Lexeme) (mode' : Mode)
    (h : next target mode c = some (ls, mode')) :
    scan target mode (c :: cs) = (scan target mode' cs).map (ls ++ ·) := by
  rw [scan, h, Option.bind_some]

theorem scan_skip {mode : Mode} (mode' : Mode) (h : next target mode c = some ([], mode')) :
    scan target mode (c :: cs) = scan target mode' cs := by
  rw [scan_cons [] mode' h]
  simp

def Delimited (cs : List Char) : Prop := ∀ c ∈ cs.head?, isWordChar c = false

theorem scan_letters {letters w : List Char} (hw : w.all isWordChar = true) :
    scan target (.word letters) (w ++ rest) = scan target (.word (letters ++ w)) rest := by
  induction w generalizing letters with
  | nil => simp
  | cons c w ih =>
    rw [List.all_cons, Bool.and_eq_true] at hw
    obtain ⟨hc, hw⟩ := hw
    rw [List.cons_append, scan_skip (.word (letters ++ [c])) (by simp [next, hc]), ih hw]
    simp

theorem scan_word_end {letters : List Char} {l : Lexeme} (hl : word? target letters = some l)
    (hv : String.ofList letters ≠ "$$VARIABLES") (hr : Delimited rest) :
    scan target (.word letters) rest = (scan target .between rest).map (l :: ·) := by
  cases rest with
  | nil => simp [scan, finish, hl]
  | cons c cs =>
    have hc : isWordChar c = false := hr c rfl
    have hnext : next target (.word letters) c =
        (start target c).map fun (ls, mode) => (l :: ls, mode) := by
      simp [next, hc, hl, hv]
    rw [scan, scan, hnext, next]
    cases start target c with
    | none => rfl
    | some emitted => simp [Function.comp_def]

/-- Whatever delimited text follows, `cs` is scanned into `ls`. -/
def Scans (target : Target) (cs : List Char) (ls : List Lexeme) : Prop :=
  ∀ rest, Delimited rest →
    scan target .between (cs ++ rest) = (scan target .between rest).map (ls ++ ·)

theorem scans_word {w : List Char} {l : Lexeme} (hw : (c :: w).all isWordChar = true)
    (hl : word? target (c :: w) = some l) (hv : String.ofList (c :: w) ≠ "$$VARIABLES")
    (hsp : c ≠ ' ') : Scans target (c :: w) [l] := by
  intro rest hr
  rw [List.all_cons, Bool.and_eq_true] at hw
  obtain ⟨hc, hw⟩ := hw
  rw [List.cons_append, scan_skip (.word [c]) (by simp [next, start, hc, hsp]),
    scan_letters hw]
  exact scan_word_end hl hv hr

theorem Scans.append {ds : List Char} {ls ms : List Lexeme} (h : Scans target cs ls)
    (k : Scans target ds ms) (hd : ∀ rest, Delimited rest → Delimited (ds ++ rest)) :
    Scans target (cs ++ ds) (ls ++ ms) := by
  intro rest hr
  rw [List.append_assoc, h _ (hd rest hr), k rest hr, Option.map_map]
  simp [Function.comp_def]

theorem Scans.cons {ls : List Lexeme} {l : Lexeme}
    (hc : next target .between c = some ([l], .between)) (h : Scans target cs ls) :
    Scans target (c :: cs) (l :: ls) := by
  intro rest hr
  rw [List.cons_append, scan_cons _ _ hc, h rest hr, Option.map_map]
  simp [Function.comp_def]

theorem Scans.blank {ls : List Lexeme} (h : Scans target cs ls) : Scans target (' ' :: cs) ls := by
  intro rest hr
  rw [List.cons_append, scan_skip .between (by simp [next, start]), h rest hr]

theorem scans_nil : Scans target [] [] := by
  intro rest _
  simp

def keyChar : Target → Char → List Char
  | .sql => Sql.quoteChar
  | .script => Text.escapeKeyChar

theorem hexValue?_hexDigits {n : Nat} (h : n < 32) :
    hexValue? (Text.hexDigit (n / 4096)) = some 0 ∧ hexValue? (Text.hexDigit (n / 256)) = some 0 ∧
      hexValue? (Text.hexDigit (n / 16)) = some (n / 16) ∧
      hexValue? (Text.hexDigit n) = some (n % 16) := by
  have hall : ∀ n < 32, hexValue? (Text.hexDigit (n / 4096)) = some 0 ∧
      hexValue? (Text.hexDigit (n / 256)) = some 0 ∧
      hexValue? (Text.hexDigit (n / 16)) = some (n / 16) ∧
      hexValue? (Text.hexDigit n) = some (n % 16) := by decide
  exact hall n h

theorem scan_control {name : List Char} (h : c.toNat < 32) :
    scan .script (.key name) ('\\' :: 'u' :: (Text.hexDigits c.toNat ++ rest)) =
      scan .script (.key (name ++ [c])) rest := by
  obtain ⟨h₁, h₂, h₃, h₄⟩ := hexValue?_hexDigits h
  have hvalue : (((0 * 16 + 0) * 16 + 0) * 16 + c.toNat / 16) * 16 + c.toNat % 16 = c.toNat := by
    omega
  have hvalid : c.toNat.isValidChar := c.valid
  rw [scan_skip (.escaped name) rfl, scan_skip (.code name 0 4) rfl, Text.hexDigits]
  simp only [List.cons_append, List.nil_append]
  rw [scan_skip (.code name (0 * 16 + 0) 3) (by simp [next, h₁]),
    scan_skip (.code name ((0 * 16 + 0) * 16 + 0) 2) (by simp [next, h₂]),
    scan_skip (.code name (((0 * 16 + 0) * 16 + 0) * 16 + c.toNat / 16) 1)
      (by simp [next, h₃]),
    scan_skip (.key (name ++ [c]))]
  rw [next, h₄, Option.bind_some, if_neg (by decide), hvalue, if_pos hvalid, Char.ofNat_toNat]

theorem next_key {name : List Char} (hq : c ≠ '\'')
    (hs : target = .script → c ≠ '\\' ∧ c ≠ '\n' ∧ c ≠ '\r') :
    next target (.key name) c = some ([], .key (name ++ [c])) := by
  have hback : ¬ (target = .script ∧ c = '\\') := fun h => (hs h.1).1 h.2
  have hline : ¬ (target = .script ∧ (c = '\n' ∨ c = '\r')) := fun h =>
    h.2.elim (hs h.1).2.1 (hs h.1).2.2
  rw [next, if_neg hq, if_neg hback, if_neg hline]

theorem scan_keyChar {name : List Char} :
    scan target (.key name) (keyChar target c ++ rest) =
      scan target (.key (name ++ [c])) rest := by
  cases target with
  | sql =>
    rw [keyChar, Sql.quoteChar]
    split
    · rename_i hc
      rw [hc, List.cons_append, List.cons_append, List.nil_append,
        scan_skip (.closed name) rfl, scan_skip (.key (name ++ ['\''])) rfl]
    · rename_i hc
      rw [List.cons_append, List.nil_append]
      exact scan_skip _ (next_key hc fun h => absurd h (by decide))
  | script =>
    have hescape {d : Char} (hd : d ≠ 'u') (hesc : escape? d = some c) :
        scan .script (.key name) ('\\' :: d :: rest) = scan .script (.key (name ++ [c])) rest := by
      have hnext : next .script (.escaped name) d = some ([], .key (name ++ [c])) := by
        rw [next, if_neg hd, hesc, Option.map_some]
      rw [scan_skip (.escaped name) rfl, scan_skip _ hnext]
    rw [keyChar, Text.escapeKeyChar, Text.escapeChar]
    split_ifs with h₁ h₂ h₃ h₄ h₅ h₆ h₇ h₈ h₉
    · exact hescape (by decide) (by rw [h₁]; rfl)
    · exact hescape (by decide) (by rw [h₂]; rfl)
    · exact hescape (by decide) (by rw [h₃]; rfl)
    · exact hescape (by decide) (by rw [h₄]; rfl)
    · exact hescape (by decide) (by rw [h₅]; rfl)
    · exact hescape (by decide) (by rw [h₆]; rfl)
    · exact hescape (by decide) (by rw [h₇]; rfl)
    · exact hescape (by decide) (by rw [h₈]; rfl)
    · exact scan_control h₉
    · exact scan_skip _ (next_key h₁ fun _ => ⟨h₃, h₆, h₇⟩)

theorem scan_key {name s : List Char} :
    scan target (.key name) (s.flatMap (keyChar target) ++ '\'' :: ']' :: rest) =
      (scan target .between rest).map (.field (String.ofList (name ++ s)) :: ·) := by
  induction s generalizing name with
  | nil =>
    rw [List.flatMap_nil, List.nil_append, scan_skip (.closed name) (by simp [next]),
      scan_cons [.field (String.ofList name)] .between (by simp [next])]
    simp
  | cons c s ih =>
    rw [List.flatMap_cons, List.append_assoc, scan_keyChar, ih, List.append_assoc,
      List.singleton_append]

theorem delimited_cons (h : isWordChar c = false) : Delimited (c :: cs) := by
  rintro d ⟨⟩
  exact h

theorem scans_pair {op : Connective} (hw : isWordChar c = false) (hsp : c ≠ ' ')
    (hs : symbol? target c = none) (hp : pair? target c = some op) :
    Scans target [c, c] [.connective op] := by
  intro rest _
  rw [List.cons_append, List.singleton_append,
    scan_skip (.paired c) (by simp [next, start, hw, hsp, hs, hp]),
    scan_cons [.connective op] .between (by simp [next, hp])]

end

def Connective.symbol : Target → Connective → String
  | .sql, .and => "AND"
  | .sql, .or => "OR"
  | .script, .and => "&&"
  | .script, .or => "||"
  | _, .orElse => "??"

def negationSign : Target → String
  | .sql => "NOT "
  | .script => "!"

def quoteKey : Target → String → String
  | .sql => Sql.quote
  | .script => Script.quoteKey

namespace Term

def text (target : Target) : Term → String
  | constant b => boolText b
  | field name => "$$VARIABLES[" ++ quoteKey target name ++ "]"
  | not t => negationSign target ++ t.text target
  | binary op l r => l.text target ++ " " ++ op.symbol target ++ " " ++ r.text target
  | coalesce a b => "COALESCE(" ++ a.text target ++ ", " ++ b.text target ++ ")"
  | group t => "(" ++ t.text target ++ ")"

def Of (target : Target) : Term → Prop
  | constant _ | field _ => True
  | not t => t.Of target
  | binary op l r => (op = .orElse → target = .script) ∧ l.Of target ∧ r.Of target
  | coalesce a b => target = .sql ∧ a.Of target ∧ b.Of target
  | group t => t.Of target

end Term

theorem scans_constant (target : Target) (b : Bool) :
    Scans target (boolText b).toList [.constant b] := by
  cases target <;> cases b <;> exact scans_word (by decide) (by decide) (by decide) (by decide)

theorem scans_symbol {target : Target} {op : Connective} (h : op = .orElse → target = .script) :
    Scans target (op.symbol target).toList [.connective op] := by
  cases target with
  | sql =>
    cases op with
    | and | or => exact scans_word (by decide) (by decide) (by decide) (by decide)
    | orElse => exact absurd (h rfl) (by decide)
  | script => cases op <;> exact scans_pair (by decide) (by decide) rfl rfl

theorem scans_field (target : Target) (name : String) :
    Scans target ((Term.field name).text target).toList [.field name] := by
  intro rest _
  have htext : ((Term.field name).text target).toList ++ rest =
      '$' :: ("$VARIABLES".toList ++ '[' :: '\'' ::
        (name.toList.flatMap (keyChar target) ++ '\'' :: ']' :: rest)) := by
    cases target <;> simp [Term.text, quoteKey, Sql.quote, Script.quoteKey, Text.singleQuoted,
      keyChar]
  rw [htext, scan_skip (.word ['$']) rfl, scan_letters (by decide),
    scan_skip .bracket, scan_skip (.key []) rfl, scan_key]
  · simp
  · simp [next, isWordChar]

theorem scans_text {target : Target} {t : Term} (h : t.Of target) :
    Scans target (t.text target).toList t.flatten := by
  induction t with
  | constant b => exact scans_constant target b
  | field name => exact scans_field target name
  | not t ih =>
    cases target with
    | script =>
      simpa [Term.text, negationSign, Term.flatten] using (ih h).cons (c := '!') (l := .not) rfl
    | sql =>
      have hword : Scans .sql "NOT".toList [.not] :=
        scans_word (by decide) (by decide) (by decide) (by decide)
      have hall := hword.append (ih h).blank fun _ _ => delimited_cons rfl
      simpa [Term.text, negationSign, Term.flatten] using hall
  | binary op l r ihl ihr =>
    have hop := (scans_symbol h.1).append (ihr h.2.2).blank fun _ _ => delimited_cons rfl
    have hall := (ihl h.2.1).append hop.blank fun _ _ => delimited_cons rfl
    simpa [Term.text, Term.flatten] using hall
  | coalesce a b iha ihb =>
    obtain ⟨rfl, ha, hb⟩ := h
    have hword : Scans .sql "COALESCE".toList [.coalesce] :=
      scans_word (by decide) (by decide) (by decide) (by decide)
    have hclose : Scans .sql [')'] [.rightParen] := scans_nil.cons rfl
    have hsecond := (ihb hb).append hclose fun _ _ => delimited_cons rfl
    have hfirst := (iha ha).append (hsecond.blank.cons (c := ',') (l := .comma) rfl)
      fun _ _ => delimited_cons rfl
    have hall := hword.append (hfirst.cons (c := '(') (l := .leftParen) rfl)
      fun _ _ => delimited_cons rfl
    simpa [Term.text, Term.flatten] using hall
  | group t ih =>
    have hclose : Scans target [')'] [.rightParen] := scans_nil.cons rfl
    have hinner := (ih h).append hclose fun _ _ => delimited_cons rfl
    simpa [Term.text, Term.flatten] using hinner.cons (c := '(') (l := .leftParen) rfl

theorem evaluate_text {target : Target} {t : Term} (ho : t.Of target) (hg : t.Graded)
    (hu : t.unmixed = true) (env : String → Option Bool) :
    evaluate target env (t.text target) = some (t.eval target env) := by
  have hscan := scans_text ho [] (fun _ h => nomatch h)
  rw [List.append_nil] at hscan
  rw [evaluate, hscan]
  simp [scan, finish, read_flatten hg hu]

end FieldFormula.Logic
