import FieldFormula.Compilation
import FieldFormula.Proofs.Output.Layout
import Mathlib.Tactic.SplitIfs

/-!
A scan of generated text that tells literals from what stands outside them. It counts semicolons and
keeps the brackets that are open, and it fails at a bracket that closes none, at the start of a
comment and at a line end within quotes. Main statements: what a text does to a scan does not depend
on what was open before (`reach_above`), and pieces that are scanned well are so with any closed
texts in their places (`Closed.filled`).
-/
namespace FieldFormula.Output

inductive Opening where
  | paren | bracket | brace | hole
  deriving DecidableEq, Repr

/-- Where a scan stands. Outside literals it remembers a minus sign and a slash, and in SQL the
quote that ended a literal: a quote right behind it goes on with the literal. -/
inductive Mode where
  | plain
  | minus
  | slash
  | ended
  | quoted (quote : Char)
  | escaped (quote : Char)
  | dollar
  deriving DecidableEq, Repr

inductive Effect where
  | nothing
  | opens (o : Opening)
  | closes (o : Opening)
  | separates
  deriving DecidableEq, Repr

def isQuote (target : Target) (c : Char) : Bool :=
  c == '\'' || target == .script && (c == '"' || c == '\x60')

def outside (target : Target) (c : Char) : Mode × Effect :=
  if isQuote target c then (.quoted c, .nothing)
  else
    match c with
    | '(' => (.plain, .opens .paren)
    | ')' => (.plain, .closes .paren)
    | '[' => (.plain, .opens .bracket)
    | ']' => (.plain, .closes .bracket)
    | '\x7b' => (.plain, if target = .script then .opens .brace else .nothing)
    | '\x7d' => (.plain, if target = .script then .closes .brace else .nothing)
    | ';' => (.plain, .separates)
    | '-' => (.minus, .nothing)
    | '/' => (.slash, .nothing)
    | _ => (.plain, .nothing)

def within (target : Target) (quote c : Char) : Option Mode :=
  if c = quote then some (if target = .sql then .ended else .plain)
  else if target = .sql then some (.quoted quote)
  else if c = '\\' then some (.escaped quote)
  else if quote = '\x60' then some (if c = '$' then .dollar else .quoted quote)
  else if c = '\n' ∨ c = '\r' then none
  else some (.quoted quote)

def move (target : Target) : Mode → Char → Option (Mode × Effect)
  | .plain, c | .ended, c => some (outside target c)
  | .minus, c => if c = '-' then none else some (outside target c)
  | .slash, c => if c = '*' ∨ target = .script ∧ c = '/' then none else some (outside target c)
  | .quoted quote, c => (within target quote c).map fun mode => (mode, .nothing)
  | .escaped quote, c =>
    if quote ≠ '\x60' ∧ (c = '\n' ∨ c = '\r') then none else some (.quoted quote, .nothing)
  | .dollar, c =>
    if c = '\x7b' then some (.plain, .opens .hole)
    else (within target '\x60' c).map fun mode => (mode, .nothing)

structure Scan where
  mode : Mode
  opened : List Opening
  semicolons : Nat
  deriving DecidableEq, Repr

namespace Scan

def start : Scan := ⟨.plain, [], 0⟩

/-- A bracket closes the last one opened. A brace also closes a hole, behind which the template goes
on. -/
def perform (s : Scan) (mode : Mode) : Effect → Option Scan
  | .nothing => some ⟨mode, s.opened, s.semicolons⟩
  | .opens o => some ⟨mode, o :: s.opened, s.semicolons⟩
  | .separates => some ⟨mode, s.opened, s.semicolons + 1⟩
  | .closes o =>
    match s.opened with
    | [] => none
    | last :: opened =>
      if last = o then some ⟨mode, opened, s.semicolons⟩
      else if last = .hole ∧ o = .brace then some ⟨.quoted '\x60', opened, s.semicolons⟩
      else none

def next (target : Target) (s : Scan) (c : Char) : Option Scan :=
  (move target s.mode c).bind fun (mode, effect) => s.perform mode effect

def isOutside (s : Scan) : Bool :=
  match s.mode with
  | .plain | .minus | .slash | .ended => true
  | _ => false

def settle (s : Scan) : Scan := if s.mode = .ended then ⟨.plain, s.opened, s.semicolons⟩ else s

def above (s : Scan) (opened : List Opening) (semicolons : Nat) : Scan :=
  ⟨s.mode, s.opened ++ opened, s.semicolons + semicolons⟩

end Scan

def scan (target : Target) (s : Scan) (text : String) : Option Scan :=
  text.toList.foldlM (Scan.next target) s

/-- Where the scan of a text ends, apart from a literal that has ended. -/
def reach (target : Target) (s : Scan) (text : String) : Option Scan :=
  (scan target s text).map Scan.settle

section
variable {target : Target} {s t : Scan} {c : Char} {x y : String} {opened : List Opening}
  {semicolons : Nat}

theorem scan_append : scan target s (x ++ y) = (scan target s x).bind (scan target · y) := by
  rw [scan, String.toList_append, List.foldlM_append]
  rfl

def commentMarks : Target → List String
  | .sql => ["--", "/*"]
  | .script => ["--", "//", "/*"]

theorem scan_comment {mark : String} (hmark : mark ∈ commentMarks target)
    (hs : s.isOutside = true) : scan target s mark = none := by
  obtain ⟨mode, opened, semicolons⟩ := s
  cases target <;> simp only [commentMarks, List.mem_cons, List.not_mem_nil, or_false] at hmark <;>
    rcases hmark with rfl | rfl | rfl <;> cases mode <;> first | rfl | cases hs

theorem within_of_comment {mark : String} (hmark : mark ∈ commentMarks target)
    (h : scan target s (x ++ mark ++ y) = some t) :
    ∃ u, scan target s x = some u ∧ u.isOutside = false := by
  rw [scan_append, scan_append] at h
  obtain ⟨v, hv, -⟩ := Option.bind_eq_some_iff.1 h
  obtain ⟨u, hu, hmarked⟩ := Option.bind_eq_some_iff.1 hv
  refine ⟨u, hu, ?_⟩
  cases hside : u.isOutside with
  | false => rfl
  | true =>
    rw [scan_comment hmark hside] at hmarked
    cases hmarked

example : scan .sql .start "1 --2" = none := by decide
example : (scan .sql .start "'it''s --2").map Scan.mode = some (.quoted '\'') := by decide

theorem settle_settle : s.settle.settle = s.settle := by
  unfold Scan.settle
  grind

theorem next_settle : s.settle.next target c = s.next target c := by
  unfold Scan.settle
  split
  · rename_i h
    rw [Scan.next, Scan.next, h]
    rfl
  · rfl

theorem reach_settle : reach target s.settle x = reach target s x := by
  unfold reach scan
  cases x.toList with
  | nil => simp [settle_settle]
  | cons c cs => rw [List.foldlM_cons, List.foldlM_cons, next_settle]

theorem reach_append : reach target s (x ++ y) = (reach target s x).bind (reach target · y) := by
  rw [reach, scan_append, reach]
  cases scan target s x with
  | none => rfl
  | some t =>
    rw [Option.map_some, Option.bind_some, Option.bind_some, reach_settle]
    rfl

theorem perform_above {mode : Mode} {effect : Effect} (h : s.perform mode effect = some t) :
    (s.above opened semicolons).perform mode effect = some (t.above opened semicolons) := by
  cases effect with
  | nothing =>
    cases h
    rfl
  | opens o =>
    cases h
    rfl
  | separates =>
    cases h
    simp [Scan.perform, Scan.above, Nat.add_right_comm]
  | closes o =>
    obtain ⟨_, _ | ⟨last, rest⟩, _⟩ := s
    · cases h
    · simp only [Scan.perform, Scan.above, List.cons_append] at h ⊢
      grind

theorem next_above (h : s.next target c = some t) :
    (s.above opened semicolons).next target c = some (t.above opened semicolons) := by
  obtain ⟨⟨mode, effect⟩, hmove, hperform⟩ := Option.bind_eq_some_iff.1 h
  exact Option.bind_eq_some_iff.2 ⟨_, hmove, perform_above hperform⟩

theorem scan_above (h : scan target s x = some t) :
    scan target (s.above opened semicolons) x = some (t.above opened semicolons) := by
  unfold scan at h ⊢
  generalize x.toList = cs at h ⊢
  induction cs generalizing s with
  | nil =>
    cases h
    rfl
  | cons c cs ih =>
    rw [List.foldlM_cons] at h ⊢
    obtain ⟨u, hnext, hrest⟩ := Option.bind_eq_some_iff.1 h
    exact Option.bind_eq_some_iff.2 ⟨_, next_above hnext, ih hrest⟩

theorem settle_above : (s.above opened semicolons).settle = s.settle.above opened semicolons := by
  unfold Scan.settle Scan.above
  grind

theorem reach_above (opened : List Opening) (semicolons : Nat) (h : reach target s x = some t) :
    reach target (s.above opened semicolons) x = some (t.above opened semicolons) := by
  obtain ⟨u, hscan, rfl⟩ := Option.map_eq_some_iff.1 h
  exact Option.map_eq_some_iff.2 ⟨_, scan_above hscan, settle_above⟩

/-- A text that leaves a scan as it was. -/
structure Closed (target : Target) (x : String) : Prop where
  nonempty : x ≠ ""
  reach : reach target .start x = some .start

instance : Decidable (Closed target x) :=
  decidable_of_iff (x ≠ "" ∧ reach target .start x = some .start)
    ⟨fun h => ⟨h.1, h.2⟩, fun h => ⟨h.1, h.2⟩⟩

theorem Closed.reach_eq (h : Closed target x) (hs : s.mode = .plain) :
    Output.reach target s x = some s := by
  obtain ⟨mode, opened, semicolons⟩ := s
  cases hs
  simpa [Scan.start, Scan.above] using reach_above opened semicolons h.reach

/-- The text is scanned to its end, which is outside of literals and brackets, with so many
semicolons. What would start a comment stands within a literal. -/
structure Sealed (target : Target) (text : String) (semicolons : Nat) : Prop where
  scanned : ∃ s, scan target .start text = some s ∧ s.isOutside = true ∧ s.opened = [] ∧
    s.semicolons = semicolons
  comments : ∀ x y, ∀ mark ∈ commentMarks target, text = x ++ mark ++ y →
    ∃ s, scan target .start x = some s ∧ s.isOutside = false

theorem sealed_of_reach {n : Nat} (h : reach target .start x = some ⟨.plain, [], n⟩) :
    Sealed target x n := by
  obtain ⟨⟨mode, rest, count⟩, hscan, ht⟩ := Option.map_eq_some_iff.1 h
  refine ⟨⟨_, hscan, ?_⟩, ?_⟩
  · -- a literal may have ended at the end of the text
    unfold Scan.settle at ht
    split at ht
    · rename_i hmode
      cases ht
      cases hmode
      exact ⟨rfl, rfl, rfl⟩
    · cases ht
      exact ⟨rfl, rfl, rfl⟩
  · rintro y z mark hmark rfl
    exact within_of_comment hmark hscan

/-- Behind a minus sign the scan goes on as behind a blank if no other one follows. -/
theorem Closed.minus (h : Closed target x) (hx : x.toList.head? ≠ some '-') :
    Closed target ("-" ++ x) := by
  refine ⟨by simp, ?_⟩
  have hminus : Output.reach target .start "-" = some ⟨.minus, [], 0⟩ := by cases target <;> rfl
  rw [reach_append, hminus, Option.bind_some, ← h.reach, Output.reach, Output.reach, Output.scan,
    Output.scan]
  cases hlist : x.toList with
  | nil => exact absurd (String.toList_eq_nil_iff.1 hlist) h.nonempty
  | cons c cs =>
    have hc : c ≠ '-' := by
      rintro rfl
      exact hx (by rw [hlist]; rfl)
    have hnext : Scan.next target ⟨.minus, [], 0⟩ c = Scan.next target .start c := by
      rw [Scan.next, move, if_neg hc]
      rfl
    rw [List.foldlM_cons, List.foldlM_cons, hnext]

theorem reach_empty (hs : s.mode = .plain) : reach target s "" = some s := by
  simp [reach, scan, Scan.settle, hs]

theorem reach_intercalate {xs : List String} {separator : String} {k : Nat}
    (hsep : reach target .start separator = some ⟨.plain, [], k⟩)
    (hxs : ∀ x ∈ xs, Closed target x) (hs : s.mode = .plain) :
    reach target s (separator.intercalate xs) =
      some ⟨.plain, s.opened, s.semicolons + k * (xs.length - 1)⟩ := by
  induction xs generalizing s with
  | nil =>
    rw [String.intercalate_nil, reach_empty hs]
    simp [← hs]
  | cons x xs ih =>
    obtain ⟨hx, hothers⟩ := List.forall_mem_cons.1 hxs
    cases xs with
    | nil =>
      rw [String.intercalate_singleton, hx.reach_eq hs]
      simp [← hs]
    | cons y ys =>
      have hnext : reach target s separator = some ⟨.plain, s.opened, s.semicolons + k⟩ := by
        have habove := reach_above s.opened s.semicolons hsep
        obtain ⟨mode, opened, semicolons⟩ := s
        cases hs
        simpa [Scan.start, Scan.above, Nat.add_comm] using habove
      rw [String.intercalate_cons_cons, reach_append, reach_append, hx.reach_eq hs,
        Option.bind_some, hnext, Option.bind_some, ih hothers rfl]
      simp [Nat.mul_add, Nat.add_assoc, Nat.add_comm k]

def reachPieces (target : Target) (s : Scan) : List Piece → Option Scan
  | [] => some s.settle
  | .text x :: pieces => (reach target s x).bind (reachPieces target · pieces)
  | .arg _ :: pieces => if s.mode = .plain then reachPieces target s pieces else none
  | .args _ separator :: pieces =>
    if s.mode = .plain ∧ reach target .start separator = some .start then
      reachPieces target s pieces
    else none

theorem reach_filled {pieces : List Piece} {args : List String}
    (hargs : ∀ x ∈ args, Closed target x) (h : reachPieces target s pieces = some t) :
    reach target s (Piece.filled pieces args) = some t := by
  induction pieces generalizing s with
  | nil => exact h
  | cons piece pieces ih =>
    have hcons : Piece.filled (piece :: pieces) args =
        piece.fill args ++ Piece.filled pieces args := by
      simp [Piece.filled]
    rw [hcons, reach_append]
    cases piece with
    | text x =>
      obtain ⟨u, hu, hrest⟩ := Option.bind_eq_some_iff.1 h
      exact Option.bind_eq_some_iff.2 ⟨u, hu, ih hrest⟩
    | arg index =>
      rw [reachPieces] at h
      split at h
      · rename_i hs
        have harg : reach target s ((Piece.arg index).fill args) = some s := by
          rw [Piece.fill, List.getD_eq_getElem?_getD]
          cases hx : args[index]? with
          | none => exact reach_empty hs
          | some x => exact (hargs x (List.mem_of_getElem? hx)).reach_eq hs
        rw [harg, Option.bind_some, ih h]
      · cases h
    | args first separator =>
      rw [reachPieces] at h
      split at h
      · rename_i hs
        have hdrop : ∀ x ∈ args.drop first, Closed target x :=
          fun x hx => hargs x (List.mem_of_mem_drop hx)
        have hall := reach_intercalate hs.2 hdrop hs.1
        rw [Nat.zero_mul, Nat.add_zero, ← hs.1] at hall
        rw [Piece.fill, hall, Option.bind_some, ih h]
      · cases h

def hasText : Piece → Bool
  | .text x => x != ""
  | _ => false

def scansWell (target : Target) (pieces : List Piece) : Bool :=
  pieces.any hasText && reachPieces target .start pieces == some .start

theorem filled_ne_empty {pieces : List Piece} (h : pieces.any hasText = true)
    (args : List String) : Piece.filled pieces args ≠ "" := by
  obtain ⟨piece, hmem, htext⟩ := List.any_eq_true.1 h
  cases piece with
  | text x =>
    intro hempty
    have hall := congrArg String.toList hempty
    rw [Piece.filled, String.toList_join, String.toList_empty, List.flatMap_eq_nil_iff] at hall
    have hx := hall x (List.mem_map_of_mem (f := Piece.fill args) hmem)
    simp_all [hasText]
  | _ => cases htext

theorem Closed.filled {pieces : List Piece} {args : List String}
    (h : scansWell target pieces = true) (hargs : ∀ x ∈ args, Closed target x) :
    Closed target (Piece.filled pieces args) := by
  rw [scansWell, Bool.and_eq_true, beq_iff_eq] at h
  exact ⟨filled_ne_empty h.1 args, reach_filled hargs h.2⟩

section Literal
variable {quote : Char} {encode : Char → List Char}

theorem foldlM_flatMap
    (h : ∀ c, (encode c).foldlM (Scan.next target) s = some s) (cs : List Char) :
    (cs.flatMap encode).foldlM (Scan.next target) s = some s := by
  induction cs with
  | nil => rfl
  | cons c cs ih =>
    rw [List.flatMap_cons, List.foldlM_append, h c]
    exact ih

/-- Text between quotes is closed if every character is written so that the literal goes on. -/
theorem closed_literal (hq : isQuote target quote = true)
    (h : ∀ c, (encode c).foldlM (Scan.next target) ⟨.quoted quote, [], 0⟩ =
      some ⟨.quoted quote, [], 0⟩) (cs : List Char) :
    Closed target (String.ofList (quote :: cs.flatMap encode ++ [quote])) := by
  have hopen : Scan.next target .start quote = some ⟨.quoted quote, [], 0⟩ := by
    simp [Scan.next, Scan.start, move, outside, hq, Scan.perform]
  have hshut : ∃ t, Scan.next target ⟨.quoted quote, [], 0⟩ quote = some t ∧
      t.settle = .start := by
    cases target <;> simp [Scan.next, Scan.start, move, within, Scan.perform, Scan.settle]
  obtain ⟨t, ht, hsettle⟩ := hshut
  refine ⟨by simp, Option.map_eq_some_iff.2 ⟨t, ?_, hsettle⟩⟩
  rw [scan, String.toList_ofList, List.cons_append, List.foldlM_cons, hopen]
  change List.foldlM _ _ _ = _
  rw [List.foldlM_append, foldlM_flatMap h cs]
  change List.foldlM _ _ _ = _
  rw [List.foldlM_cons, ht]
  rfl

end Literal

end

theorem closed_sqlQuote (s : String) : Closed .sql (Sql.quote s) := by
  refine closed_literal rfl (fun c => ?_) s.toList
  rw [Sql.quoteChar]
  split
  · rfl
  · rename_i hc
    simp [Scan.next, move, within, hc, Scan.perform]

section Escape
variable {quote c : Char} {cs : List Char}

theorem next_quoted (hq : c ≠ quote) (hp : quote ≠ '\x60')
    (hc : c ≠ '\\' ∧ c ≠ '\n' ∧ c ≠ '\r') :
    Scan.next .script ⟨.quoted quote, [], 0⟩ c = some ⟨.quoted quote, [], 0⟩ := by
  simp [Scan.next, move, within, hq, hp, hc, Scan.perform]

theorem next_escape (hq : quote ≠ '\\') :
    Scan.next .script ⟨.quoted quote, [], 0⟩ '\\' = some ⟨.escaped quote, [], 0⟩ := by
  simp [Scan.next, move, within, hq.symm, Scan.perform]

theorem foldlM_escape (hq : quote ≠ '\\') (hc : c ≠ '\n' ∧ c ≠ '\r') :
    ('\\' :: c :: cs).foldlM (Scan.next .script) ⟨.quoted quote, [], 0⟩ =
      cs.foldlM (Scan.next .script) ⟨.quoted quote, [], 0⟩ := by
  have hnext : Scan.next .script ⟨.escaped quote, [], 0⟩ c = some ⟨.quoted quote, [], 0⟩ := by
    simp [Scan.next, move, hc, Scan.perform]
  rw [List.foldlM_cons, next_escape hq]
  change List.foldlM _ _ _ = _
  rw [List.foldlM_cons, hnext]
  rfl

theorem foldlM_hexDigits (hq : quote = '"' ∨ quote = '\'') (n : Nat) :
    (Text.hexDigits n).foldlM (Scan.next .script) ⟨.quoted quote, [], 0⟩ =
      some ⟨.quoted quote, [], 0⟩ := by
  have hdigit (n : Nat) : Scan.next .script ⟨.quoted quote, [], 0⟩ (Text.hexDigit n) =
      some ⟨.quoted quote, [], 0⟩ := by
    have hall : ∀ k < 16, Nat.digitChar k ≠ '"' ∧ Nat.digitChar k ≠ '\'' ∧
        Nat.digitChar k ≠ '\\' ∧ Nat.digitChar k ≠ '\n' ∧ Nat.digitChar k ≠ '\r' := by decide
    obtain ⟨hdouble, hsingle, hrest⟩ := hall (n % 16) (Nat.mod_lt n (by decide))
    rcases hq with rfl | rfl
    · exact next_quoted hdouble (by decide) hrest
    · exact next_quoted hsingle (by decide) hrest
  simp [Text.hexDigits, hdigit]

theorem foldlM_escapeChar (hq : quote = '"' ∨ quote = '\'') (hc : c = quote → c = '"') :
    (Text.escapeChar c).foldlM (Scan.next .script) ⟨.quoted quote, [], 0⟩ =
      some ⟨.quoted quote, [], 0⟩ := by
  have hback : quote ≠ '\\' ∧ quote ≠ '\x60' := by rcases hq with rfl | rfl <;> decide
  unfold Text.escapeChar
  split_ifs with h₁ h₂ h₃ h₄ h₅ h₆ h₇ h₈
  · exact foldlM_escape hback.1 (by decide)
  · exact foldlM_escape hback.1 (by decide)
  · exact foldlM_escape hback.1 (by decide)
  · exact foldlM_escape hback.1 (by decide)
  · exact foldlM_escape hback.1 (by decide)
  · exact foldlM_escape hback.1 (by decide)
  · exact foldlM_escape hback.1 (by decide)
  · rw [foldlM_escape hback.1 (by decide), foldlM_hexDigits hq]
  · rw [List.foldlM_cons, next_quoted (fun h => h₁ (hc h)) hback.2 ⟨h₂, h₅, h₆⟩]
    rfl

end Escape

theorem closed_scriptQuote (s : String) : Closed .script (Script.quote s) :=
  closed_literal rfl (fun _ => foldlM_escapeChar (.inl rfl) id) s.toList

theorem closed_quoteKey (s : String) : Closed .script (Script.quoteKey s) := by
  refine closed_literal rfl (fun c => ?_) s.toList
  rw [Text.escapeKeyChar]
  split
  · exact foldlM_escape (by decide) (by decide)
  · rename_i hc
    exact foldlM_escapeChar (.inr rfl) fun h => absurd h hc

end FieldFormula.Output
