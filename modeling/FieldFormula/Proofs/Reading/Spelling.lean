import FieldFormula.Proofs.Reading.Scanning

/-!
Trees as texts of a target. Main statement: the text of a tree is scanned into the lexemes of the
tree (`scans_spelling`), so that a tree whose operands bind tightly enough is read back from its
text (`read_spelling`).
-/
namespace FieldFormula.Reading
open Logic (isWordChar)

def Link.spelling (target : Target) : Link → String
  | comma => ", "
  | op => " " ++ (op.symbol target ++ " ")

def Sign.spelling : Target → Sign → String
  | _, minus => "-"
  | .sql, not => "NOT "
  | .script, not => "!"

def Suffix.spelling : Suffix → String
  | cast type => "::" ++ type
  | isNull false => " IS NULL"
  | isNull true => " IS NOT NULL"
  | member name => "." ++ name
  | invoke => "()"

def isName (target : Target) (w : String) : Bool :=
  isWord w && ((lexicon target).lookup w).isNone

namespace Tree

def spelling (target : Target) : Tree → String
  | text quote s => quoted target quote s
  | number d => d.toText
  | constant b => boolText b
  | null => nullWord target
  | name w => w
  | sign op t => op.spelling target ++ t.spelling target
  | link op l r => l.spelling target ++ (op.spelling target ++ r.spelling target)
  | suffix op t => t.spelling target ++ op.spelling
  | group t => "(" ++ (t.spelling target ++ ")")
  | apply f args => f.spelling target ++ ("(" ++ (args.spelling target ++ ")"))
  | index t key => t.spelling target ++ ("[" ++ (key.spelling target ++ "]"))
  | object key t => "\x7b" ++ (" " ++ (key ++ (": " ++ t.spelling target)) ++ "\x7d")
  | template a b =>
    "\x60$\x7b" ++ (a.spelling target ++ ("\x7d$\x7b" ++ (b.spelling target ++ "\x7d\x60")))
  | branch c y n =>
    "CASE " ++ ("WHEN " ++ (c.spelling target ++ (" THEN " ++ (y.spelling target ++ (" ELSE " ++
      (n.spelling target ++ " END"))))))
  | choose c y n =>
    c.spelling target ++ (" ? " ++ (y.spelling target ++ (" : " ++ n.spelling target)))

def isDotted : Tree → Bool
  | name _ | apply _ _ => true
  | _ => false

def Of (target : Target) : Tree → Prop
  | text quote _ => target = .sql → quote = .single
  | number d => d.negative = false
  | constant _ | null => True
  | name w => isName target w = true
  | sign op t => t.Of target ∧ (op = .minus → (t.spelling target).toList.head? ≠ some '-')
  | link op l r => op ∈ links target ∧ l.Of target ∧ r.Of target
  | suffix (.cast type) t => target = .sql ∧ isName target type = true ∧ t.Of target
  | suffix (.isNull _) t => target = .sql ∧ t.Of target
  | suffix (.member word) t =>
    target = .script ∧ isName target word = true ∧ t.isDotted = true ∧ t.Of target
  | suffix .invoke t => t.Of target
  | group t => t.Of target
  | apply a b | index a b => a.Of target ∧ b.Of target
  | object key t => target = .script ∧ isName target key = true ∧ t.Of target
  | template a b => target = .script ∧ a.Of target ∧ b.Of target
  | branch c y n => target = .sql ∧ c.Of target ∧ y.Of target ∧ n.Of target
  | choose c y n => target = .script ∧ c.Of target ∧ y.Of target ∧ n.Of target

end Tree

def edges (dot : Bool) : List Char :=
  (if dot then ['.'] else []) ++ [' ', ',', ')', ']', '\x7d', '(', '[', ':']

def opens (c : Char) : Bool :=
  isWordChar c || ['\'', '"', '(', '-', '!', '\x60', '\x7b'].contains c

section
variable {target : Target} {p q : Char → Bool} {s t w : String} {ls ms : List Lexeme}

theorem Scans.edge (h : Scans target p s ls) (dot : Bool) (hp : (edges dot).all p = true) :
    Scans target (edges dot).contains s ls :=
  h.imp fun _ hc => List.all_eq_true.1 hp _ (List.contains_iff_mem.1 hc)

theorem Scans.plain {dot : Bool} (h : Scans target (edges dot).contains s ls) :
    Scans target (edges false).contains s ls := by
  refine h.imp fun c hc => ?_
  rw [List.contains_iff_mem] at hc ⊢
  exact List.mem_append_right _ hc

theorem starts_isWord (h : isWord w = true) : starts isWordChar w = true := by
  obtain ⟨c, cs, hlist, -, hword, -⟩ := exists_cons_of_isWord h
  exact starts_iff.2 ⟨c, by rw [hlist, List.head?_cons], hword⟩

theorem isWord_of_isName (h : isName target w = true) : isWord w = true :=
  (Bool.and_eq_true_iff.1 h).1

theorem scans_keyword {l : Lexeme} (hw : isWord w = true) (hl : wordLexeme target w = l) :
    Scans target (fun c => !isWordChar c) w [l] :=
  hl ▸ scans_word hw

theorem scans_name (h : isName target w = true) :
    Scans target (fun c => !isWordChar c) w [.name w] := by
  rw [isName, Bool.and_eq_true, Option.isNone_iff_eq_none] at h
  exact scans_keyword h.1 (by rw [wordLexeme, h.2, Option.getD_none])

theorem starts_link (op : Link) : starts (edges false).contains (op.spelling target) = true := by
  cases op with
  | comma => cases target <;> rfl
  | _ => exact starts_append rfl

theorem scans_comma : Scans target p ", " [.link .comma] := by
  have hcomma : Scans target (fun _ => true) "," [.link .comma] := by
    cases target <;> exact scans_symbol rfl rfl rfl
  exact hcomma.then scans_blank

theorem scans_link {op : Link} (h : op ∈ links target) :
    Scans target p (op.spelling target) [.link op] := by
  -- a table of all operators: each is a word, or a symbol that no blank continues
  have htable : (links target).all (fun op =>
      (lexicon target).lookup (op.symbol target) == some (.link op) &&
      (isWord (op.symbol target) ||
        starts (isSymbolStart target) (op.symbol target) &&
          (following target (op.symbol target).toList).all (!· == ' '))) = true := by
    cases target <;> decide
  have hop := List.all_eq_true.1 htable op h
  rw [Bool.and_eq_true, Bool.or_eq_true, Bool.and_eq_true, beq_iff_eq] at hop
  obtain ⟨hlookup, hkind⟩ := hop
  have hspaced : Scans target p (" " ++ (op.symbol target ++ " ")) [.link op] := by
    rcases hkind with hword | ⟨hstart, hfollowing⟩
    · refine (scans_keyword hword ?_).spaced rfl
      rw [wordLexeme, hlookup, Option.getD_some]
    · exact (scans_symbol (p := (· == ' ')) hlookup hstart hfollowing).spaced rfl
  cases op with
  | comma => exact scans_comma
  | _ => exact hspaced

theorem scans_parens (h : Scans target p s ls) (hp : p ')' = true) :
    Scans target q ("(" ++ (s ++ ")")) (.leftParen :: (ls ++ [.rightParen])) := by
  have hleft : Scans target (fun _ => true) "(" [.leftParen] := by
    cases target <;> exact scans_symbol rfl rfl rfl
  have hright : Scans target (fun _ => true) ")" [.rightParen] := by
    cases target <;> exact scans_symbol rfl rfl rfl
  exact (hleft.then (h.append hright hp)).imp fun _ _ => rfl

theorem scans_brackets (h : Scans target p s ls) (hp : p ']' = true) :
    Scans target q ("[" ++ (s ++ "]")) (.leftBracket :: (ls ++ [.rightBracket])) := by
  have hleft : Scans target (fun _ => true) "[" [.leftBracket] := by
    cases target <;> exact scans_symbol rfl rfl rfl
  have hright : Scans target (fun _ => true) "]" [.rightBracket] := by
    cases target <;> exact scans_symbol rfl rfl rfl
  exact (hleft.then (h.append hright hp)).imp fun _ _ => rfl

theorem scans_braces (h : Scans .script p s ls) (hp : p '\x7d' = true) :
    Scans .script q ("\x7b" ++ (s ++ "\x7d")) (.leftBrace :: (ls ++ [.rightBrace])) := by
  intro rest braces _
  have hopen : next .script braces .between '\x7b' =
      some ([.leftBrace], .between, false :: braces) := rfl
  have hclose : next .script (false :: braces) .between '\x7d' =
      some ([.rightBrace], .between, braces) := rfl
  have htext : ("\x7b" ++ (s ++ "\x7d")).toList ++ rest =
      '\x7b' :: (s.toList ++ '\x7d' :: rest) := by
    simp
  rw [htext, scan_cons hopen, h.before hp, scan_cons hclose]
  simp [Function.comp_def]

theorem scan_hole {l : Lexeme} {rest : List Char} {braces : List Bool}
    (h : Scans .script p s ls) (hp : p '\x7d' = true) :
    scan .script (.dollar l) braces ('\x7b' :: (s.toList ++ '\x7d' :: rest)) =
      (scan .script .behindHole braces rest).map (l :: ls ++ ·) := by
  have hopen : next .script braces (.dollar l) '\x7b' =
      some ([l], .between, true :: braces) := rfl
  have hclose : next .script (true :: braces) .between '\x7d' =
      some ([], .behindHole, braces) := rfl
  rw [scan_cons hopen, h.before hp, scan_skip hclose, Option.map_map]
  rfl

theorem scans_template (h : Scans .script p s ls) (hp : p '\x7d' = true)
    (k : Scans .script q t ms) (hq : q '\x7d' = true) :
    Scans .script (fun _ => true)
      ("\x60$\x7b" ++ (s ++ ("\x7d$\x7b" ++ (t ++ "\x7d\x60"))))
      (.templateStart :: (ls ++ .templateNext :: (ms ++ [.templateEnd]))) := by
  intro rest braces _
  have htick : next .script braces .between '\x60' = some ([], .tick, braces) := rfl
  have hfirst : next .script braces .tick '$' = some ([], .dollar .templateStart, braces) := rfl
  have hsecond : next .script braces .behindHole '$' =
      some ([], .dollar .templateNext, braces) := rfl
  have hend : next .script braces .behindHole '\x60' =
      some ([.templateEnd], .between, braces) := rfl
  have htext : ("\x60$\x7b" ++ (s ++ ("\x7d$\x7b" ++ (t ++ "\x7d\x60")))).toList ++ rest =
      '\x60' :: '$' :: '\x7b' :: (s.toList ++ '\x7d' :: '$' :: '\x7b' ::
        (t.toList ++ '\x7d' :: '\x60' :: rest)) := by
    simp
  rw [htext, scan_skip htick, scan_skip hfirst, scan_hole h hp, scan_skip hsecond, scan_hole k hq,
    scan_cons hend, Option.map_map, Option.map_map]
  simp [Function.comp_def]

/-- Before a minus sign, another one would be read with it. -/
theorem scans_sign (target : Target) (op : Sign) :
    Scans target (fun c => opens c && (op == .not || c != '-')) (op.spelling target)
      [op.lexeme] := by
  cases op with
  | minus => cases target <;> exact scans_symbol rfl rfl rfl
  | not =>
    cases target with
    | sql => exact (scans_keyword (w := "NOT") rfl rfl).append scans_blank rfl
    | script => exact scans_symbol rfl rfl rfl

theorem scans_cast (h : isName .sql w = true) :
    Scans .sql (fun c => !isWordChar c) (Suffix.cast w).spelling (Suffix.cast w).lexemes := by
  have hcast : Scans .sql isWordChar "::" [.cast] := scans_symbol rfl rfl rfl
  exact hcast.append (scans_name h) (starts_isWord (isWord_of_isName h))

theorem scans_member (h : isName .script w = true) :
    Scans .script (fun c => !isWordChar c) (Suffix.member w).spelling
      (Suffix.member w).lexemes := by
  have hdot : Scans .script isWordChar "." [.dot] := scans_symbol rfl rfl rfl
  exact hdot.append (scans_name h) (starts_isWord (isWord_of_isName h))

theorem scans_invoke : Scans target q Suffix.invoke.spelling Suffix.invoke.lexemes := by
  have hnothing : Scans target (fun _ => true) "" [] := by
    intro rest braces _
    simp
  exact scans_parens hnothing rfl

theorem scans_isNull (negated : Bool) :
    Scans .sql (fun c => !isWordChar c) (Suffix.isNull negated).spelling
      (Suffix.isNull negated).lexemes := by
  have his : Scans .sql (fun _ => true) " IS " [.is] :=
    (scans_keyword (w := "IS") rfl rfl).spaced rfl
  have hnull : Scans .sql (fun c => !isWordChar c) "NULL" [.null] := scans_keyword rfl rfl
  cases negated with
  | false => exact his.then hnull
  | true =>
    have hnot : Scans .sql (fun _ => true) "NOT " [.bang] :=
      (scans_keyword (w := "NOT") rfl rfl).append scans_blank rfl
    exact his.then (hnot.then hnull)

end

namespace Tree
variable {target : Target}

theorem opens_number {d : Decimal} (h : d.negative = false) : starts opens d.toText = true := by
  obtain ⟨whole, fraction, hchars, hne, hwhole, -⟩ := Decimal.toChars_eq h
  obtain ⟨c, cs, rfl⟩ := List.exists_cons_of_ne_nil hne
  rw [List.all_cons, Bool.and_eq_true] at hwhole
  have hc : opens c = true := by simp [opens, isWordChar, Char.isAlphanum, hwhole.1]
  rw [starts, Decimal.toText, String.toList_ofList, hchars]
  split
  · rw [List.head?_cons, Option.any_some, hc]
  · rw [List.cons_append, List.head?_cons, Option.any_some, hc]

theorem opens_spelling {t : Tree} (h : t.Of target) : starts opens (t.spelling target) = true := by
  induction t with
  | text quote s =>
    have hquote : opens quote.char = true := by cases quote <;> decide
    rw [spelling, starts, quoted, String.toList_ofList, List.head?_cons, Option.any_some, hquote]
  | number d => exact opens_number h
  | constant b =>
    rw [spelling]
    cases b <;> rfl
  | null => cases target <;> rfl
  | name w =>
    obtain ⟨c, hc, hword⟩ := starts_iff.1 (starts_isWord (isWord_of_isName h))
    exact starts_iff.2 ⟨c, hc, Bool.or_eq_true_iff.2 (.inl hword)⟩
  | sign op t ih => cases target <;> cases op <;> exact starts_append rfl
  | link op l r ihl ihr => exact starts_append (ihl h.2.1)
  | suffix op t ih =>
    apply starts_append
    cases op with
    | cast type => exact ih h.2.2
    | isNull negated => exact ih h.2
    | member w => exact ih h.2.2.2
    | invoke => exact ih h
  | group t ih => exact starts_append rfl
  | apply f args ihf iha => exact starts_append (ihf h.1)
  | index t key iht ihk => exact starts_append (iht h.1)
  | object key t ih => exact starts_append rfl
  | template a b iha ihb => exact starts_append rfl
  | branch c y n ihc ihy ihn => exact starts_append rfl
  | choose c y n ihc ihy ihn => exact starts_append (ihc h.2.1)

theorem scans_spelling {t : Tree} (h : t.Of target) :
    Scans target (edges t.isDotted).contains (t.spelling target) t.lexemes := by
  induction t with
  | text quote s => exact (scans_quoted s h).edge false rfl
  | number d => exact (scans_number h).edge false rfl
  | constant b =>
    cases target <;> cases b <;> exact (scans_keyword rfl rfl).edge false rfl
  | null => cases target <;> exact (scans_keyword rfl rfl).edge false rfl
  | name w => exact (scans_name h).edge true rfl
  | sign op t ih =>
    obtain ⟨ht, hminus⟩ := h
    refine (scans_sign target op).append (ih ht).plain ?_
    obtain ⟨c, hc, hopens⟩ := starts_iff.1 (opens_spelling ht)
    refine starts_iff.2 ⟨c, hc, Bool.and_eq_true_iff.2 ⟨hopens, ?_⟩⟩
    cases op with
    | not => rfl
    | minus =>
      refine bne_iff_ne.2 fun hfirst => hminus rfl ?_
      rw [hc, hfirst]
  | link op l r ihl ihr =>
    obtain ⟨hop, hl, hr⟩ := h
    have hright := (scans_link (p := fun _ => true) hop).then (ihr hr).plain
    exact (ihl hl).plain.append hright (starts_append (starts_link op))
  | suffix op t ih =>
    cases op with
    | cast type =>
      obtain ⟨rfl, htype, ht⟩ := h
      exact (ih ht).plain.append ((scans_cast htype).edge false rfl) (starts_append rfl)
    | isNull negated =>
      obtain ⟨rfl, ht⟩ := h
      refine (ih ht).plain.append ((scans_isNull negated).edge false rfl) ?_
      cases negated <;> rfl
    | member word =>
      obtain ⟨rfl, hword, hdotted, ht⟩ := h
      have hoperand := ih ht
      rw [hdotted] at hoperand
      exact hoperand.append ((scans_member hword).edge false rfl) (starts_append rfl)
    | invoke => exact (ih h).plain.append scans_invoke rfl
  | group t ih => exact scans_parens (ih h).plain rfl
  | apply f args ihf iha =>
    obtain ⟨hf, ha⟩ := h
    exact (ihf hf).plain.append (scans_parens (iha ha).plain rfl) (starts_append rfl)
  | index t key iht ihk =>
    obtain ⟨ht, hk⟩ := h
    exact (iht ht).plain.append (scans_brackets (ihk hk).plain rfl) (starts_append rfl)
  | object key t ih =>
    obtain ⟨rfl, hkey, ht⟩ := h
    have hcolon : Scans .script (fun _ => true) ": " [.colon] :=
      (scans_symbol (s := ":") (p := fun _ => true) rfl rfl rfl).then scans_blank
    have hpair := (scans_name hkey).append (hcolon.then (ih ht).plain) (starts_append rfl)
    exact scans_braces ((scans_blank (p := fun _ => true)).then hpair) rfl
  | template a b iha ihb =>
    obtain ⟨rfl, ha, hb⟩ := h
    exact (scans_template (iha ha).plain rfl (ihb hb).plain rfl).edge false rfl
  | branch c y n ihc ihy ihn =>
    obtain ⟨rfl, hc, hy, hn⟩ := h
    have hcase : Scans .sql (fun _ => true) "CASE " [.caseMark] :=
      (scans_keyword (w := "CASE") rfl rfl).append scans_blank rfl
    have hwhen : Scans .sql (fun _ => true) "WHEN " [.whenMark] :=
      (scans_keyword (w := "WHEN") rfl rfl).append scans_blank rfl
    have hthen : Scans .sql (fun _ => true) " THEN " [.thenMark] :=
      (scans_keyword (w := "THEN") rfl rfl).spaced rfl
    have helse : Scans .sql (fun _ => true) " ELSE " [.elseMark] :=
      (scans_keyword (w := "ELSE") rfl rfl).spaced rfl
    have hend : Scans .sql (fun c => !isWordChar c) " END" [.endMark] :=
      (scans_blank (p := fun _ => true)).then (scans_keyword (w := "END") rfl rfl)
    have hno := helse.then ((ihn hn).plain.append (hend.edge false rfl) rfl)
    have hyes := hthen.then ((ihy hy).plain.append hno (starts_append rfl))
    exact hcase.then (hwhen.then ((ihc hc).plain.append hyes (starts_append rfl)))
  | choose c y n ihc ihy ihn =>
    obtain ⟨rfl, hc, hy, hn⟩ := h
    have hquestion : Scans .script (fun _ => true) " ? " [.question] :=
      (scans_symbol (s := "?") (p := (· == ' ')) rfl rfl rfl).spaced rfl
    have hcolon : Scans .script (fun _ => true) " : " [.colon] :=
      (scans_symbol (s := ":") (p := (· == ' ')) rfl rfl rfl).spaced rfl
    have hno := hcolon.then (ihn hn).plain
    have hyes := hquestion.then ((ihy hy).plain.append hno (starts_append rfl))
    exact (ihc hc).plain.append hyes (starts_append rfl)

/-- A tree whose operands bind tightly enough is what the target reads in its text. -/
theorem read_spelling {t : Tree} (ho : t.Of target) (hg : t.Graded target)
    (hu : t.unmixed = true) : read target (t.spelling target) = some t := by
  have hscan := scans_spelling ho [] [] (fun _ hc => nomatch hc)
  rw [List.append_nil] at hscan
  have hend : scan target .between [] [] = some [] := rfl
  rw [read, hscan, hend, Option.map_some, List.append_nil, Option.bind_some, run_lexemes hg hu]

example : read .sql "NOT true = false" =
    some (.sign .not (.link (.binary .equal) (.constant true) (.constant false))) := by
  decide +kernel

example : read .script "null ?? true && false" = none := by decide +kernel

end Tree

end FieldFormula.Reading
