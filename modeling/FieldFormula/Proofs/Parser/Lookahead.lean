import FieldFormula.Proofs.Parser.Replay

/-!
How far a failing parser looks ahead. What comes before a failure is repeated by every parser that
reads the same tokens (`Enters.replay`). Main statement: a failure depends only on the tokens up to
the one that the parser is left on (`Halts.replay`).
-/
namespace FieldFormula.Parser

/-- A task that was taken up at `q` can be taken up before `ts`, where the same token or an operand
comes first. -/
def Resumes (q : Parser) (ts : List Token) : Prop :=
  ∃ t us, ts = t :: us ∧ (t.kind = q.current.kind ∨ t.kind = .literal .null)

def StandsOn (q : Parser) (ts : List Token) : Prop := ∃ us, ts = q.current :: us

section Rests
variable {p q r : Parser} {t : Token} {ts : List Token}

theorem Resumes.ne_nil (h : Resumes q ts) : ts ≠ [] := by
  obtain ⟨t, us, rfl, -⟩ := h
  exact List.cons_ne_nil t us

theorem Resumes.current (h : Resumes q (t :: ts)) :
    t.kind = q.current.kind ∨ t.kind = .literal .null := by
  obtain ⟨_, _, heq, ht⟩ := h
  obtain ⟨rfl, rfl⟩ := List.cons.inj heq
  exact ht

theorem Resumes.endsAt (h : Resumes q ts) (e : Expr) : (Phrase.unary e).EndsAt q ts := by
  obtain ⟨t, us, rfl, ht⟩ := h
  refine ⟨t, us, rfl, ht.imp_right fun ht op => ?_⟩
  rw [ht]
  simp

theorem StandsOn.ne_nil (h : StandsOn q ts) : ts ≠ [] := by
  obtain ⟨us, rfl⟩ := h
  exact List.cons_ne_nil _ us

theorem StandsOn.endsAt (h : StandsOn q ts) (s : Phrase) : s.EndsAt q ts := by
  obtain ⟨us, rfl⟩ := h
  exact endsAt_self s q us

theorem StandsOn.resumes {used : List Token} (h : StandsOn r ts)
    (hq : q.remaining = used ++ r.remaining) : Resumes q (used ++ ts) := by
  obtain ⟨us, rfl⟩ := h
  cases used with
  | nil =>
    have hcurrent : q.current = r.current := List.head_eq_of_cons_eq hq
    exact ⟨r.current, us, rfl, .inl (by rw [hcurrent])⟩
  | cons u used =>
    have hcurrent : q.current = u := List.head_eq_of_cons_eq hq
    exact ⟨u, used ++ r.current :: us, rfl, .inl (by rw [hcurrent])⟩

theorem Mirrors.standsOn {bound : Nat} {p' : Parser} (h : Mirrors bound ts p p')
    (hts : StandsOn p ts) : p'.current = p.current := by
  obtain ⟨us, rfl⟩ := hts
  exact h.current

end Rests

section Repeats
variable {p q r : Parser} {us : List Token} {C : List Token → Prop} {R : Parser → Parser → Prop}

theorem repeats_stay (hR : ∀ p', C p'.remaining → R p' p') : Repeats [] C R p p := by
  refine ⟨rfl, fun {bound rest p'} hp' hrest => ⟨p', hR p' ?_, hp'⟩⟩
  rw [hp'.tokens]
  exact hrest

theorem repeats_open (hp : p.Closed) (hk : p.current.kind ≠ .eof) (hd : p.depth < p.limit) :
    Repeats [p.current] (· ≠ []) (fun p' q' =>
      p'.current = p.current ∧ p'.depth < p'.limit ∧ q' = p'.step.deeper) p p.step.deeper :=
  (repeats_refl (· ≠ []) p.step.deeper).opened hp hk hd fun _ => id

theorem repeats_open_behind (hp : p.Closed) (hk : p.current.kind ≠ .eof)
    (hl : p.step.current.kind = .leftParen) (hd : p.depth < p.limit) :
    Repeats [p.current, p.step.current] (· ≠ []) (fun p' q' => p'.current = p.current ∧
      p'.step.current.kind = .leftParen ∧ p'.depth < p'.limit ∧ q' = p'.step.step.deeper)
      p p.step.step.deeper := by
  have hopen := repeats_open (step_closed hp) (by simp [hl]) (by simpa using hd)
  refine (hopen.passed hp hk fun rest _ => by simp).imp (fun _ => id) ?_
  rintro p' q' ⟨hcurrent, hparen, hroom, hq'⟩
  exact ⟨hcurrent, by rw [hparen, hl], by simpa using hroom, hq'⟩

theorem Slots.closed {count : Nat} (h : Slots p count q) (hp : p.Closed) : q.Closed := by
  induction h with
  | opened _ _ _ => exact step_closed (step_closed hp)
  | next _ _ hrun _ ih => exact step_closed (hrun.closed ih)

theorem Slots.replay {count : Nat} (h : Slots p count q) (hp : p.Closed) :
    ∃ used, used ≠ [] ∧ Repeats used (· ≠ []) (Slots · count ·) p q := by
  induction h with
  | opened hk hl hd =>
    refine ⟨_, List.cons_ne_nil _ _,
      (repeats_open_behind hp (by simp [hk]) hl hd).imp (fun _ => id) ?_⟩
    rintro p' _ ⟨hcurrent, hparen, hroom, rfl⟩
    exact .opened (by rw [hcurrent, hk]) hparen hroom
  | next hs hlt hrun hk ih =>
    have hq := hs.closed hp
    obtain ⟨us, hne, hs'⟩ := ih
    obtain ⟨vs, -, hrun'⟩ := (hrun.replay hq).token (hrun.closed hq) (by simp [hk])
    refine ⟨us ++ vs, by simp [hne], (hs'.trans hrun' fun rest => ?_).imp (fun _ => id) ?_⟩
    · exact List.append_ne_nil_of_right_ne_nil vs
    · rintro p' _ ⟨q', hslots, r', hr', hcurrent, rfl⟩
      exact .next hslots hlt hr' (by rw [hcurrent, hk])

theorem Opens.replay {f : Builtin} (h : p.Opens f) (hp : p.Closed) :
    Repeats [p.current, p.step.current] (· ≠ [])
      (fun p' q' => p'.Opens f ∧ p'.current = p.current ∧ q' = p'.step.step.deeper)
      p p.step.step.deeper := by
  obtain ⟨⟨name, hk, hf⟩, hl, hd⟩ := h
  refine (repeats_open_behind hp (by simp [hk]) hl hd).imp (fun _ => id) ?_
  rintro p' q' ⟨hcurrent, hparen, hroom, hq'⟩
  exact ⟨⟨⟨name, by rw [hcurrent, hk], hf⟩, hparen, hroom⟩, hcurrent, hq'⟩

theorem Repeats.read {s : Phrase} (h : Repeats us (· ≠ []) R p q) (hq : q.Closed)
    (hrun : Run q s r) :
    ∃ vs, Repeats (us ++ vs) (s.EndsAt r) (fun p' r' => ∃ q', R p' q' ∧ Run q' s r') p r := by
  obtain ⟨vs, -, hrun'⟩ := hrun.replay hq
  refine ⟨vs, h.trans hrun' fun rest hrest => ?_⟩
  exact List.append_ne_nil_of_right_ne_nil vs hrest.ne_nil

theorem Enters.closed {t u : Task} {closing : List Token} (h : Enters p t closing q u)
    (hp : p.Closed) : q.Closed := by
  cases h with
  | left | primary _ | someArguments _ | argument | statement => exact hp
  | links hrun => exact hrun.closed hp
  | right _ _ | operand _ _ | inner _ _ => exact step_closed hp
  | nextLink _ _ hrun => exact hrun.closed (step_closed hp)
  | slot hs => exact hs.closed hp
  | call _ => exact step_closed (step_closed hp)
  | nextArgument hrun _ | nextStatement hrun _ _ => exact step_closed (hrun.closed hp)

theorem Enters.replay {t u : Task} {closing : List Token} (h : Enters p t closing q u)
    (hp : p.Closed) : ∃ used, Repeats used (Resumes q) (Enters · t closing · u) p q := by
  have ne_nil (q : Parser) : ∀ rest, Resumes q rest → rest ≠ [] := fun _ => Resumes.ne_nil
  cases h with
  | left => exact ⟨[], repeats_stay fun _ _ => .left⟩
  | argument => exact ⟨[], repeats_stay fun _ _ => .argument⟩
  | statement => exact ⟨[], repeats_stay fun _ _ => .statement⟩
  | primary hop =>
    refine ⟨[], repeats_stay fun p' hp' => .primary ?_⟩
    rcases hp'.current with hk | hk
    · rw [hk, hop]
    · rw [hk]
      rfl
  | someArguments hk =>
    refine ⟨[], repeats_stay fun p' hp' => .someArguments ?_⟩
    rcases hp'.current with hk' | hk'
    · rw [hk']
      exact hk
    · rw [hk']
      simp
  | @links q least left hrun =>
    obtain ⟨us, -, hrun'⟩ := hrun.replay hp
    exact ⟨us, hrun'.imp (fun _ hrest => hrest.endsAt left) fun _ _ => .links⟩
  | right hop hd =>
    refine ⟨_, (repeats_open hp (kind_ne_eof_of_infixOp? hop) hd).imp (ne_nil _) ?_⟩
    rintro p' _ ⟨hcurrent, hroom, rfl⟩
    exact .right (by rw [hcurrent, hop]) hroom
  | operand hop hd =>
    refine ⟨_, (repeats_open hp (kind_ne_eof_of_prefixOp? hop) hd).imp (ne_nil _) ?_⟩
    rintro p' _ ⟨hcurrent, hroom, rfl⟩
    exact .operand (by rw [hcurrent, hop]) hroom
  | inner hk hd =>
    refine ⟨_, (repeats_open hp (by simp [hk]) hd).imp (ne_nil _) ?_⟩
    rintro p' _ ⟨hcurrent, hroom, rfl⟩
    exact .inner (by rw [hcurrent, hk]) hroom
  | @nextLink q least left right length compared op hop hd hrun =>
    obtain ⟨us, hne, hrun'⟩ := hrun.replay (step_closed hp)
    have hlink := hrun'.opened hp (kind_ne_eof_of_infixOp? hop) hd
      fun rest _ => List.append_ne_nil_of_left_ne_nil (hne trivial) rest
    refine ⟨p.current :: us, hlink.tokens, fun {bound rest p'} hp' hrest => ?_⟩
    obtain ⟨q', ⟨hcurrent, hroom, hq'⟩, hmirror⟩ := hlink.again hp' (hrest.endsAt right)
    refine ⟨q'.numbered, ?_, hmirror.numbered⟩
    rw [← hmirror.markAt, ← hcurrent]
    exact .nextLink (by rw [hcurrent, hop]) hroom hq'
  | slot hs =>
    obtain ⟨us, -, hs'⟩ := hs.replay hp
    exact ⟨us, hs'.imp (ne_nil _) fun _ _ => .slot⟩
  | call ho =>
    refine ⟨_, (ho.replay hp).imp (ne_nil _) ?_⟩
    rintro p' _ ⟨hopens, -, rfl⟩
    exact .call hopens
  | nextArgument hrun hk =>
    obtain ⟨us, -, hrun'⟩ := (hrun.replay hp).token (hrun.closed hp) (by simp [hk])
    refine ⟨us, hrun'.imp (ne_nil _) ?_⟩
    rintro p' _ ⟨q', hq', hcurrent, rfl⟩
    exact .nextArgument hq' (by rw [hcurrent, hk])
  | nextStatement hrun hk hne =>
    obtain ⟨us, -, hus, hrun'⟩ := (hrun.replay hp).token (hrun.closed hp) (by simp [hk])
    refine ⟨us, hus, fun hp' hrest => ?_⟩
    obtain ⟨_, ⟨q', hq', hcurrent, rfl⟩, hmirror⟩ := hrun' hp' hrest.ne_nil
    refine ⟨q'.step, .nextStatement hq' (by rw [hcurrent, hk]) ?_, hmirror⟩
    rw [← hmirror.tokens] at hrest
    rcases hrest.current with hk' | hk'
    · rw [hk']
      exact hne
    · rw [hk']
      simp

theorem Repeats.faults {t : Task} {wanted : String} {s : Phrase} (h : Repeats us (s.EndsAt q) R p q)
    (hR : ∀ p' q', R p' q' → q'.current = q.current → Faults p' t (q'.missing wanted) q') :
    Repeats us (StandsOn q) (Faults · t (q.missing wanted) ·) p q := by
  refine ⟨h.tokens, fun hp' hrest => ?_⟩
  obtain ⟨q', hq', hmirror⟩ := h.again hp' (hrest.endsAt s)
  have hcurrent := hmirror.standsOn hrest
  have hfault := hR _ q' hq' hcurrent
  rw [missing, hcurrent] at hfault
  exact ⟨q', hfault, hmirror⟩

theorem repeats_name {err : ParseError} (hp : p.Closed) (hk : p.current.kind ≠ .eof)
    (hR : ∀ p' : Parser, p'.current = p.current → p'.step.current = p.step.current →
      Faults p' .primary err p'.step) :
    Repeats [p.current] (StandsOn p.step) (Faults · .primary err ·) p p.step := by
  refine ⟨remaining_step hp hk, fun {bound rest p'} hp' hrest => ?_⟩
  have hmirror := hp'.step hrest.ne_nil
  exact ⟨p'.step, hR p' hp'.current (hmirror.standsOn hrest), hmirror⟩

theorem Faults.replay {t : Task} {err : ParseError} (h : Faults p t err q) (hp : p.Closed) :
    ∃ used, Repeats used (StandsOn q) (Faults · t err ·) p q := by
  cases h with
  | noOperand hk =>
    refine ⟨[], rfl, fun {bound rest p'} hp' hrest => ⟨p', ?_, hp'⟩⟩
    rw [← hp'.standsOn hrest] at hk ⊢
    exact .noOperand hk
  | bareName hk hl =>
    refine ⟨_, repeats_name hp (by simp [hk]) fun p' hcurrent hnext => ?_⟩
    rw [← hcurrent] at hk ⊢
    exact .bareName hk (by rw [hnext]; exact hl)
  | unknown hk hl hf =>
    refine ⟨_, repeats_name hp (by simp [hk]) fun p' hcurrent hnext => ?_⟩
    rw [← hcurrent] at hk ⊢
    exact .unknown hk (by rw [hnext]; exact hl) hf
  | unopened hk hl =>
    refine ⟨_, repeats_name hp (by simp [hk]) fun p' hcurrent hnext => ?_⟩
    rw [missing, ← hnext]
    exact .unopened (by rw [hcurrent, hk]) (by rw [hnext]; exact hl)
  | unclosedGroup hk hd hrun hq =>
    obtain ⟨us, hread⟩ := (repeats_open hp (by simp [hk]) hd).read (step_closed hp) hrun
    refine ⟨_, hread.faults ?_⟩
    rintro p' q' ⟨_, ⟨hcurrent, hroom, rfl⟩, hrun'⟩ hnext
    exact .unclosedGroup (by rw [hcurrent, hk]) hroom hrun' (by rw [hnext]; exact hq)
  | unseparated hs hlt hrun hr =>
    obtain ⟨us, -, hs'⟩ := hs.replay hp
    obtain ⟨vs, hread⟩ := hs'.read (hs.closed hp) hrun
    refine ⟨_, hread.faults ?_⟩
    rintro p' q' ⟨_, hslots, hrun'⟩ hnext
    exact .unseparated hslots hlt hrun' (by rw [hnext]; exact hr)
  | unclosedConditional hs hrun hr =>
    obtain ⟨us, -, hs'⟩ := hs.replay hp
    obtain ⟨vs, hread⟩ := hs'.read (hs.closed hp) hrun
    refine ⟨_, hread.faults ?_⟩
    rintro p' q' ⟨_, hslots, hrun'⟩ hnext
    exact .unclosedConditional hslots hrun' (by rw [hnext]; exact hr)
  | unclosedCall ho hrun hq =>
    obtain ⟨us, hread⟩ := (ho.replay hp).read (step_closed (step_closed hp)) hrun
    refine ⟨_, hread.faults ?_⟩
    rintro p' q' ⟨_, ⟨hopens, -, rfl⟩, hrun'⟩ hnext
    exact .unclosedCall hopens hrun' (by rw [hnext]; exact hq)
  | @arity r f args ho hrun hq ha =>
    have hclosed := step_closed (step_closed hp)
    obtain ⟨us, hus, hargs⟩ := (ho.replay hp).read hclosed hrun
    refine ⟨[p.current, p.step.current] ++ us ++ [r.current], ?_,
      fun {bound rest p'} hp' hrest => ?_⟩
    · rw [hus, remaining_step (hrun.closed hclosed) (by simp [hq]), List.append_assoc _ [_]]
      rfl
    · rw [List.append_assoc _ [_]] at hp'
      obtain ⟨q', ⟨_, ⟨hopens, hcurrent, rfl⟩, hrun'⟩, hmirror⟩ := hargs hp' (endsAt_self _ r rest)
      refine ⟨q'.step.shallower 1, ?_, (hmirror.step hrest.ne_nil).shallower 1⟩
      rw [← hcurrent]
      exact .arity hopens hrun' (by rw [hmirror.current, hq]) ha
  | unended hrun hs hk =>
    obtain ⟨us, -, hrun'⟩ := hrun.replay hp
    refine ⟨us, hrun'.faults fun p' q' hR hnext => ?_⟩
    exact .unended hR (by rw [hnext]; exact hs) (by rw [hnext]; exact hk)

theorem Halts.replay {t : Task} {err : ParseError} (h : Halts p t err q) (hp : p.Closed) :
    ∃ used, Repeats used (StandsOn q) (Halts · t err ·) p q := by
  induction h with
  | here hf =>
    obtain ⟨us, hf'⟩ := hf.replay hp
    exact ⟨us, hf'.imp (fun _ => id) fun _ _ => .here⟩
  | within he _ ih =>
    obtain ⟨us, he'⟩ := he.replay hp
    obtain ⟨vs, hh'⟩ := ih (he.closed hp)
    refine ⟨us ++ vs, (he'.trans hh' fun rest hrest => hrest.resumes hh'.tokens).imp
      (fun _ => id) ?_⟩
    rintro p' r' ⟨q', hq', hr'⟩
    exact .within hq' hr'

end Repeats

end FieldFormula.Parser
