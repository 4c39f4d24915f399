import FieldFormula.Proofs.Parser.Run

/-!
Numbers of nodes. A parser counts the nodes it makes, and it makes a node when those below it are
made. Main statement: what it reads is numbered in one run without gaps, children from left to right
before their parent (`Run.numbered`, `numbered_of_formula`).
-/
namespace FieldFormula.Parser

def Numbered (first : Nat) (nodes : List Expr) (next : Nat) : Prop :=
  nodes.map Expr.id = List.range' first nodes.length ∧ next = first + nodes.length

section
variable {first middle next : Nat} {nodes others : List Expr}

theorem numbered_nil (first : Nat) : Numbered first [] first := ⟨rfl, rfl⟩

theorem Numbered.append (h : Numbered first nodes middle) (h' : Numbered middle others next) :
    Numbered first (nodes ++ others) next := by
  obtain ⟨hids, rfl⟩ := h
  obtain ⟨hids', rfl⟩ := h'
  refine ⟨?_, by rw [List.length_append, Nat.add_assoc]⟩
  rw [List.map_append, hids, hids', List.length_append, List.range'_append_1]

theorem Numbered.node (h : Numbered first nodes middle) {e : Expr} (he : e.id = middle) :
    Numbered first (nodes ++ [e]) (middle + 1) :=
  h.append ⟨by simp [he], rfl⟩

theorem Numbered.mem_iff (h : Numbered first nodes next) {id : Nat} :
    id ∈ nodes.map Expr.id ↔ first ≤ id ∧ id < next := by
  obtain ⟨hids, rfl⟩ := h
  rw [hids, List.mem_range'_1]

theorem Numbered.nodup (h : Numbered first nodes next) : (nodes.map Expr.id).Nodup :=
  h.1 ▸ List.nodup_range'

end

def Phrase.Numbered (first next : Nat) : Phrase → Prop
  | binary _ e | unary e | primary e | call _ _ e => Parser.Numbered first e.nodes next
  | chain _ left _ _ e => ∃ new, e.nodes = left.nodes ++ new ∧ Parser.Numbered first new next
  | arguments es | argumentsFrom es => Parser.Numbered first (Expr.nodesOf es) next

variable {p q : Parser}

theorem Run.numbered {s : Phrase} (h : Run p s q) : s.Numbered p.nextId q.nextId := by
  induction h with
  | binary _ _ ih₁ ih₂ =>
    obtain ⟨new, hnodes, hnew⟩ := ih₂
    rw [Phrase.Numbered, hnodes]
    exact Numbered.append ih₁ hnew
  | chainEnd _ => exact ⟨[], (List.append_nil _).symm, numbered_nil _⟩
  | @chainLink p q _ _ left right _ _ _ op _ _ _ _ ih₁ ih₂ =>
    -- behind `left` come the nodes of `right`, the node of the operator and those of the rest
    obtain ⟨new, hnodes, hnew⟩ := ih₂
    rw [deeper_nextId, step_nextId] at ih₁
    let node := Expr.binary (q.markAt p.current.position) op left right
    refine ⟨right.nodes ++ [node] ++ new, ?_, (Numbered.node (e := node) ih₁ rfl).append hnew⟩
    rw [hnodes, Expr.nodes]
    simp only [node, List.append_assoc]
  | unaryPrimary _ _ ih => exact ih
  | unaryOperator _ _ _ ih =>
    rw [deeper_nextId, step_nextId] at ih
    exact Numbered.node ih rfl
  | literal _ | field _ =>
    rw [numbered_nextId, step_nextId]
    exact (numbered_nil _).node (step_nextId _)
  | group _ _ _ _ ih =>
    rw [deeper_nextId, step_nextId] at ih
    rw [numbered_nextId, shallower_nextId, step_nextId]
    exact Numbered.node ih (step_nextId _)
  | conditional _ _ _ _ _ _ _ _ _ ih₁ ih₂ ih₃ =>
    rw [deeper_nextId, step_nextId, step_nextId] at ih₁
    rw [step_nextId] at ih₂ ih₃
    rw [numbered_nextId, shallower_nextId, step_nextId]
    exact ((Numbered.append ih₁ ih₂).append ih₃).node (step_nextId _)
  | identifier _ _ ih =>
    rw [step_nextId] at ih
    exact ih
  | call _ _ _ _ _ _ ih =>
    rw [deeper_nextId, step_nextId] at ih
    rw [numbered_nextId, shallower_nextId, step_nextId]
    exact Numbered.node ih (step_nextId _)
  | noArguments _ => exact numbered_nil _
  | someArguments _ _ ih => exact ih
  | lastArgument _ _ ih =>
    rw [Phrase.Numbered, Expr.nodesOf, Expr.nodesOf, List.append_nil]
    exact ih
  | nextArgument _ _ _ ih₁ ih₂ =>
    rw [step_nextId] at ih₂
    exact Numbered.append ih₁ ih₂

theorem Statements.numbered {es : List Expr} (h : Statements p es q) :
    Numbered p.nextId (Expr.nodesOf es) q.nextId := by
  induction h with
  | last he _ =>
    rw [Expr.nodesOf, Expr.nodesOf, List.append_nil]
    exact he.numbered
  | closed he _ _ =>
    rw [Expr.nodesOf, Expr.nodesOf, List.append_nil, step_nextId]
    exact he.numbered
  | next he _ _ _ ih =>
    rw [step_nextId] at ih
    exact Numbered.append he.numbered ih

theorem numbered_of_expression {e : Expr} (h : expression p = .ok e q) :
    Numbered p.nextId e.nodes q.nextId :=
  (run_of_expression h).numbered

theorem numbered_of_formula {e : Expr} (h : formula p = .ok e q) :
    Numbered p.nextId e.nodes q.nextId := by
  obtain ⟨items, r, hs, -, ⟨rfl, rfl⟩ | ⟨-, rfl, rfl⟩⟩ := run_of_formula h
  · have hitem := hs.numbered
    rw [Expr.nodesOf, Expr.nodesOf, List.append_nil] at hitem
    rwa [step_nextId]
  · rw [numbered_nextId, step_nextId]
    exact hs.numbered.node (step_nextId r)

end FieldFormula.Parser
