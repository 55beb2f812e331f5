import TensorEquations.Proofs.Expression.Grammar

/-!
# The parser accepts the grammar

* `ParserState.Reads` — tokens take the parser from a state in which it expects an operand to one
  where it has an expression; whatever is finished next, it is as if the operand were that
  expression.
* `SumTree.reads` and its siblings — the tokens of a derivation are read as its tree.
* `Opens` — the tokens that the unfinished parts of a state stand for, by what may follow them.
* `Opens.close` — finishing operations completes a derivation.
* `parseTokens_eq_ok_iff` — tokens are a program exactly if they have a derivation.
-/

namespace TensorEquations

namespace ParserState

/-! ## Reading on -/

theorem runTokens_append (s : ParserState) (ts us : List Token) :
    runTokens s (ts ++ us) = (runTokens s ts).bind (runTokens · us) := by
  induction ts generalizing s with
  | nil => rfl
  | cons t ts ih =>
    rw [List.cons_append, runTokens, runTokens]
    split
    · exact ih _
    · rfl

theorem runTokens_of_eq {s s' : ParserState} {ts : List Token} (h : runTokens s ts = .ok s')
    (us : List Token) : runTokens s (ts ++ us) = runTokens s' us := by
  rw [runTokens_append, h]
  rfl

theorem runTokens_of_snoc {s s' : ParserState} {ts : List Token} {t : Token}
    (h : runTokens s (ts ++ [t]) = .ok s') (us : List Token) :
    runTokens s (ts ++ t :: us) = runTokens s' us := by
  rw [← List.singleton_append, ← List.append_assoc, runTokens_of_eq h]

theorem runTokens_cons {s s' : ParserState} {t : Token} (h : s.next t = some s') (ts : List Token) :
    runTokens s (t :: ts) = runTokens s' ts := by
  rw [runTokens, h]

/-- An operand may come next. -/
def Expects (s : ParserState) : Prop := s.mode = .statement ∨ s.mode = .operand ∨ s.mode = .arguments

/-- An operand has been read. -/
def Has (s : ParserState) (e : Expression) : Prop :=
  s.mode = .after e ∨ ∃ text place first, s.mode = .named text place first ∧ e = .name text place

theorem next_of_expects {s : ParserState} {t : Token} (hs : s.Expects) (ht : t.kind.beginsOperand) :
    ∃ first, s.next t = s.beforeOperand first t := by
  obtain ⟨kind, place⟩ := t
  rcases hs with hs | hs | hs
  · refine ⟨true, ?_⟩
    cases kind <;> first | exact absurd ht Bool.false_ne_true | simp only [next, hs]
  · exact ⟨false, by simp only [next, hs]⟩
  · refine ⟨false, ?_⟩
    cases kind <;> first | exact absurd ht Bool.false_ne_true | simp only [next, hs]

theorem next_of_has {s : ParserState} {e : Expression} {t : Token} (hs : s.Has e)
    (hcall : t.kind ≠ .openParen) (hassign : t.kind ≠ .equals) : s.next t = s.afterOperand e t := by
  rcases hs with hs | ⟨text, place, first, hs, rfl⟩
  · simp only [next, hs]
  · simp only [next, hs]

/-! ## Finishing operations -/

/-- The innermost unfinished part holds its operand less tightly than `n`. -/
def Loose (n : Nat) (frames : List Frame) : Prop := ∀ f ∈ frames.head?, f.strength < n

theorem Loose.mono {m n : Nat} (h : m ≤ n) {frames : List Frame} (hframes : Loose m frames) :
    Loose n frames :=
  fun f hf => Nat.lt_of_lt_of_le (hframes f hf) h

theorem loose_left {n : Nat} {op : Operation} (h : op.strength < n) (l : Expression) (frames : List Frame) :
    Loose n (.left op l :: frames) := by
  rintro _ ⟨⟩
  exact h

/-- Brackets hold nothing. -/
theorem loose_bracket {f : Frame} (h : f = .paren ∨ ∃ g place es, f = .call g place es)
    (frames : List Frame) : Loose 1 (f :: frames) := by
  rintro _ ⟨⟩
  obtain rfl | ⟨_, _, _, rfl⟩ := h <;> exact Nat.one_pos

theorem reduce_of_loose {n : Nat} {frames : List Frame} (h : Loose n frames) (e : Expression) :
    reduce n e frames = (e, frames) := by
  cases frames with
  | nil => rfl
  | cons f frames =>
    have hf : f.strength < n := h f rfl
    cases f <;> exact if_pos hf

theorem reduce_neg {n : Nat} (h : n ≤ 3) (e : Expression) (frames : List Frame) :
    reduce n e (.neg :: frames) = reduce n (.neg e) frames :=
  if_neg (Nat.not_lt.mpr h)

theorem reduce_left {n : Nat} {op : Operation} (h : n ≤ op.strength) (l e : Expression)
    (frames : List Frame) : reduce n e (.left op l :: frames) = reduce n (.binary op l e) frames :=
  if_neg (Nat.not_lt.mpr h)

/-- Tokens are read as an expression: whatever is finished next, up to strength `n`, it is as if
the operand were that expression. -/
def Reads (s : ParserState) (ts : List Token) (n : Nat) (e : Expression) : Prop :=
  ∃ s' e', runTokens s ts = .ok s' ∧ s'.Has e' ∧ s'.finished = s.finished ∧ s'.target = s.target ∧
    ∀ m ≤ n, reduce m e' s'.frames = reduce m e s.frames

theorem operation?_kind (op : Operation) : operation? op.kind = some op := by cases op <;> rfl

namespace Reads

variable {s : ParserState} {ts : List Token} {n : Nat} {e : Expression}

theorem mono {m : Nat} (h : s.Reads ts n e) (hm : m ≤ n) : s.Reads ts m e := by
  obtain ⟨s', e', hrun, hhas, hfinished, htarget, hreduce⟩ := h
  exact ⟨s', e', hrun, hhas, hfinished, htarget, fun k hk => hreduce k (Nat.le_trans hk hm)⟩

/-- An operation takes what has been read as its left operand. -/
theorem operation {op : Operation} (h : s.Reads ts op.strength e) (hloose : Loose op.strength s.frames)
    (place : Place) : runTokens s (ts ++ [⟨op.kind, place⟩]) =
      .ok { s with frames := .left op e :: s.frames, mode := .operand } := by
  obtain ⟨s', e', hrun, hhas, hfinished, htarget, hreduce⟩ := h
  have hnext : s'.next ⟨op.kind, place⟩ =
      some { s with frames := .left op e :: s.frames, mode := .operand } := by
    rw [next_of_has hhas (by cases op <;> exact nofun) (by cases op <;> exact nofun), afterOperand]
    simp only [operation?_kind, hreduce _ (Nat.le_refl _), reduce_of_loose hloose, hfinished, htarget]
  rw [runTokens_of_eq hrun, runTokens_cons hnext, runTokens]

/-- Then a further operand completes the operation. -/
theorem binary {us : List Token} {op : Operation} {r : Expression} {m : Nat} (h : s.Reads ts op.strength e)
    (hloose : Loose op.strength s.frames) (place : Place) (hm : op.strength ≤ m)
    (hr : ({ s with frames := .left op e :: s.frames, mode := .operand } : ParserState).Reads us m r) :
    s.Reads (ts ++ ⟨op.kind, place⟩ :: us) op.strength (.binary op e r) := by
  obtain ⟨s', e', hrun, hhas, hfinished, htarget, hreduce⟩ := hr
  refine ⟨s', e', ?_, hhas, hfinished, htarget, fun k hk => ?_⟩
  · rw [runTokens_of_snoc (h.operation hloose place), hrun]
  · rw [hreduce k (Nat.le_trans hk hm), reduce_left hk]

/-- A token that is no operation finishes all operations at once. -/
theorem finish {t : Token} (h : s.Reads ts n e) (hn : 1 ≤ n) (hop : operation? t.kind = none)
    (hcall : t.kind ≠ .openParen) (hassign : t.kind ≠ .equals) {next : ParserState}
    (hnext : s.afterOperand e t = some next) : runTokens s (ts ++ [t]) = .ok next := by
  obtain ⟨s', e', hrun, hhas, hfinished, htarget, hreduce⟩ := h
  have hnext' : s'.next t = some next := by
    rw [next_of_has hhas hcall hassign, ← hnext, afterOperand, afterOperand]
    simp only [hop, hreduce 1 hn, hfinished, htarget]
  rw [runTokens_of_eq hrun, runTokens_cons hnext', runTokens]

/-- A sign in front of an operand. -/
theorem neg {place : Place} (hs : s.Expects)
    (h : ({ s with frames := .neg :: s.frames, mode := .operand } : ParserState).Reads ts 3 e) :
    s.Reads (⟨.minus, place⟩ :: ts) 3 (.neg e) := by
  obtain ⟨s', e', hrun, hhas, hfinished, htarget, hreduce⟩ := h
  obtain ⟨first, hnext⟩ := next_of_expects (t := ⟨.minus, place⟩) hs rfl
  refine ⟨s', e', ?_, hhas, hfinished, htarget, fun m hm => ?_⟩
  · rw [runTokens_cons hnext, hrun]
  · rw [hreduce m hm, reduce_neg hm]

theorem pos {place : Place} (hs : s.Expects) (h : ({ s with mode := .operand } : ParserState).Reads ts 3 e) :
    s.Reads (⟨.plus, place⟩ :: ts) 3 e := by
  obtain ⟨s', e', hrun, hhas, hfinished, htarget, hreduce⟩ := h
  obtain ⟨first, hnext⟩ := next_of_expects (t := ⟨.plus, place⟩) hs rfl
  exact ⟨s', e', by rw [runTokens_cons hnext, hrun], hhas, hfinished, htarget, hreduce⟩

/-- Tokens that leave all but the mode as it is. -/
theorem of_mode {s' : ParserState} (h : runTokens s ts = .ok s') (hhas : s'.Has e)
    (hfinished : s'.finished = s.finished) (htarget : s'.target = s.target)
    (hframes : s'.frames = s.frames) (n : Nat) : s.Reads ts n e :=
  ⟨s', e, h, hhas, hfinished, htarget, fun _ _ => by rw [hframes]⟩

end Reads

/-- A name where an operand is expected. -/
theorem runTokens_name {s : ParserState} (hs : s.Expects) (n : NameToken) (ts : List Token) :
    ∃ first, runTokens s (n.token :: ts) = runTokens { s with mode := .named n.text n.place first } ts := by
  obtain ⟨first, hnext⟩ := next_of_expects (t := n.token) hs rfl
  exact ⟨first, runTokens_cons hnext ts⟩

/-- The names of a list of labels. -/
theorem runTokens_labels (s : ParserState) : ∀ (ns : List NameToken) (ls : List String) (ts : List Token),
    runTokens { s with mode := .labels ls } (ns.map NameToken.token ++ ts) =
      runTokens { s with mode := .labels (ls ++ ns.map NameToken.text) } ts
  | [], ls, ts => by simp
  | n :: ns, ls, ts => by
    have hnext : ({ s with mode := .labels ls } : ParserState).next n.token =
        some { s with mode := .labels (ls ++ [n.text]) } := rfl
    rw [List.map_cons, List.cons_append, runTokens_cons hnext, runTokens_labels s ns]
    simp

end ParserState

open ParserState

/-! ## Completeness -/

mutual

/-- A sum is read inside of brackets, or where nothing is unfinished. -/
theorem SumTree.reads : ∀ (e : SumTree) {s : ParserState}, s.Expects → Loose 1 s.frames →
    s.Reads e.tokens 1 e.tree
  | .product p, s, hs, hloose => (p.reads hs (hloose.mono (by decide))).mono (by decide)
  | .binary l op h place r, s, hs, hloose => by
    have hl : s.Reads l.tokens op.strength l.tree := h ▸ l.reads hs hloose
    have hr := r.reads (s := { s with frames := .left op l.tree :: s.frames, mode := .operand })
      (.inr (.inl rfl)) (loose_left (by rw [h]; decide) _ _)
    exact h ▸ hl.binary (h ▸ hloose) place (by rw [h]; decide) hr

theorem ProductTree.reads : ∀ (p : ProductTree) {s : ParserState}, s.Expects → Loose 2 s.frames →
    s.Reads p.tokens 2 p.tree
  | .unary u, s, hs, _ => (u.reads hs).mono (by decide)
  | .binary l op h place r, s, hs, hloose => by
    have hl : s.Reads l.tokens op.strength l.tree := h ▸ l.reads hs hloose
    have hr := r.reads (s := { s with frames := .left op l.tree :: s.frames, mode := .operand })
      (.inr (.inl rfl))
    exact h ▸ hl.binary (h ▸ hloose) place (by rw [h]; decide) hr

theorem UnaryTree.reads : ∀ (u : UnaryTree) {s : ParserState}, s.Expects → s.Reads u.tokens 3 u.tree
  | .atom a, _, hs => a.reads hs
  | .neg _ u, _, hs => .neg hs (u.reads (.inr (.inl rfl)))
  | .pos _ u, _, hs => .pos hs (u.reads (.inr (.inl rfl)))

theorem AtomTree.reads : ∀ (a : AtomTree) {s : ParserState}, s.Expects → s.Reads a.tokens 3 a.tree
  | .number n place, s, hs => by
    obtain ⟨first, hnext⟩ := next_of_expects (t := ⟨.number n, place⟩) hs rfl
    exact .of_mode (runTokens_cons hnext []) (.inl rfl) rfl rfl rfl 3
  | .name n, s, hs => by
    obtain ⟨first, hrun⟩ := runTokens_name hs n []
    exact .of_mode hrun (.inr ⟨_, _, _, rfl, rfl⟩) rfl rfl rfl 3
  | .call f opening closing, s, hs => by
    obtain ⟨first, hrun⟩ := runTokens_name hs f [⟨.openParen, opening⟩, ⟨.closeParen, closing⟩]
    exact .of_mode hrun (.inl rfl) rfl rfl rfl 3
  | .callWith f opening es closing, s, hs => by
    obtain ⟨first, hrun⟩ :=
      runTokens_name hs f (⟨.openParen, opening⟩ :: (es.tokens ++ [⟨.closeParen, closing⟩]))
    have hes := es.reads closing (s := { s with mode := .arguments }) f.text f.place [] s.frames
      (.inr (.inr rfl))
    exact .of_mode (hrun.trans hes) (.inl rfl) rfl rfl rfl 3
  | .labels opening names closing, s, hs => by
    obtain ⟨first, hnext⟩ := next_of_expects (t := ⟨.openBrace, opening⟩) hs rfl
    have hnames := runTokens_labels s names [] [⟨.closeBrace, closing⟩]
    exact .of_mode ((runTokens_cons hnext _).trans hnames) (.inl rfl) rfl rfl rfl 3
  | .paren opening e closing, s, hs => by
    obtain ⟨first, hnext⟩ := next_of_expects (t := ⟨.openParen, opening⟩) hs rfl
    have he := (e.reads (s := { s with frames := .paren :: s.frames, mode := .operand }) (.inr (.inl rfl))
      (loose_bracket (.inl rfl) _)).finish (t := ⟨.closeParen, closing⟩) (Nat.le_refl 1) rfl nofun nofun rfl
    exact .of_mode ((runTokens_cons hnext _).trans he) (.inl rfl) rfl rfl rfl 3

/-- Arguments are collected in the innermost frame, and the closing bracket completes the call. -/
theorem ArgumentsTree.reads : ∀ (es : ArgumentsTree) (closing : Place) {s : ParserState} (f : String)
    (place : Place) (before : List Expression) (frames : List Frame),
    ({ s with frames := .call f place before :: frames } : ParserState).Expects →
    runTokens { s with frames := .call f place before :: frames } (es.tokens ++ [⟨.closeParen, closing⟩]) =
      .ok { s with frames := frames, mode := .after (.call f place (before ++ es.trees)) }
  | .last e, closing, s, f, place, before, frames, hs =>
    have he := e.reads hs (loose_bracket (.inr ⟨f, place, before, rfl⟩) frames)
    he.finish (t := ⟨.closeParen, closing⟩) (Nat.le_refl 1) rfl nofun nofun rfl
  | .more e comma es, closing, s, f, place, before, frames, hs => by
    have he := (e.reads hs (loose_bracket (.inr ⟨f, place, before, rfl⟩) frames)).finish
      (t := ⟨.comma, comma⟩) (Nat.le_refl 1) rfl nofun nofun rfl
    have hes := es.reads closing (s := { s with mode := .operand }) f place (before ++ [e.tree]) frames
      (.inr (.inl rfl))
    rw [ArgumentsTree.tokens, List.append_assoc, List.cons_append, runTokens_of_snoc he]
    refine hes.trans ?_
    rw [List.append_assoc, List.singleton_append, ArgumentsTree.trees]

end

/-- The state before a statement. -/
def ParserState.beginning (finished : List Statement) : ParserState := ⟨finished, none, [], .statement⟩

/-- A statement, or none, may end in a state. -/
def ParserState.MayEnd (s : ParserState) (finished : List Statement) : Prop :=
  s.finish = some finished ∧ ∀ place, s.next ⟨.separator, place⟩ = some (beginning finished)

/-- Tokens that are read as an expression where nothing is unfinished may end a statement. -/
theorem ParserState.Reads.mayEnd {s : ParserState} {ts : List Token} {e : Expression} (h : s.Reads ts 1 e)
    (hframes : s.frames = []) : ∃ s', runTokens s ts = .ok s' ∧
      s'.MayEnd (s.finished ++ [statement s.target e]) := by
  obtain ⟨s', e', hrun, hhas, hfinished, htarget, hreduce⟩ := h
  have hreduce : reduce 1 e' s'.frames = (e, []) := by rw [hreduce 1 (Nat.le_refl 1), hframes, reduce]
  refine ⟨s', hrun, ?_, fun place => ?_⟩
  · rcases hhas with hmode | ⟨text, place, first, hmode, rfl⟩ <;>
      simp only [ParserState.finish, hmode, hreduce, hfinished, htarget]
  · rw [next_of_has (t := ⟨.separator, place⟩) hhas nofun nofun, afterOperand]
    simp only [operation?, hreduce, hfinished, htarget, beginning]

theorem StatementTree.mayEnd (finished : List Statement) : ∀ s : StatementTree, ∃ s',
    runTokens (beginning finished) s.tokens = .ok s' ∧ s'.MayEnd (finished ++ [s.tree])
  | .expression e => (e.reads (s := beginning finished) (.inl rfl) nofun).mayEnd rfl
  | .assignment n _ e =>
    (e.reads (s := ⟨finished, some n.text, [], .operand⟩) (.inr (.inl rfl)) nofun).mayEnd rfl

theorem optionalTokens_mayEnd (finished : List Statement) (s : Option StatementTree) : ∃ s',
    runTokens (beginning finished) (optionalTokens s) = .ok s' ∧
      s'.MayEnd (finished ++ (s.map StatementTree.tree).toList) := by
  cases s with
  | none =>
    rw [Option.map_none, Option.toList_none, List.append_nil]
    exact ⟨_, rfl, rfl, fun _ => rfl⟩
  | some s => exact s.mayEnd finished

theorem separatedTokens_mayEnd : ∀ (rest : List (Place × Option StatementTree)) {s : ParserState}
    {finished : List Statement}, s.MayEnd finished → ∃ s', runTokens s (separatedTokens rest) = .ok s' ∧
      s'.MayEnd (finished ++ rest.filterMap fun t => t.2.map StatementTree.tree)
  | [], s, finished, h => ⟨s, rfl, by rwa [List.filterMap_nil, List.append_nil]⟩
  | (place, t) :: rest, s, finished, h => by
    obtain ⟨s', hrun, hend⟩ := optionalTokens_mayEnd finished t
    obtain ⟨s'', hrun', hend'⟩ := separatedTokens_mayEnd rest hend
    refine ⟨s'', ?_, ?_⟩
    · rw [separatedTokens, List.flatMap_cons, List.cons_append, runTokens_cons (h.2 place),
        runTokens_of_eq hrun]
      exact hrun'
    · cases t <;> simpa using hend'

/-- **The tokens of a derivation are parsed as its statements.** -/
theorem ProgramTree.parseTokens (p : ProgramTree) : parseTokens p.tokens = .ok p.statements := by
  obtain ⟨s, hrun, hend⟩ := optionalTokens_mayEnd [] p.first
  obtain ⟨s', hrun', hend'⟩ := separatedTokens_mayEnd p.rest hend
  have hrun : runTokens .initial p.tokens = .ok s' := (runTokens_of_eq hrun _).trans hrun'
  have hstatements : (p.first.map StatementTree.tree).toList ++
      p.rest.filterMap (fun t => t.2.map StatementTree.tree) = p.statements := by
    cases h : p.first <;> simp [statements, h, List.filterMap_map]
  rw [TensorEquations.parseTokens, hrun, ← hstatements]
  simp only [bind, Except.bind, hend'.1]
  rfl

/-! ## Unfinished parts -/

/-- Arguments in front of commas. -/
abbrev ArgumentsBefore := List (SumTree × Place)

namespace ArgumentsBefore

def tokens (before : ArgumentsBefore) : List Token := before.flatMap fun a => a.1.tokens ++ [⟨.comma, a.2⟩]

def trees (before : ArgumentsBefore) : List Expression := before.map fun a => a.1.tree

/-- All arguments, `e` being the last one. -/
def complete (before : ArgumentsBefore) (e : SumTree) : ArgumentsTree :=
  before.foldr (fun a rest => .more a.1 a.2 rest) (.last e)

theorem tokens_complete (e : SumTree) : ∀ before : ArgumentsBefore,
    (before.complete e).tokens = before.tokens ++ e.tokens
  | [] => rfl
  | a :: before => by
    rw [complete, List.foldr_cons, ArgumentsTree.tokens, tokens, List.flatMap_cons, List.append_assoc,
      List.append_assoc, List.singleton_append]
    exact congrArg (fun ts => a.1.tokens ++ ⟨.comma, a.2⟩ :: ts) (tokens_complete e before)

theorem trees_complete (e : SumTree) : ∀ before : ArgumentsBefore,
    (before.complete e).trees = before.trees ++ [e.tree]
  | [] => rfl
  | a :: before => congrArg (a.1.tree :: ·) (trees_complete e before)

end ArgumentsBefore

/-- The tokens that unfinished parts stand for, innermost part last. At level 1 a sum may follow, at
level 2 a product and at level 3 an operand. -/
inductive Opens : Nat → List Frame → List Token → Prop
  | nothing : Opens 1 [] []
  | paren {frames : List Frame} {ts : List Token} (h : Opens 3 frames ts) (place : Place) :
      Opens 1 (.paren :: frames) (ts ++ [⟨.openParen, place⟩])
  | call {frames : List Frame} {ts : List Token} (h : Opens 3 frames ts) (f : NameToken) (opening : Place)
      (before : ArgumentsBefore) : Opens 1 (.call f.text f.place before.trees :: frames)
        (ts ++ f.token :: ⟨.openParen, opening⟩ :: before.tokens)
  | sum {frames : List Frame} {ts : List Token} (h : Opens 1 frames ts) : Opens 2 frames ts
  | inSum {frames : List Frame} {ts : List Token} (h : Opens 1 frames ts) (l : SumTree) {op : Operation}
      (hop : op.strength = 1) (place : Place) :
      Opens 2 (.left op l.tree :: frames) (ts ++ l.tokens ++ [⟨op.kind, place⟩])
  | product {frames : List Frame} {ts : List Token} (h : Opens 2 frames ts) : Opens 3 frames ts
  | inProduct {frames : List Frame} {ts : List Token} (h : Opens 2 frames ts) (l : ProductTree)
      {op : Operation} (hop : op.strength = 2) (place : Place) :
      Opens 3 (.left op l.tree :: frames) (ts ++ l.tokens ++ [⟨op.kind, place⟩])
  | neg {frames : List Frame} {ts : List Token} (h : Opens 3 frames ts) (place : Place) :
      Opens 3 (.neg :: frames) (ts ++ [⟨.minus, place⟩])
  | pos {frames : List Frame} {ts : List Token} (h : Opens 3 frames ts) (place : Place) :
      Opens 3 frames (ts ++ [⟨.plus, place⟩])

namespace Opens

variable {frames : List Frame} {ts : List Token}

theorem loose_one (h : Opens 1 frames ts) : Loose 1 frames := by
  cases h with
  | nothing => exact nofun
  | paren => exact loose_bracket (.inl rfl) _
  | call => exact loose_bracket (.inr ⟨_, _, _, rfl⟩) _

theorem loose_two (h : Opens 2 frames ts) : Loose 2 frames := by
  cases h with
  | sum h => exact h.loose_one.mono (by decide)
  | inSum _ _ hop => exact loose_left (by rw [hop]; decide) _ _

/-- An operand completes a product. -/
theorem close_operand {n : Nat} (h : Opens n frames ts) : n = 3 → ∀ u : UnaryTree, ∃ frames' ts' p,
    Opens 2 frames' ts' ∧ ts' ++ ProductTree.tokens p = ts ++ u.tokens ∧
      reduce 2 u.tree frames = (p.tree, frames') := by
  induction h with
  | nothing | paren | call | sum | inSum => exact fun h => absurd h (by decide)
  | @product frames ts h _ =>
    exact fun _ u => ⟨frames, ts, .unary u, h, rfl, reduce_of_loose h.loose_two _⟩
  | @inProduct frames ts h l op hop place _ =>
    refine fun _ u => ⟨frames, ts, .binary l op hop place u, h, ?_, ?_⟩
    · rw [ProductTree.tokens, List.append_assoc, List.append_assoc, List.singleton_append]
    · rw [reduce_left (Nat.le_of_eq hop.symm), reduce_of_loose h.loose_two]
      rfl
  | neg h place ih =>
    intro _ u
    obtain ⟨frames', ts', p, hopens, htokens, hreduce⟩ := ih rfl (.neg place u)
    refine ⟨frames', ts', p, hopens, ?_, ?_⟩
    · rw [htokens, UnaryTree.tokens, List.append_assoc, List.singleton_append]
    · rw [reduce_neg (by decide)]
      exact hreduce
  | pos h place ih =>
    intro _ u
    obtain ⟨frames', ts', p, hopens, htokens, hreduce⟩ := ih rfl (.pos place u)
    refine ⟨frames', ts', p, hopens, ?_, hreduce⟩
    rw [htokens, UnaryTree.tokens, List.append_assoc, List.singleton_append]

/-- A product completes a sum. -/
theorem close_product (h : Opens 2 frames ts) (p : ProductTree) : ∃ frames' ts' s,
    Opens 1 frames' ts' ∧ ts' ++ SumTree.tokens s = ts ++ p.tokens ∧
      reduce 1 p.tree frames = (s.tree, frames') := by
  cases h with
  | sum h => exact ⟨frames, ts, .product p, h, rfl, reduce_of_loose h.loose_one _⟩
  | @inSum frames ts h l op hop place =>
    refine ⟨frames, ts, .binary l op hop place p, h, ?_, ?_⟩
    · rw [SumTree.tokens, List.append_assoc, List.append_assoc, List.singleton_append]
    · rw [reduce_left (Nat.le_of_eq hop.symm), reduce_of_loose h.loose_one]
      rfl

end Opens

/-- Finishing operations of some strength first changes nothing. -/
theorem ParserState.reduce_reduce {m n : Nat} (h : m ≤ n) (e : Expression) (frames : List Frame) :
    reduce m (reduce n e frames).1 (reduce n e frames).2 = reduce m e frames := by
  fun_induction reduce n e frames with
  | case1 => rfl
  | case2 => rfl
  | case3 e frames hn ih => rw [ih, reduce_neg (Nat.le_trans h (Nat.le_of_not_lt hn))]
  | case4 e frames op l hn ih => rw [ih, reduce_left (Nat.le_trans h (Nat.le_of_not_lt hn))]
  | case5 => rfl

/-- An operand completes a sum. -/
theorem Opens.close {frames : List Frame} {ts : List Token} (h : Opens 3 frames ts) (u : UnaryTree) :
    ∃ frames' ts' s, Opens 1 frames' ts' ∧ ts' ++ SumTree.tokens s = ts ++ u.tokens ∧
      reduce 1 u.tree frames = (s.tree, frames') := by
  obtain ⟨frames', ts', p, hopens, htokens, hreduce⟩ := h.close_operand rfl u
  obtain ⟨frames'', ts'', s, hopens', htokens', hreduce'⟩ := hopens.close_product p
  refine ⟨frames'', ts'', s, hopens', htokens'.trans htokens, ?_⟩
  rw [← reduce_reduce (by decide : 1 ≤ 2), hreduce, hreduce']

/-! ## Soundness -/

/-- The tokens of the target of an assignment. -/
def IsTarget (target : Option String) (ts : List Token) : Prop :=
  (target = none ∧ ts = []) ∨ ∃ n place, target = some (NameToken.text n) ∧ ts = [n.token, ⟨.equals, place⟩]

/-- The tokens that a state stands for behind those of its target. -/
def ParserState.Shows (s : ParserState) (ts : List Token) : Prop :=
  match s.mode with
  | .statement => s.target = none ∧ s.frames = [] ∧ ts = []
  | .operand => Opens 3 s.frames ts
  | .arguments => ∃ f opening frames before, s.frames = .call (NameToken.text f) f.place [] :: frames ∧
      Opens 3 frames before ∧ ts = before ++ [f.token, ⟨.openParen, opening⟩]
  | .named text place first => ∃ before, Opens 3 s.frames before ∧ ts = before ++ [⟨.name text, place⟩] ∧
      (first = true → s.target = none ∧ s.frames = [] ∧ before = [])
  | .labels ls => ∃ opening, ∃ names : List NameToken, ∃ before, Opens 3 s.frames before ∧
      ls = names.map NameToken.text ∧ ts = before ++ ⟨.openBrace, opening⟩ :: names.map NameToken.token
  | .after e => ∃ a before, Opens 3 s.frames before ∧ e = AtomTree.tree a ∧ ts = before ++ a.tokens

/-- The tokens of finished statements. -/
def finishedTokens (before : List (Option StatementTree × Place)) : List Token :=
  before.flatMap fun s => optionalTokens s.1 ++ [⟨.separator, s.2⟩]

def finishedStatements (before : List (Option StatementTree × Place)) : List Statement :=
  before.filterMap fun s => s.1.map StatementTree.tree

/-- The tokens that have led to a state. -/
def ParserState.Follows (s : ParserState) (ts : List Token) : Prop :=
  ∃ before target rest, ts = finishedTokens before ++ target ++ rest ∧
    s.finished = finishedStatements before ∧ IsTarget s.target target ∧ s.Shows rest

/-- A token where an operand is expected. -/
theorem ParserState.shows_of_beforeOperand {s s' : ParserState} {first : Bool} {t : Token} {ts : List Token}
    (h : Opens 3 s.frames ts) (hnext : s.beforeOperand first t = some s')
    (hfirst : first = true → s.target = none ∧ s.frames = [] ∧ ts = []) :
    s'.finished = s.finished ∧ s'.target = s.target ∧ s'.Shows (ts ++ [t]) := by
  obtain ⟨kind, place⟩ := t
  cases kind <;> simp only [beforeOperand, Option.some.injEq, reduceCtorEq] at hnext <;> subst hnext <;>
    refine ⟨rfl, rfl, ?_⟩
  case number n => exact ⟨.number n place, ts, h, rfl, rfl⟩
  case name text => exact ⟨ts, h, rfl, hfirst⟩
  case plus => exact h.pos place
  case minus => exact h.neg place
  case openParen => exact .product (.sum (h.paren place))
  case openBrace => exact ⟨place, [], ts, h, rfl, rfl⟩

theorem ParserState.kind_of_operation? {kind : TokenKind} {op : Operation} (h : operation? kind = some op) :
    kind = op.kind := by
  cases kind <;> simp only [operation?, Option.some.injEq, reduceCtorEq] at h <;> subst h <;> rfl

/-- An operation behind an operand. -/
theorem ParserState.opens_of_operation {frames : List Frame} {ts : List Token} {a : AtomTree} {op : Operation}
    (h : Opens 3 frames ts) (place : Place) :
    Opens 3 (.left op (reduce op.strength a.tree frames).1 :: (reduce op.strength a.tree frames).2)
      (ts ++ a.tokens ++ [⟨op.kind, place⟩]) := by
  have hstrength : op.strength = 1 ∨ op.strength = 2 := by cases op <;> decide
  rcases hstrength with hop | hop
  · obtain ⟨frames', ts', e, hopens, htokens, hreduce⟩ := h.close (.atom a)
    rw [hop, show reduce 1 a.tree frames = _ from hreduce, show ts ++ a.tokens = _ from htokens.symm]
    exact .product (hopens.inSum e hop place)
  · obtain ⟨frames', ts', p, hopens, htokens, hreduce⟩ := h.close_operand rfl (.atom a)
    rw [hop, show reduce 2 a.tree frames = _ from hreduce, show ts ++ a.tokens = _ from htokens.symm]
    exact hopens.inProduct p hop place

/-- A token behind an operand: it goes on with the statement, or ends it. -/
theorem ParserState.shows_of_afterOperand {s s' : ParserState} {t : Token} {ts : List Token} {a : AtomTree}
    (h : Opens 3 s.frames ts) (hnext : s.afterOperand a.tree t = some s') :
    (s'.finished = s.finished ∧ s'.target = s.target ∧ s'.Shows (ts ++ a.tokens ++ [t])) ∨
      ∃ e : SumTree, t.kind = .separator ∧ ts ++ a.tokens = e.tokens ∧
        s' = beginning (s.finished ++ [statement s.target e.tree]) := by
  obtain ⟨kind, place⟩ := t
  rw [afterOperand] at hnext
  cases hop : operation? kind with
  | some op =>
    simp only [hop, Option.some.injEq] at hnext
    obtain rfl := kind_of_operation? hop
    subst hnext
    exact .inl ⟨rfl, rfl, opens_of_operation h place⟩
  | none =>
    obtain ⟨frames, ts', e, hopens, htokens, hreduce⟩ := h.close (.atom a)
    rw [show ts ++ a.tokens = _ from htokens.symm]
    simp only [hop, show reduce 1 a.tree s.frames = _ from hreduce] at hnext
    cases hopens with
    | nothing =>
      cases kind <;> simp only [Option.some.injEq, reduceCtorEq] at hnext
      exact .inr ⟨e, rfl, rfl, hnext.symm⟩
    | @paren frames ts' h opening =>
      cases kind <;> simp only [Option.some.injEq, reduceCtorEq] at hnext
      subst hnext
      refine .inl ⟨rfl, rfl, .paren opening e place, ts', h, rfl, ?_⟩
      simp [AtomTree.tokens]
    | @call frames ts' h f opening before =>
      cases kind <;> simp only [Option.some.injEq, reduceCtorEq] at hnext <;> subst hnext
      case comma =>
        have hopens := h.call f opening (before ++ [(e, place)])
        refine .inl ⟨rfl, rfl, .product (.sum ?_)⟩
        simpa [ArgumentsBefore.trees, ArgumentsBefore.tokens] using hopens
      case closeParen =>
        refine .inl ⟨rfl, rfl, .callWith f opening (before.complete e) place, ts', h, ?_, ?_⟩
        · rw [AtomTree.tree, before.trees_complete]
        · simp [AtomTree.tokens, before.tokens_complete]

/-- The statement that a target and an expression make. -/
theorem exists_statement {target : Option String} {ts : List Token} (h : IsTarget target ts) (e : SumTree) :
    ∃ s : StatementTree, s.tokens = ts ++ e.tokens ∧ s.tree = statement target e.tree := by
  rcases h with ⟨rfl, rfl⟩ | ⟨n, place, rfl, rfl⟩
  · exact ⟨.expression e, rfl, rfl⟩
  · exact ⟨.assignment n place e, rfl, rfl⟩

/-- The state behind a separator follows the tokens of the finished statements. -/
theorem ParserState.follows_separator (before : List (Option StatementTree × Place))
    (s : Option StatementTree) (place : Place) :
    (beginning (finishedStatements before ++ (s.map StatementTree.tree).toList)).Follows
      (finishedTokens before ++ optionalTokens s ++ [⟨.separator, place⟩]) := by
  refine ⟨before ++ [(s, place)], [], [], ?_, ?_, .inl ⟨rfl, rfl⟩, rfl, rfl, rfl⟩
  · simp [finishedTokens]
  · cases s <;> simp [finishedStatements, beginning]

/-- What follows a token where a statement goes on, or ends. -/
theorem ParserState.follows_of_afterOperand {s s' : ParserState} {t : Token} {ts target : List Token}
    {a : AtomTree} {before : List (Option StatementTree × Place)}
    (hfinished : s.finished = finishedStatements before) (htarget : IsTarget s.target target)
    (h : Opens 3 s.frames ts) (hnext : s.afterOperand a.tree t = some s') :
    s'.Follows (finishedTokens before ++ target ++ (ts ++ a.tokens) ++ [t]) := by
  rcases shows_of_afterOperand h hnext with ⟨hf, ht, hshows⟩ | ⟨e, hkind, htokens, rfl⟩
  · exact ⟨before, target, _, by simp, hf.trans hfinished, ht ▸ htarget, hshows⟩
  · obtain ⟨st, hst, htree⟩ := exists_statement htarget e
    obtain ⟨kind, place⟩ := t
    obtain rfl : kind = .separator := hkind
    have hfollows := follows_separator before (some st) place
    rw [Option.map_some, Option.toList_some, htree, ← hfinished, optionalTokens, Option.map_some,
      Option.getD_some, hst] at hfollows
    rwa [htokens, List.append_assoc (finishedTokens before)]

theorem IsTarget.eq_nil {ts : List Token} (h : IsTarget none ts) : ts = [] := by
  rcases h with ⟨-, h⟩ | ⟨_, _, h, -⟩
  · exact h
  · exact nomatch h

/-- A token behind the opening bracket of a call. -/
theorem ParserState.shows_of_arguments {s s' : ParserState} {t : Token} {ts : List Token}
    (hmode : s.mode = .arguments) (h : s.Shows ts) (hnext : s.next t = some s') :
    s'.finished = s.finished ∧ s'.target = s.target ∧ s'.Shows (ts ++ [t]) := by
  simp only [Shows, hmode] at h
  obtain ⟨f, opening, frames, ts, hframes, hopens, rfl⟩ := h
  obtain ⟨kind, place⟩ := t
  by_cases hclose : kind = .closeParen
  · subst hclose
    simp only [ParserState.next, hmode, hframes, Option.some.injEq] at hnext
    subst hnext
    refine ⟨rfl, rfl, .call f opening place, ts, hopens, rfl, ?_⟩
    rw [AtomTree.tokens, List.append_assoc]
    rfl
  · have hnext' : s.beforeOperand false ⟨kind, place⟩ = some s' := by
      simpa [ParserState.next, hmode, hclose] using hnext
    refine shows_of_beforeOperand ?_ hnext' fun h => absurd h Bool.false_ne_true
    rw [hframes]
    exact .product (.sum (hopens.call f opening []))

/-- A token between braces. -/
theorem ParserState.shows_of_labels {s s' : ParserState} {t : Token} {ts : List Token} {ls : List String}
    (hmode : s.mode = .labels ls) (h : s.Shows ts) (hnext : s.next t = some s') :
    s'.finished = s.finished ∧ s'.target = s.target ∧ s'.Shows (ts ++ [t]) := by
  simp only [Shows, hmode] at h
  obtain ⟨opening, names, ts, hopens, rfl, rfl⟩ := h
  obtain ⟨kind, place⟩ := t
  cases kind <;> simp only [ParserState.next, hmode, Option.some.injEq, reduceCtorEq] at hnext <;>
    subst hnext
  case name text =>
    exact ⟨rfl, rfl, opening, names ++ [⟨text, place⟩], ts, hopens, by simp, by simp; rfl⟩
  case closeBrace =>
    exact ⟨rfl, rfl, .labels opening names place, ts, hopens, rfl, by simp [AtomTree.tokens]⟩

/-- A token that begins a statement, or ends an empty one. -/
theorem ParserState.follows_of_statement {s s' : ParserState} {t : Token}
    {before : List (Option StatementTree × Place)} (hmode : s.mode = .statement)
    (hfinished : s.finished = finishedStatements before) (hnone : s.target = none) (hframes : s.frames = [])
    (hnext : s.next t = some s') : s'.Follows (finishedTokens before ++ [t]) := by
  obtain ⟨kind, place⟩ := t
  by_cases hseparator : kind = .separator
  · subst hseparator
    simp only [ParserState.next, hmode, Option.some.injEq] at hnext
    subst hnext
    obtain ⟨finished, target, frames, mode⟩ := s
    obtain rfl : target = none := hnone
    obtain rfl : frames = [] := hframes
    obtain rfl : mode = .statement := hmode
    obtain rfl : finished = finishedStatements before := hfinished
    simpa [beginning, optionalTokens] using follows_separator before none place
  · have hnext' : s.beforeOperand true ⟨kind, place⟩ = some s' := by
      simpa [ParserState.next, hmode, hseparator] using hnext
    have hopens : Opens 3 s.frames [] := hframes ▸ .product (.sum .nothing)
    obtain ⟨hf, ht, hshows⟩ := shows_of_beforeOperand hopens hnext' fun _ => ⟨hnone, hframes, rfl⟩
    exact ⟨before, [], _, by simp, hf.trans hfinished, .inl ⟨ht.trans hnone, rfl⟩, hshows⟩

/-- A token behind a name, which may be the name of a function or a target. -/
theorem ParserState.follows_of_named {s s' : ParserState} {t : Token} {ts target : List Token} {text : String}
    {place : Place} {first : Bool} {before : List (Option StatementTree × Place)}
    (hmode : s.mode = .named text place first) (hfinished : s.finished = finishedStatements before)
    (htarget : IsTarget s.target target) (h : s.Shows ts) (hnext : s.next t = some s') :
    s'.Follows (finishedTokens before ++ target ++ ts ++ [t]) := by
  simp only [Shows, hmode] at h
  obtain ⟨ts, hopens, rfl, hfirst⟩ := h
  obtain ⟨kind, place'⟩ := t
  by_cases hcall : kind = .openParen
  · subst hcall
    simp only [ParserState.next, hmode, Option.some.injEq] at hnext
    subst hnext
    refine ⟨before, target, ts ++ [⟨.name text, place⟩, ⟨.openParen, place'⟩], by simp, hfinished, htarget, ?_⟩
    exact ⟨⟨text, place⟩, place', s.frames, ts, rfl, hopens, rfl⟩
  by_cases hassign : kind = .equals
  · subst hassign
    simp only [ParserState.next, hmode] at hnext
    split at hnext
    · next htrue =>
      obtain ⟨hnone, hframes, rfl⟩ := hfirst htrue
      cases hnext
      rw [hnone] at htarget
      obtain rfl := htarget.eq_nil
      refine ⟨before, [⟨.name text, place⟩, ⟨.equals, place'⟩], [], by simp, hfinished,
        .inr ⟨⟨text, place⟩, place', rfl, rfl⟩, ?_⟩
      exact hframes ▸ .product (.sum .nothing)
    · cases hnext
  · have hnext' : s.afterOperand (AtomTree.name ⟨text, place⟩).tree ⟨kind, place'⟩ = some s' := by
      simpa [ParserState.next, hmode, hcall, hassign, AtomTree.tree] using hnext
    exact follows_of_afterOperand hfinished htarget hopens hnext'

/-- **Each token that fits is one of a derivation.** -/
theorem ParserState.Follows.next {s s' : ParserState} {t : Token} {ts : List Token} (h : s.Follows ts)
    (hnext : s.next t = some s') : s'.Follows (ts ++ [t]) := by
  obtain ⟨before, target, rest, rfl, hfinished, htarget, hshows⟩ := h
  -- most tokens leave the finished statements and the target as they are
  have honward : s'.finished = s.finished ∧ s'.target = s.target ∧ s'.Shows (rest ++ [t]) →
      s'.Follows (finishedTokens before ++ target ++ rest ++ [t]) := by
    rintro ⟨hf, ht, hs⟩
    exact ⟨before, target, rest ++ [t], by rw [List.append_assoc _ rest], hf.trans hfinished, ht ▸ htarget, hs⟩
  cases hmode : s.mode with
  | statement =>
    simp only [Shows, hmode] at hshows
    obtain ⟨hnone, hframes, rfl⟩ := hshows
    obtain rfl := (hnone ▸ htarget).eq_nil
    simpa using follows_of_statement hmode hfinished hnone hframes hnext
  | operand =>
    simp only [Shows, hmode] at hshows
    simp only [ParserState.next, hmode] at hnext
    exact honward (shows_of_beforeOperand hshows hnext fun h => absurd h Bool.false_ne_true)
  | arguments => exact honward (shows_of_arguments hmode hshows hnext)
  | named text place first => exact follows_of_named hmode hfinished htarget hshows hnext
  | labels ls => exact honward (shows_of_labels hmode hshows hnext)
  | after e =>
    simp only [Shows, hmode] at hshows
    obtain ⟨a, ts, hopens, rfl, rfl⟩ := hshows
    simp only [ParserState.next, hmode] at hnext
    exact follows_of_afterOperand hfinished htarget hopens hnext

theorem runTokens_follows : ∀ {s s' : ParserState} (ts us : List Token), s.Follows ts →
    runTokens s us = .ok s' → s'.Follows (ts ++ us)
  | s, s', ts, [], h, hrun => by
    obtain rfl : s = s' := Except.ok.inj hrun
    rwa [List.append_nil]
  | s, s', ts, u :: us, h, hrun => by
    rw [runTokens] at hrun
    split at hrun
    · next hnext =>
      have := runTokens_follows (ts ++ [u]) us (h.next hnext) hrun
      rwa [List.append_assoc, List.singleton_append] at this
    · exact nomatch hrun

/-- The program of statements in front of separators and of a last one. -/
def ProgramTree.ofList (before : List (Option StatementTree × Place)) (last : Option StatementTree) :
    ProgramTree :=
  before.foldr (fun s p => ⟨s.1, (s.2, p.first) :: p.rest⟩) ⟨last, []⟩

theorem ProgramTree.tokens_ofList (last : Option StatementTree) : ∀ before,
    (ofList before last).tokens = finishedTokens before ++ optionalTokens last
  | [] => List.append_nil _
  | s :: before => by
    have ih := tokens_ofList last before
    simp only [ofList, tokens, finishedTokens, separatedTokens, List.foldr_cons, List.flatMap_cons,
      List.append_assoc, List.cons_append, List.nil_append] at ih ⊢
    rw [ih]

theorem ProgramTree.statements_ofList (last : Option StatementTree) : ∀ before,
    (ofList before last).statements = finishedStatements before ++ (last.map StatementTree.tree).toList
  | [] => by cases last <;> rfl
  | (s, place) :: before => by
    have hcons : ∀ p : ProgramTree, statements ⟨s, (place, p.first) :: p.rest⟩ =
        (s.map StatementTree.tree).toList ++ p.statements := fun _ => by cases s <;> rfl
    have hfinished : finishedStatements ((s, place) :: before) =
        (s.map StatementTree.tree).toList ++ finishedStatements before := by cases s <;> rfl
    rw [hfinished, List.append_assoc, ← statements_ofList last before]
    exact hcons (ofList before last)

theorem ParserState.follows_initial : initial.Follows [] :=
  ⟨[], [], [], rfl, rfl, .inl ⟨rfl, rfl⟩, by exact ⟨rfl, rfl, rfl⟩⟩

/-- A state in which the program may end follows the tokens of a derivation. -/
theorem ParserState.Follows.finish {s : ParserState} {ts : List Token} {p : Program} (h : s.Follows ts)
    (hfinish : s.finish = some p) : ∃ d : ProgramTree, d.tokens = ts ∧ d.statements = p := by
  obtain ⟨before, target, rest, rfl, hfinished, htarget, hshows⟩ := h
  have hclose : ∀ (a : AtomTree) (ts : List Token), Opens 3 s.frames ts → rest = ts ++ a.tokens →
      { s with mode := .after a.tree }.finish = some p →
        ∃ d : ProgramTree, d.tokens = finishedTokens before ++ target ++ rest ∧ d.statements = p := by
    rintro a ts hopens rfl hp
    obtain ⟨frames, ts', e, hopens', htokens, hreduce⟩ := hopens.close (.atom a)
    simp only [ParserState.finish] at hp
    rw [show reduce 1 a.tree s.frames = _ from hreduce] at hp
    cases hopens' with
    | nothing =>
      obtain ⟨st, hst, htree⟩ := exists_statement htarget e
      refine ⟨.ofList before (some st), ?_, ?_⟩
      · rw [ProgramTree.tokens_ofList, optionalTokens, Option.map_some, Option.getD_some, hst,
          List.append_assoc, show ts ++ a.tokens = _ from htokens.symm]
        rfl
      · rw [ProgramTree.statements_ofList, Option.map_some, htree, ← hfinished]
        exact Option.some.inj hp
    | paren => cases hp
    | call => cases hp
  cases hmode : s.mode with
  | statement =>
    simp only [Shows, hmode] at hshows
    obtain ⟨hnone, -, rfl⟩ := hshows
    rw [hnone] at htarget
    obtain rfl := htarget.eq_nil
    simp only [ParserState.finish, hmode, Option.some.injEq] at hfinish
    refine ⟨.ofList before none, ?_, ?_⟩
    · rw [ProgramTree.tokens_ofList]
      simp [optionalTokens]
    · rw [ProgramTree.statements_ofList, ← hfinish, hfinished]
      exact List.append_nil _
  | named text place first =>
    simp only [Shows, hmode] at hshows
    obtain ⟨ts, hopens, hrest, -⟩ := hshows
    simp only [ParserState.finish, hmode] at hfinish
    exact hclose (.name ⟨text, place⟩) ts hopens hrest hfinish
  | after e =>
    simp only [Shows, hmode] at hshows
    obtain ⟨a, ts, hopens, rfl, hrest⟩ := hshows
    simp only [ParserState.finish, hmode] at hfinish
    exact hclose a ts hopens hrest hfinish
  | operand => simp [ParserState.finish, hmode] at hfinish
  | arguments => simp [ParserState.finish, hmode] at hfinish
  | labels ls => simp [ParserState.finish, hmode] at hfinish

/-- **Tokens are parsed exactly if they have a derivation**, and as its statements. -/
theorem parseTokens_eq_ok_iff (ts : List Token) (p : Program) :
    parseTokens ts = .ok p ↔ ∃ d : ProgramTree, d.tokens = ts ∧ d.statements = p := by
  constructor
  · intro h
    rw [parseTokens] at h
    cases hrun : runTokens .initial ts with
    | error place => simp [hrun, bind, Except.bind] at h
    | ok s =>
      have hfollows : s.Follows ts := runTokens_follows [] ts follows_initial hrun
      cases hfinish : s.finish with
      | none => simp [hrun, bind, Except.bind, hfinish, throw, throwThe, MonadExceptOf.throw] at h
      | some p' =>
        simp only [hrun, bind, Except.bind, hfinish, pure, Except.pure, Except.ok.injEq] at h
        exact h ▸ hfollows.finish hfinish
  · rintro ⟨d, rfl, rfl⟩
    exact d.parseTokens

end TensorEquations
