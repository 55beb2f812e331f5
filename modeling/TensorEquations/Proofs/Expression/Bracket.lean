import TensorEquations.Proofs.Expression.Printing

/-!
# Brackets and places

* `depthAfter` — how many brackets are open behind some tokens, unless one too many has been closed.
* `SumTree.isBalanced` — a derivation closes just the brackets that it opens.
* `SumTree.exists_moved`, `ProgramTree.exists_moved` — tokens of the same kinds at other places have a derivation of
  the same meaning.
* `ProgramTree.exists_call` — **text in the brackets of a call, put in there as text, is the arguments of the
  call unless it closes the bracket.**
-/

namespace TensorEquations

/-! ## Open brackets -/

/-- The number of open brackets behind a token. -/
def depthStep (depth : Nat) : TokenKind → Option Nat
  | .openParen => some (depth + 1)
  | .closeParen => if depth = 0 then none else some (depth - 1)
  | _ => some depth

/-- The number of open brackets behind some tokens, `depth` being open before them; there is none where a
bracket is closed that is not open. -/
def depthAfter (depth : Nat) (ks : List TokenKind) : Option Nat := ks.foldlM depthStep depth

theorem depthAfter_append (depth : Nat) (ks ks' : List TokenKind) :
    depthAfter depth (ks ++ ks') = (depthAfter depth ks).bind (depthAfter · ks') :=
  List.foldlM_append

/-- Tokens that close just the brackets that they open. -/
def IsBalanced (ks : List TokenKind) : Prop := ∀ depth, depthAfter depth ks = some depth

namespace IsBalanced

variable {ks ks' : List TokenKind} {kind : TokenKind}

theorem nil : IsBalanced [] := fun _ => rfl

theorem append (h : IsBalanced ks) (h' : IsBalanced ks') : IsBalanced (ks ++ ks') := fun depth => by
  rw [depthAfter_append, h depth]
  exact h' depth

/-- A token that is no round bracket. -/
theorem cons (hopen : kind ≠ .openParen) (hclose : kind ≠ .closeParen) (h : IsBalanced ks) :
    IsBalanced (kind :: ks) := fun depth => by
  have hstep : depthStep depth kind = some depth := by
    cases kind <;> first | rfl | contradiction
  rw [depthAfter, List.foldlM_cons, hstep]
  exact h depth

/-- Balanced tokens in brackets. -/
theorem paren (h : IsBalanced ks) : IsBalanced (.openParen :: (ks ++ [.closeParen])) := fun depth => by
  have hinner : depthAfter (depth + 1) (ks ++ [.closeParen]) = some depth := by
    rw [depthAfter_append, h (depth + 1)]
    rfl
  exact hinner

theorem names : ∀ ns : List NameToken, IsBalanced ((ns.map NameToken.token).map Token.kind)
  | [] => .nil
  | _ :: ns => .cons nofun nofun (names ns)

/-- Balanced tokens in front of a closing bracket end where the bracket is closed. -/
theorem eq_of_closed (h : IsBalanced ks) {ks' rest : List TokenKind} (hopen : (depthAfter 0 ks').isSome)
    (heq : ks ++ .closeParen :: rest = ks' ++ [.closeParen, .separator]) : ks = ks' ∧ rest = [.separator] := by
  rcases List.append_eq_append_iff.mp heq with ⟨more, rfl, hmore⟩ | ⟨more, rfl, hmore⟩
  · cases more with
    | nil => exact ⟨(List.append_nil ks).symm, (List.cons.inj hmore).2⟩
    | cons kind more =>
      obtain rfl : kind = .closeParen := (List.cons.inj hmore).1.symm
      -- the bracket would be closed inside of the text
      rw [depthAfter_append, h 0] at hopen
      exact nomatch hopen
  · match more, hmore with
    | [], hmore => exact ⟨List.append_nil ks', (List.cons.inj hmore).2.symm⟩
    | [_], hmore => exact nomatch (List.cons.inj (List.cons.inj hmore).2).1
    | [_, _], hmore => simp at hmore

end IsBalanced

theorem Operation.kind_ne (op : Operation) :
    op.kind ≠ .openParen ∧ op.kind ≠ .closeParen ∧ op.kind ≠ .separator := by
  cases op <;> exact ⟨nofun, nofun, nofun⟩

mutual

/-- **Derivations close just the brackets that they open.** -/
theorem SumTree.isBalanced : ∀ e : SumTree, IsBalanced (e.tokens.map Token.kind)
  | .product p => p.isBalanced
  | .binary l op _ _ r => by
    rw [SumTree.tokens, List.map_append, List.map_cons]
    exact l.isBalanced.append (.cons op.kind_ne.1 op.kind_ne.2.1 r.isBalanced)

theorem ProductTree.isBalanced : ∀ p : ProductTree, IsBalanced (p.tokens.map Token.kind)
  | .unary u => u.isBalanced
  | .binary l op _ _ r => by
    rw [ProductTree.tokens, List.map_append, List.map_cons]
    exact l.isBalanced.append (.cons op.kind_ne.1 op.kind_ne.2.1 r.isBalanced)

theorem UnaryTree.isBalanced : ∀ u : UnaryTree, IsBalanced (u.tokens.map Token.kind)
  | .atom a => a.isBalanced
  | .neg _ u => .cons nofun nofun u.isBalanced
  | .pos _ u => .cons nofun nofun u.isBalanced

theorem AtomTree.isBalanced : ∀ a : AtomTree, IsBalanced (a.tokens.map Token.kind)
  | .number _ _ => .cons nofun nofun .nil
  | .name _ => .cons nofun nofun .nil
  | .call _ _ _ => .cons nofun nofun (.paren .nil)
  | .callWith _ _ es _ => by
    rw [AtomTree.tokens, List.map_cons, List.map_cons, List.map_append]
    exact .cons nofun nofun es.isBalanced.paren
  | .labels _ ns _ => by
    rw [AtomTree.tokens, List.map_cons, List.map_append]
    exact .cons nofun nofun ((IsBalanced.names ns).append (.cons nofun nofun .nil))
  | .paren _ e _ => by
    rw [AtomTree.tokens, List.map_cons, List.map_append]
    exact e.isBalanced.paren

theorem ArgumentsTree.isBalanced : ∀ es : ArgumentsTree, IsBalanced (es.tokens.map Token.kind)
  | .last e => e.isBalanced
  | .more e _ rest => by
    rw [ArgumentsTree.tokens, List.map_append, List.map_cons]
    exact e.isBalanced.append (.cons nofun nofun rest.isBalanced)

end

/-! ## Other places -/

mutual

/-- **Tokens of the same kinds have a derivation of the same meaning**, places aside. -/
theorem SumTree.exists_moved : ∀ (e : SumTree) {ts : List Token}, ts.map Token.kind = e.tokens.map Token.kind →
    ∃ e' : SumTree, e'.tokens = ts ∧ e'.tree.unplaced = e.tree.unplaced
  | .product p, ts, h => by
    obtain ⟨p', rfl, htree⟩ := p.exists_moved h
    exact ⟨.product p', rfl, htree⟩
  | .binary l op hop _ r, ts, h => by
    rw [SumTree.tokens, List.map_append, List.map_cons] at h
    obtain ⟨us, rest, rfl, hus, hrest⟩ := List.map_eq_append_iff.mp h
    obtain ⟨place, vs, rfl, hvs⟩ := exists_token hrest
    obtain ⟨l', rfl, hl⟩ := l.exists_moved hus
    obtain ⟨r', rfl, hr⟩ := r.exists_moved hvs
    exact ⟨.binary l' op hop place r', rfl, by simp only [SumTree.tree, Expression.unplaced, hl, hr]⟩

theorem ProductTree.exists_moved : ∀ (p : ProductTree) {ts : List Token},
    ts.map Token.kind = p.tokens.map Token.kind →
    ∃ p' : ProductTree, p'.tokens = ts ∧ p'.tree.unplaced = p.tree.unplaced
  | .unary u, ts, h => by
    obtain ⟨u', rfl, htree⟩ := u.exists_moved h
    exact ⟨.unary u', rfl, htree⟩
  | .binary l op hop _ r, ts, h => by
    rw [ProductTree.tokens, List.map_append, List.map_cons] at h
    obtain ⟨us, rest, rfl, hus, hrest⟩ := List.map_eq_append_iff.mp h
    obtain ⟨place, vs, rfl, hvs⟩ := exists_token hrest
    obtain ⟨l', rfl, hl⟩ := l.exists_moved hus
    obtain ⟨r', rfl, hr⟩ := r.exists_moved hvs
    exact ⟨.binary l' op hop place r', rfl, by simp only [ProductTree.tree, Expression.unplaced, hl, hr]⟩

theorem UnaryTree.exists_moved : ∀ (u : UnaryTree) {ts : List Token},
    ts.map Token.kind = u.tokens.map Token.kind →
    ∃ u' : UnaryTree, u'.tokens = ts ∧ u'.tree.unplaced = u.tree.unplaced
  | .atom a, ts, h => by
    obtain ⟨a', rfl, htree⟩ := a.exists_moved h
    exact ⟨.atom a', rfl, htree⟩
  | .neg _ u, ts, h => by
    obtain ⟨place, us, rfl, hus⟩ := exists_token h
    obtain ⟨u', rfl, htree⟩ := u.exists_moved hus
    exact ⟨.neg place u', rfl, by simp only [UnaryTree.tree, Expression.unplaced, htree]⟩
  | .pos _ u, ts, h => by
    obtain ⟨place, us, rfl, hus⟩ := exists_token h
    obtain ⟨u', rfl, htree⟩ := u.exists_moved hus
    exact ⟨.pos place u', rfl, by simp only [UnaryTree.tree, htree]⟩

theorem AtomTree.exists_moved : ∀ (a : AtomTree) {ts : List Token},
    ts.map Token.kind = a.tokens.map Token.kind →
    ∃ a' : AtomTree, a'.tokens = ts ∧ a'.tree.unplaced = a.tree.unplaced
  | .number n _, ts, h => by
    obtain ⟨place, rfl⟩ := exists_last h
    exact ⟨.number n place, rfl, rfl⟩
  | .name n, ts, h => by
    obtain ⟨place, rfl⟩ := exists_last h
    exact ⟨.name ⟨n.text, place⟩, rfl, rfl⟩
  | .call f _ _, ts, h => by
    obtain ⟨place, rest, rfl, hrest⟩ := exists_token h
    obtain ⟨opening, rest, rfl, hbehind⟩ := exists_token hrest
    obtain ⟨closing, rfl⟩ := exists_last hbehind
    exact ⟨.call ⟨f.text, place⟩ opening closing, rfl, rfl⟩
  | .callWith f _ es _, ts, h => by
    obtain ⟨place, rest, rfl, hrest⟩ := exists_token h
    obtain ⟨opening, rest, rfl, hbehind⟩ := exists_token hrest
    rw [List.map_append] at hbehind
    obtain ⟨us, vs, rfl, hus, hvs⟩ := List.map_eq_append_iff.mp hbehind
    obtain ⟨closing, rfl⟩ := exists_last hvs
    obtain ⟨es', rfl, htrees⟩ := es.exists_moved hus
    exact ⟨.callWith ⟨f.text, place⟩ opening es' closing, rfl,
      by simp only [AtomTree.tree, Expression.unplaced, htrees]⟩
  | .labels _ ns _, ts, h => by
    obtain ⟨opening, rest, rfl, hrest⟩ := exists_token h
    rw [List.map_append] at hrest
    obtain ⟨us, vs, rfl, hus, hvs⟩ := List.map_eq_append_iff.mp hrest
    obtain ⟨closing, rfl⟩ := exists_last hvs
    have hnames : us.map Token.kind = (ns.map NameToken.text).map .name := by
      rw [hus, List.map_map, List.map_map]
      rfl
    obtain ⟨ns', rfl, htexts⟩ := exists_names hnames
    exact ⟨.labels opening ns' closing, rfl, by simp only [AtomTree.tree, htexts]⟩
  | .paren _ e _, ts, h => by
    obtain ⟨opening, rest, rfl, hrest⟩ := exists_token h
    rw [List.map_append] at hrest
    obtain ⟨us, vs, rfl, hus, hvs⟩ := List.map_eq_append_iff.mp hrest
    obtain ⟨closing, rfl⟩ := exists_last hvs
    obtain ⟨e', rfl, htree⟩ := e.exists_moved hus
    exact ⟨.paren opening e' closing, rfl, htree⟩

theorem ArgumentsTree.exists_moved : ∀ (es : ArgumentsTree) {ts : List Token},
    ts.map Token.kind = es.tokens.map Token.kind →
    ∃ es' : ArgumentsTree, es'.tokens = ts ∧
      Expression.unplacedAll es'.trees = Expression.unplacedAll es.trees
  | .last e, ts, h => by
    obtain ⟨e', rfl, htree⟩ := e.exists_moved h
    exact ⟨.last e', rfl, by simp only [ArgumentsTree.trees, Expression.unplacedAll, htree]⟩
  | .more e _ rest, ts, h => by
    rw [ArgumentsTree.tokens, List.map_append, List.map_cons] at h
    obtain ⟨us, behind, rfl, hus, hbehind⟩ := List.map_eq_append_iff.mp h
    obtain ⟨comma, vs, rfl, hvs⟩ := exists_token hbehind
    obtain ⟨e', rfl, htree⟩ := e.exists_moved hus
    obtain ⟨rest', rfl, htrees⟩ := rest.exists_moved hvs
    exact ⟨.more e' comma rest', rfl, by simp only [ArgumentsTree.trees, Expression.unplacedAll, htree, htrees]⟩

end

theorem StatementTree.exists_moved : ∀ (s : StatementTree) {ts : List Token},
    ts.map Token.kind = s.tokens.map Token.kind →
    ∃ s' : StatementTree, s'.tokens = ts ∧ s'.tree.unplaced = s.tree.unplaced
  | .expression e, ts, h => by
    obtain ⟨e', rfl, htree⟩ := e.exists_moved h
    exact ⟨.expression e', rfl, congrArg Statement.value htree⟩
  | .assignment n _ e, ts, h => by
    obtain ⟨place, rest, rfl, hrest⟩ := exists_token h
    obtain ⟨equals, us, rfl, hus⟩ := exists_token hrest
    obtain ⟨e', rfl, htree⟩ := e.exists_moved hus
    exact ⟨.assignment ⟨n.text, place⟩ equals e', rfl, congrArg (Statement.assign n.text) htree⟩

theorem exists_moved_optional : ∀ (s : Option StatementTree) {ts : List Token},
    ts.map Token.kind = (optionalTokens s).map Token.kind →
    ∃ s' : Option StatementTree, optionalTokens s' = ts ∧
      s'.map (·.tree.unplaced) = s.map (·.tree.unplaced)
  | none, _, h => ⟨none, (List.map_eq_nil_iff.mp h).symm, rfl⟩
  | some s, _, h => by
    obtain ⟨s', rfl, htree⟩ := s.exists_moved h
    exact ⟨some s', rfl, congrArg some htree⟩

theorem exists_moved_separated : ∀ (rest : List (Place × Option StatementTree)) {ts : List Token},
    ts.map Token.kind = (separatedTokens rest).map Token.kind →
    ∃ rest' : List (Place × Option StatementTree), separatedTokens rest' = ts ∧
      rest'.map (·.2.map (·.tree.unplaced)) = rest.map (·.2.map (·.tree.unplaced))
  | [], _, h => ⟨[], (List.map_eq_nil_iff.mp h).symm, rfl⟩
  | (_, s) :: rest, ts, h => by
    rw [separatedTokens, List.flatMap_cons, List.cons_append, List.map_cons, List.map_append] at h
    obtain ⟨place, later, rfl, hlater⟩ := exists_token h
    obtain ⟨us, vs, rfl, hus, hvs⟩ := List.map_eq_append_iff.mp hlater
    obtain ⟨s', rfl, hs⟩ := exists_moved_optional s hus
    obtain ⟨rest', rfl, hrest⟩ := exists_moved_separated rest hvs
    exact ⟨(place, s') :: rest', rfl, by rw [List.map_cons, List.map_cons, hs, hrest]⟩

/-- The statements of a derivation without places. -/
theorem ProgramTree.map_unplaced_statements (d : ProgramTree) : d.statements.map Statement.unplaced =
    (d.first.map (·.tree.unplaced) :: d.rest.map (·.2.map (·.tree.unplaced))).filterMap id := by
  rw [statements, List.map_filterMap]
  simp only [List.filterMap_cons, List.filterMap_map, Option.map_map, Function.comp_def, id]

/-- **Tokens of the same kinds have a derivation of the same meaning**, for programs. -/
theorem ProgramTree.exists_moved (d : ProgramTree) {ts : List Token}
    (h : ts.map Token.kind = d.tokens.map Token.kind) :
    ∃ d' : ProgramTree, d'.tokens = ts ∧ d'.statements.map Statement.unplaced = d.statements.map Statement.unplaced := by
  rw [tokens, List.map_append] at h
  obtain ⟨us, vs, rfl, hus, hvs⟩ := List.map_eq_append_iff.mp h
  obtain ⟨first', rfl, hfirst⟩ := exists_moved_optional d.first hus
  obtain ⟨rest', rfl, hrest⟩ := exists_moved_separated d.rest hvs
  exact ⟨⟨first', rest'⟩, rfl, by rw [map_unplaced_statements, map_unplaced_statements, hfirst, hrest]⟩

/-! ## Text in the brackets of a call -/

/-- Operations are no separators. -/
theorem steps_eq_nil {α : Type} {n : Nat} {tokens : α → List Token} {rest : List Token} :
    ∀ {steps : List (ChainStep α n)},
      (steps.flatMap (ChainStep.tokens tokens) ++ rest).map Token.kind = [.separator] → steps = []
  | [], _ => rfl
  | step :: _, h => absurd (List.cons.inj h).1 step.op.kind_ne.2.2

theorem ArgumentsTree.trees_ne_nil (es : ArgumentsTree) : es.trees ≠ [] := by
  cases es <;> exact List.cons_ne_nil _ _

/-- The arguments of a call, if there are any. -/
def argumentTrees (es : Option ArgumentsTree) : List Expression := (es.map ArgumentsTree.trees).getD []

def argumentTokens (es : Option ArgumentsTree) : List Token := (es.map ArgumentsTree.tokens).getD []

variable {f : String} {ks : List TokenKind}

/-- An operand with a bracket behind its name is a call, and text that leaves the bracket open is its
arguments. -/
theorem AtomTree.exists_call {a : AtomTree} {rest : List Token} (hrest : Stops 3 rest)
    (h : (a.tokens ++ rest).map Token.kind = .name f :: .openParen :: (ks ++ [.closeParen, .separator]))
    (hopen : (depthAfter 0 ks).isSome) : ∃ place es, a.tree = .call f place (argumentTrees es) ∧
      (argumentTokens es).map Token.kind = ks ∧ rest.map Token.kind = [.separator] := by
  cases a with
  | name n =>
    obtain ⟨-, hbehind⟩ := List.cons.inj h
    obtain ⟨place, behind, rfl, -⟩ := exists_token hbehind
    exact absurd hrest (not_stops_openParen place behind)
  | call g opening closing =>
    simp only [tokens, List.cons_append, List.nil_append, List.map_cons, List.cons.injEq, true_and] at h
    obtain ⟨hname, hbehind⟩ := h
    obtain rfl := TokenKind.name.inj hname
    obtain ⟨hempty, hrest⟩ := IsBalanced.nil.eq_of_closed hopen hbehind
    exact ⟨g.place, none, rfl, hempty, hrest⟩
  | callWith g opening es closing =>
    simp only [tokens, List.cons_append, List.append_assoc, List.nil_append, List.map_cons, List.map_append,
      List.cons.injEq, true_and] at h
    obtain ⟨hname, hbehind⟩ := h
    obtain rfl := TokenKind.name.inj hname
    obtain ⟨hes, hrest⟩ := es.isBalanced.eq_of_closed hopen hbehind
    exact ⟨g.place, some es, rfl, hes, hrest⟩
  | _ => exact nomatch (List.cons.inj h).1

theorem SumTree.exists_call {e : SumTree} {rest : List Token} (hrest : EndsStatement rest)
    (h : (e.tokens ++ rest).map Token.kind = .name f :: .openParen :: (ks ++ [.closeParen, .separator]))
    (hopen : (depthAfter 0 ks).isSome) : ∃ place es, e.tree = .call f place (argumentTrees es) ∧
      (argumentTokens es).map Token.kind = ks ∧ rest.map Token.kind = [.separator] := by
  obtain ⟨p, steps, rfl⟩ := e.exists_extend
  obtain ⟨u, steps', rfl⟩ := p.exists_extend
  rw [tokens_extend, tokens, ProductTree.tokens_extend, ProductTree.tokens, List.append_assoc,
    List.append_assoc] at h
  have hsteps : Stops 2 (steps.flatMap (ChainStep.tokens ProductTree.tokens) ++ rest) :=
    hrest.stops.chain steps
  cases u with
  | atom a =>
    obtain ⟨place, es, hcall, hks, hbehind⟩ := AtomTree.exists_call (hsteps.chain steps') h hopen
    obtain rfl := steps_eq_nil hbehind
    rw [List.flatMap_nil, List.nil_append] at hbehind
    obtain rfl := steps_eq_nil hbehind
    exact ⟨place, es, hcall, hks, hbehind⟩
  | neg => exact nomatch (List.cons.inj h).1
  | pos => exact nomatch (List.cons.inj h).1

/-- One separator stands in front of no statement. -/
theorem exists_of_separatedTokens {rest : List (Place × Option StatementTree)}
    (h : (separatedTokens rest).map Token.kind = [.separator]) : ∃ place, rest = [(place, none)] := by
  rcases rest with _ | ⟨⟨place, _ | s⟩, rest⟩
  · cases h
  · rcases rest with _ | ⟨⟨place', statement⟩, rest⟩
    · exact ⟨place, rfl⟩
    · simp [separatedTokens, optionalTokens] at h
  · obtain ⟨t, ts, hs, -⟩ := s.exists_head
    simp [separatedTokens, optionalTokens, hs] at h

/-- **Text in the brackets of a call is the arguments of the call** unless it closes the bracket. -/
theorem ProgramTree.exists_call {d : ProgramTree} {target : String}
    (h : d.tokens.map Token.kind =
      .name target :: .equals :: .name f :: .openParen :: (ks ++ [.closeParen, .separator]))
    (hopen : (depthAfter 0 ks).isSome) : ∃ place es,
      d.statements = [.assign target (.call f place (argumentTrees es))] ∧
        (argumentTokens es).map Token.kind = ks := by
  obtain ⟨first, rest⟩ := d
  have hends := endsStatement_separatedTokens rest
  rw [tokens] at h
  rcases first with _ | statement
  · obtain ⟨place, behind, hrest, -⟩ := exists_token h
    rw [show separatedTokens rest = _ from hrest] at hends
    cases hends _ rfl
  cases statement with
  | expression e =>
    obtain ⟨place, behind, htokens, hbehind⟩ := exists_token h
    obtain ⟨equals, behind, rfl, -⟩ := exists_token hbehind
    exact absurd htokens (assignment_ne_expression (m := ⟨target, place⟩) hends)
  | assignment n equals e =>
    obtain ⟨hname, hbehind⟩ := List.cons.inj h
    obtain rfl := TokenKind.name.inj hname
    obtain ⟨place, es, hcall, hks, hrest⟩ := SumTree.exists_call hends (List.cons.inj hbehind).2 hopen
    obtain ⟨separator, rfl⟩ := exists_of_separatedTokens hrest
    exact ⟨place, es, by simp [statements, StatementTree.tree, hcall], hks⟩

end TensorEquations
