import Mathlib
import TensorEquations.Expression.Parser

/-!
# The grammar of programs

The derivations of the grammar

    program: [statement] (SEP [statement])*
    statement: NAME "=" sum | sum
    sum: product | sum "+" product | sum "-" product
    product: unary | product "*" unary | product "/" unary
    unary: atom | "-" unary | "+" unary
    atom: NUMBER | NAME | NAME "(" [arguments] ")" | "{" NAME* "}" | "(" sum ")"
    arguments: sum ("," sum)*

are the values of the types `ProgramTree`, `StatementTree`, `SumTree`, `ProductTree`, `UnaryTree`,
`AtomTree` and `ArgumentsTree`.

* `tokens` — the tokens that a derivation derives.
* `tree` — what it means: the syntax without brackets, without `+` signs and without empty
  statements.
* `ProgramTree.tokens_injective` — no tokens have two derivations.
-/

namespace TensorEquations

/-- The token of an operation. -/
def Operation.kind : Operation → TokenKind
  | add => .plus
  | sub => .minus
  | mul => .star
  | div => .slash

/-- A name with its place. -/
structure NameToken where
  text : String
  place : Place

def NameToken.token (n : NameToken) : Token := ⟨.name n.text, n.place⟩

/-! ## Derivations -/

mutual

/-- A derivation of a sum. -/
inductive SumTree where
  | product (p : ProductTree)
  | binary (l : SumTree) (op : Operation) (h : op.strength = 1) (place : Place) (r : ProductTree)

/-- A derivation of a product. -/
inductive ProductTree where
  | unary (u : UnaryTree)
  | binary (l : ProductTree) (op : Operation) (h : op.strength = 2) (place : Place) (r : UnaryTree)

/-- A derivation of an operand with signs. -/
inductive UnaryTree where
  | atom (a : AtomTree)
  | neg (place : Place) (u : UnaryTree)
  | pos (place : Place) (u : UnaryTree)

/-- A derivation of an operand. -/
inductive AtomTree where
  | number (n : Numeral) (place : Place)
  | name (n : NameToken)
  | call (f : NameToken) (opening closing : Place)
  | callWith (f : NameToken) (opening : Place) (arguments : ArgumentsTree) (closing : Place)
  | labels (opening : Place) (names : List NameToken) (closing : Place)
  | paren (opening : Place) (e : SumTree) (closing : Place)

/-- A derivation of arguments. -/
inductive ArgumentsTree where
  | last (e : SumTree)
  | more (e : SumTree) (comma : Place) (rest : ArgumentsTree)

end

/-- A derivation of a statement. -/
inductive StatementTree where
  | assignment (n : NameToken) (equals : Place) (e : SumTree)
  | expression (e : SumTree)

/-- A derivation of a program: statements, some of them empty, with separators between them. -/
structure ProgramTree where
  first : Option StatementTree
  rest : List (Place × Option StatementTree)

/-! ## The tokens of a derivation -/

mutual

def SumTree.tokens : SumTree → List Token
  | .product p => p.tokens
  | .binary l op _ place r => l.tokens ++ ⟨op.kind, place⟩ :: r.tokens

def ProductTree.tokens : ProductTree → List Token
  | .unary u => u.tokens
  | .binary l op _ place r => l.tokens ++ ⟨op.kind, place⟩ :: r.tokens

def UnaryTree.tokens : UnaryTree → List Token
  | .atom a => a.tokens
  | .neg place u => ⟨.minus, place⟩ :: u.tokens
  | .pos place u => ⟨.plus, place⟩ :: u.tokens

def AtomTree.tokens : AtomTree → List Token
  | .number n place => [⟨.number n, place⟩]
  | .name n => [n.token]
  | .call f opening closing => [f.token, ⟨.openParen, opening⟩, ⟨.closeParen, closing⟩]
  | .callWith f opening es closing =>
    f.token :: ⟨.openParen, opening⟩ :: (es.tokens ++ [⟨.closeParen, closing⟩])
  | .labels opening names closing =>
    ⟨.openBrace, opening⟩ :: (names.map NameToken.token ++ [⟨.closeBrace, closing⟩])
  | .paren opening e closing => ⟨.openParen, opening⟩ :: (e.tokens ++ [⟨.closeParen, closing⟩])

def ArgumentsTree.tokens : ArgumentsTree → List Token
  | .last e => e.tokens
  | .more e comma rest => e.tokens ++ ⟨.comma, comma⟩ :: rest.tokens

end

def StatementTree.tokens : StatementTree → List Token
  | assignment n equals e => n.token :: ⟨.equals, equals⟩ :: e.tokens
  | expression e => e.tokens

/-- The tokens of a statement that may be empty. -/
def optionalTokens (s : Option StatementTree) : List Token := (s.map StatementTree.tokens).getD []

/-- The tokens of further statements, each behind its separator. -/
def separatedTokens (rest : List (Place × Option StatementTree)) : List Token :=
  rest.flatMap fun s => ⟨.separator, s.1⟩ :: optionalTokens s.2

def ProgramTree.tokens (p : ProgramTree) : List Token := optionalTokens p.first ++ separatedTokens p.rest

/-! ## The meaning of a derivation -/

mutual

def SumTree.tree : SumTree → Expression
  | .product p => p.tree
  | .binary l op _ _ r => .binary op l.tree r.tree

def ProductTree.tree : ProductTree → Expression
  | .unary u => u.tree
  | .binary l op _ _ r => .binary op l.tree r.tree

def UnaryTree.tree : UnaryTree → Expression
  | .atom a => a.tree
  | .neg _ u => .neg u.tree
  | .pos _ u => u.tree

def AtomTree.tree : AtomTree → Expression
  | .number n _ => .number n
  | .name n => .name n.text n.place
  | .call f _ _ => .call f.text f.place []
  | .callWith f _ es _ => .call f.text f.place es.trees
  | .labels _ names _ => .labels (names.map NameToken.text)
  | .paren _ e _ => e.tree

def ArgumentsTree.trees : ArgumentsTree → List Expression
  | .last e => [e.tree]
  | .more e _ rest => e.tree :: rest.trees

end

def StatementTree.tree : StatementTree → Statement
  | assignment n _ e => .assign n.text e.tree
  | expression e => .value e.tree

/-- The statements of a derivation; empty ones are left out. -/
def ProgramTree.statements (p : ProgramTree) : Program :=
  (p.first :: p.rest.map Prod.snd).filterMap (·.map StatementTree.tree)

/-! ## How derivations begin -/

/-- Whether a token may begin an operand. -/
def TokenKind.beginsOperand : TokenKind → Bool
  | number _ | name _ | plus | minus | openParen | openBrace => true
  | _ => false

theorem AtomTree.exists_head (a : AtomTree) : ∃ t ts, a.tokens = t :: ts ∧ t.kind.beginsOperand ∧
    t.kind ≠ .plus ∧ t.kind ≠ .minus := by
  cases a <;> exact ⟨_, _, rfl, rfl, by simp [NameToken.token], by simp [NameToken.token]⟩

theorem UnaryTree.exists_head (u : UnaryTree) : ∃ t ts, u.tokens = t :: ts ∧ t.kind.beginsOperand := by
  cases u with
  | atom a =>
    obtain ⟨t, ts, h, hbegins, -⟩ := a.exists_head
    exact ⟨t, ts, h, hbegins⟩
  | _ => exact ⟨_, _, rfl, rfl⟩

theorem ProductTree.exists_head : ∀ p : ProductTree, ∃ t ts, p.tokens = t :: ts ∧ t.kind.beginsOperand
  | .unary u => u.exists_head
  | .binary l _ _ _ _ => by
    obtain ⟨t, ts, h, hbegins⟩ := l.exists_head
    exact ⟨t, _, by rw [tokens, h, List.cons_append], hbegins⟩

theorem SumTree.exists_head : ∀ s : SumTree, ∃ t ts, s.tokens = t :: ts ∧ t.kind.beginsOperand
  | .product p => p.exists_head
  | .binary l _ _ _ _ => by
    obtain ⟨t, ts, h, hbegins⟩ := l.exists_head
    exact ⟨t, _, by rw [tokens, h, List.cons_append], hbegins⟩

theorem ArgumentsTree.exists_head : ∀ es : ArgumentsTree, ∃ t ts, es.tokens = t :: ts ∧ t.kind.beginsOperand
  | .last e => e.exists_head
  | .more e _ _ => by
    obtain ⟨t, ts, h, hbegins⟩ := e.exists_head
    exact ⟨t, _, by rw [tokens, h, List.cons_append], hbegins⟩

/-! ## Chains of operations

A sum is a product and a list of further ones with their operations, and a product such a list of
operands. -/

/-- A further operand of a chain of operations of one strength. -/
structure ChainStep (α : Type) (strength : Nat) where
  op : Operation
  h : op.strength = strength
  place : Place
  operand : α

variable {α : Type} {n : Nat}

def ChainStep.tokens (tokens : α → List Token) (s : ChainStep α n) : List Token :=
  ⟨s.op.kind, s.place⟩ :: tokens s.operand

/-- The sum with further products. -/
def SumTree.extend (s : SumTree) (steps : List (ChainStep ProductTree 1)) : SumTree :=
  steps.foldl (fun l step => .binary l step.op step.h step.place step.operand) s

/-- The product with further operands. -/
def ProductTree.extend (p : ProductTree) (steps : List (ChainStep UnaryTree 2)) : ProductTree :=
  steps.foldl (fun l step => .binary l step.op step.h step.place step.operand) p

theorem SumTree.tokens_extend : ∀ (s : SumTree) (steps : List (ChainStep ProductTree 1)),
    (s.extend steps).tokens = s.tokens ++ steps.flatMap (ChainStep.tokens ProductTree.tokens)
  | s, [] => (List.append_nil _).symm
  | s, step :: steps => by
    rw [extend, List.foldl_cons]
    refine (tokens_extend _ steps).trans ?_
    rw [tokens, List.flatMap_cons, List.append_assoc]
    rfl

theorem ProductTree.tokens_extend : ∀ (p : ProductTree) (steps : List (ChainStep UnaryTree 2)),
    (p.extend steps).tokens = p.tokens ++ steps.flatMap (ChainStep.tokens UnaryTree.tokens)
  | p, [] => (List.append_nil _).symm
  | p, step :: steps => by
    rw [extend, List.foldl_cons]
    refine (tokens_extend _ steps).trans ?_
    rw [tokens, List.flatMap_cons, List.append_assoc]
    rfl

theorem SumTree.exists_extend : ∀ s : SumTree, ∃ p steps, s = (SumTree.product p).extend steps
  | .product p => ⟨p, [], rfl⟩
  | .binary l op h place r => by
    obtain ⟨p, steps, rfl⟩ := l.exists_extend
    exact ⟨p, steps ++ [⟨op, h, place, r⟩], by rw [extend, extend, List.foldl_append]; rfl⟩

theorem ProductTree.exists_extend : ∀ p : ProductTree, ∃ u steps, p = (ProductTree.unary u).extend steps
  | .unary u => ⟨u, [], rfl⟩
  | .binary l op h place r => by
    obtain ⟨u, steps, rfl⟩ := l.exists_extend
    exact ⟨u, steps ++ [⟨op, h, place, r⟩], by rw [extend, extend, List.foldl_append]; rfl⟩

/-! ## Unambiguity -/

/-- What follows neither goes on with an operation of at least some strength nor makes a call of a
name. -/
def Stops (strength : Nat) (rest : List Token) : Prop :=
  ∀ t ∈ rest.head?, t.kind ≠ .openParen ∧ ∀ op : Operation, t.kind = op.kind → op.strength < strength

/-- The tokens of `a` are those of no other derivation, whatever stands behind them. -/
def IsUnique (tokens : α → List Token) (strength : Nat) (a : α) : Prop :=
  ∀ (a' : α) (rest rest' : List Token), tokens a ++ rest = tokens a' ++ rest' →
    Stops strength rest → Stops strength rest' → a = a' ∧ rest = rest'

theorem Operation.kind_injective {op op' : Operation} (h : op.kind = op'.kind) : op = op' := by
  cases op <;> cases op' <;> first | rfl | exact nomatch h

theorem Stops.mono {m n : Nat} (h : m ≤ n) {rest : List Token} (hrest : Stops m rest) : Stops n rest :=
  fun t ht => ⟨(hrest t ht).1, fun op hop => Nat.lt_of_lt_of_le ((hrest t ht).2 op hop) h⟩

theorem Stops.operation {op : Operation} (h : op.strength < n) (place : Place) (rest : List Token) :
    Stops n (⟨op.kind, place⟩ :: rest) := by
  rintro _ ⟨⟩
  refine ⟨by cases op <;> exact nofun, fun op' hop => ?_⟩
  obtain rfl := Operation.kind_injective hop
  exact h

/-- A further operand does not stop its chain. -/
theorem not_stops_steps {tokens : α → List Token} (step : ChainStep α n) (steps : List (ChainStep α n))
    (rest : List Token) : ¬ Stops n ((step :: steps).flatMap (ChainStep.tokens tokens) ++ rest) := fun h =>
  absurd ((h _ rfl).2 step.op rfl) (Nat.not_lt.mpr (Nat.le_of_eq step.h.symm))

/-- A chain stops its operands. -/
theorem Stops.chain {tokens : α → List Token} {rest : List Token} (h : Stops n rest) :
    ∀ steps : List (ChainStep α n), Stops (n + 1) (steps.flatMap (ChainStep.tokens tokens) ++ rest)
  | [] => h.mono (Nat.le_succ n)
  | step :: _ => .operation (Nat.lt_succ_of_le (Nat.le_of_eq step.h)) _ _

/-- **Chains are unique if their operands are.** -/
theorem IsUnique.chain {tokens : α → List Token} : ∀ {a a' : α} {steps steps' : List (ChainStep α n)}
    {rest rest' : List Token}, IsUnique tokens (n + 1) a →
    (∀ step ∈ steps, IsUnique tokens (n + 1) step.operand) →
    tokens a ++ (steps.flatMap (ChainStep.tokens tokens) ++ rest) =
      tokens a' ++ (steps'.flatMap (ChainStep.tokens tokens) ++ rest') →
    Stops n rest → Stops n rest' → a = a' ∧ steps = steps' ∧ rest = rest'
  | a, a', steps, steps', rest, rest', ha, hsteps, h, hrest, hrest' => by
    obtain ⟨rfl, hchain⟩ := ha a' _ _ h (hrest.chain steps) (hrest'.chain steps')
    match steps, steps' with
    | [], [] => exact ⟨rfl, rfl, hchain⟩
    | [], step :: steps =>
      rw [show rest = _ from hchain] at hrest
      exact absurd hrest (not_stops_steps step steps rest')
    | step :: steps, [] =>
      rw [show rest' = _ from hchain.symm] at hrest'
      exact absurd hrest' (not_stops_steps step steps rest)
    | ⟨op, hop, place, b⟩ :: steps, ⟨op', hop', place', b'⟩ :: steps' =>
      obtain ⟨hb, hsteps⟩ := List.forall_mem_cons.mp hsteps
      simp only [List.flatMap_cons, ChainStep.tokens, List.cons_append, List.append_assoc, List.cons.injEq,
        Token.mk.injEq] at hchain
      obtain ⟨⟨hkind, rfl⟩, hchain⟩ := hchain
      obtain rfl := Operation.kind_injective hkind
      obtain ⟨rfl, rfl, rfl⟩ := IsUnique.chain hb hsteps hchain hrest hrest'
      exact ⟨rfl, rfl, rfl⟩

/-- Neither a call nor an operation begins with one of these. -/
theorem Stops.ending {kind : TokenKind} (h : kind ∈ [.closeParen, .comma, .separator, .equals])
    (place : Place) (rest : List Token) : Stops n (⟨kind, place⟩ :: rest) := by
  rintro _ ⟨⟩
  simp only [List.mem_cons, List.not_mem_nil, or_false] at h
  obtain rfl | rfl | rfl | rfl := h <;> exact ⟨nofun, by rintro (_ | _ | _ | _) <;> nofun⟩

theorem not_stops_openParen (place : Place) (rest : List Token) : ¬ Stops n (⟨.openParen, place⟩ :: rest) :=
  fun h => (h _ rfl).1 rfl

theorem NameToken.token_injective {a b : NameToken} (h : a.token = b.token) : a = b := by
  obtain ⟨_, _⟩ := a
  obtain ⟨_, _⟩ := b
  simp only [token, Token.mk.injEq, TokenKind.name.injEq] at h
  rw [h.1, h.2]

/-- Names in front of a closing brace are unique. -/
theorem names_unique : ∀ {ns ns' : List NameToken} {p p' : Place} {rest rest' : List Token},
    ns.map NameToken.token ++ ⟨.closeBrace, p⟩ :: rest =
      ns'.map NameToken.token ++ ⟨.closeBrace, p'⟩ :: rest' →
    ns = ns' ∧ p = p' ∧ rest = rest'
  | [], [], _, _, _, _, h => by simpa using h
  | [], _ :: _, _, _, _, _, h => by simp [NameToken.token] at h
  | _ :: _, [], _, _, _, _, h => by simp [NameToken.token] at h
  | _ :: _, _ :: _, _, _, _, _, h => by
    rw [List.map_cons, List.map_cons, List.cons_append, List.cons_append, List.cons.injEq] at h
    obtain ⟨hn, h⟩ := h
    obtain rfl := NameToken.token_injective hn
    obtain ⟨rfl, rfl, rfl⟩ := names_unique h
    exact ⟨rfl, rfl, rfl⟩

mutual

theorem SumTree.extend_isUnique : ∀ (s : SumTree) (steps : List (ChainStep ProductTree 1)),
    (∀ step ∈ steps, IsUnique ProductTree.tokens 2 step.operand) →
    IsUnique SumTree.tokens 1 (s.extend steps)
  | .product p, steps, hsteps => by
    intro s' rest rest' h hrest hrest'
    obtain ⟨p', steps', rfl⟩ := s'.exists_extend
    rw [SumTree.tokens_extend, SumTree.tokens_extend, List.append_assoc, List.append_assoc] at h
    obtain ⟨rfl, rfl, rfl⟩ := IsUnique.chain (p.extend_isUnique [] nofun) hsteps h hrest hrest'
    exact ⟨rfl, rfl⟩
  | .binary l op h place r, steps, hsteps =>
    l.extend_isUnique (⟨op, h, place, r⟩ :: steps)
      (List.forall_mem_cons.mpr ⟨r.extend_isUnique [] nofun, hsteps⟩)

theorem ProductTree.extend_isUnique : ∀ (p : ProductTree) (steps : List (ChainStep UnaryTree 2)),
    (∀ step ∈ steps, IsUnique UnaryTree.tokens 3 step.operand) →
    IsUnique ProductTree.tokens 2 (p.extend steps)
  | .unary u, steps, hsteps => by
    intro p' rest rest' h hrest hrest'
    obtain ⟨u', steps', rfl⟩ := p'.exists_extend
    rw [ProductTree.tokens_extend, ProductTree.tokens_extend, List.append_assoc, List.append_assoc] at h
    obtain ⟨rfl, rfl, rfl⟩ := IsUnique.chain u.isUnique hsteps h hrest hrest'
    exact ⟨rfl, rfl⟩
  | .binary l op h place r, steps, hsteps =>
    l.extend_isUnique (⟨op, h, place, r⟩ :: steps) (List.forall_mem_cons.mpr ⟨r.isUnique, hsteps⟩)

theorem UnaryTree.isUnique : ∀ u : UnaryTree, IsUnique UnaryTree.tokens 3 u
  | .atom a => by
    intro u' rest rest' h hrest hrest'
    obtain ⟨t, ts, ha, -, hplus, hminus⟩ := a.exists_head
    cases u' with
    | atom a' =>
      obtain ⟨rfl, rfl⟩ := a.isUnique a' rest rest' h hrest hrest'
      exact ⟨rfl, rfl⟩
    | neg place u' =>
      simp only [UnaryTree.tokens, ha, List.cons_append, List.cons.injEq] at h
      exact absurd (congrArg Token.kind h.1) hminus
    | pos place u' =>
      simp only [UnaryTree.tokens, ha, List.cons_append, List.cons.injEq] at h
      exact absurd (congrArg Token.kind h.1) hplus
  | .neg place u => by
    intro u' rest rest' h hrest hrest'
    cases u' with
    | atom a' =>
      obtain ⟨t, ts, ha, -, -, hminus⟩ := a'.exists_head
      simp only [UnaryTree.tokens, ha, List.cons_append, List.cons.injEq] at h
      exact absurd (congrArg Token.kind h.1.symm) hminus
    | neg place' u' =>
      simp only [UnaryTree.tokens, List.cons_append, List.cons.injEq, Token.mk.injEq, true_and] at h
      obtain ⟨rfl, h⟩ := h
      obtain ⟨rfl, rfl⟩ := u.isUnique u' rest rest' h hrest hrest'
      exact ⟨rfl, rfl⟩
    | pos place' u' => simp [UnaryTree.tokens] at h
  | .pos place u => by
    intro u' rest rest' h hrest hrest'
    cases u' with
    | atom a' =>
      obtain ⟨t, ts, ha, -, hplus, -⟩ := a'.exists_head
      simp only [UnaryTree.tokens, ha, List.cons_append, List.cons.injEq] at h
      exact absurd (congrArg Token.kind h.1.symm) hplus
    | neg place' u' => simp [UnaryTree.tokens] at h
    | pos place' u' =>
      simp only [UnaryTree.tokens, List.cons_append, List.cons.injEq, Token.mk.injEq, true_and] at h
      obtain ⟨rfl, h⟩ := h
      obtain ⟨rfl, rfl⟩ := u.isUnique u' rest rest' h hrest hrest'
      exact ⟨rfl, rfl⟩

theorem AtomTree.isUnique : ∀ a : AtomTree, IsUnique AtomTree.tokens 3 a
  | .number n place => by
    intro a' rest rest' h hrest hrest'
    cases a' with
    | number n' place' => simpa [AtomTree.tokens] using h
    | _ => simp [AtomTree.tokens, NameToken.token] at h
  | .name n => by
    intro a' rest rest' h hrest hrest'
    cases a' with
    | name n' =>
      obtain ⟨hn, hrest⟩ := List.cons.inj h
      exact ⟨congrArg _ (NameToken.token_injective hn), hrest⟩
    | call f opening closing =>
      rw [show rest = _ from (List.cons.inj h).2] at hrest
      exact absurd hrest (not_stops_openParen opening _)
    | callWith f opening es closing =>
      rw [show rest = _ from (List.cons.inj h).2] at hrest
      exact absurd hrest (not_stops_openParen opening _)
    | _ => simp [AtomTree.tokens, NameToken.token] at h
  | .call f opening closing => by
    intro a' rest rest' h hrest hrest'
    cases a' with
    | name n' =>
      rw [show rest' = _ from (List.cons.inj h).2.symm] at hrest'
      exact absurd hrest' (not_stops_openParen opening _)
    | call f' opening' closing' =>
      simp only [AtomTree.tokens, List.cons_append, List.nil_append, List.cons.injEq, Token.mk.injEq,
        true_and] at h
      obtain ⟨hf, rfl, rfl, rfl⟩ := h
      exact ⟨by rw [NameToken.token_injective hf], rfl⟩
    | callWith f' opening' es' closing' =>
      obtain ⟨t, ts, hes, hbegins⟩ := es'.exists_head
      simp only [AtomTree.tokens, hes, List.cons_append, List.nil_append, List.cons.injEq] at h
      rw [← h.2.2.1] at hbegins
      exact nomatch hbegins
    | _ => simp [AtomTree.tokens, NameToken.token] at h
  | .callWith f opening es closing => by
    intro a' rest rest' h hrest hrest'
    cases a' with
    | name n' =>
      rw [show rest' = _ from (List.cons.inj h).2.symm] at hrest'
      exact absurd hrest' (not_stops_openParen opening _)
    | call f' opening' closing' =>
      obtain ⟨t, ts, hes, hbegins⟩ := es.exists_head
      simp only [AtomTree.tokens, hes, List.cons_append, List.nil_append, List.cons.injEq] at h
      rw [h.2.2.1] at hbegins
      exact nomatch hbegins
    | callWith f' opening' es' closing' =>
      simp only [AtomTree.tokens, List.cons_append, List.append_assoc, List.nil_append, List.cons.injEq,
        Token.mk.injEq, true_and] at h
      obtain ⟨hf, rfl, h⟩ := h
      obtain ⟨rfl, rfl, rfl⟩ := es.unique es' h
      exact ⟨by rw [NameToken.token_injective hf], rfl⟩
    | _ => simp [AtomTree.tokens, NameToken.token] at h
  | .labels opening names closing => by
    intro a' rest rest' h hrest hrest'
    cases a' with
    | labels opening' names' closing' =>
      simp only [AtomTree.tokens, List.cons_append, List.append_assoc, List.nil_append, List.cons.injEq,
        Token.mk.injEq, true_and] at h
      obtain ⟨rfl, h⟩ := h
      obtain ⟨rfl, rfl, rfl⟩ := names_unique h
      exact ⟨rfl, rfl⟩
    | _ => simp [AtomTree.tokens, NameToken.token] at h
  | .paren opening e closing => by
    intro a' rest rest' h hrest hrest'
    cases a' with
    | paren opening' e' closing' =>
      simp only [AtomTree.tokens, List.cons_append, List.append_assoc, List.nil_append, List.cons.injEq,
        Token.mk.injEq, true_and] at h
      obtain ⟨rfl, h⟩ := h
      obtain ⟨rfl, hrest⟩ :=
        e.extend_isUnique [] nofun e' _ _ h (.ending (by simp) _ _) (.ending (by simp) _ _)
      simp only [List.cons.injEq, Token.mk.injEq, true_and] at hrest
      obtain ⟨rfl, rfl⟩ := hrest
      exact ⟨rfl, rfl⟩
    | _ => simp [AtomTree.tokens, NameToken.token] at h

theorem ArgumentsTree.unique : ∀ (es es' : ArgumentsTree) {p p' : Place} {rest rest' : List Token},
    es.tokens ++ ⟨.closeParen, p⟩ :: rest = es'.tokens ++ ⟨.closeParen, p'⟩ :: rest' →
    es = es' ∧ p = p' ∧ rest = rest'
  | .last e, .last e', p, p', rest, rest', h => by
    obtain ⟨rfl, hrest⟩ :=
      e.extend_isUnique [] nofun e' _ _ h (.ending (by simp) _ _) (.ending (by simp) _ _)
    exact ⟨rfl, by simpa using hrest⟩
  | .last e, .more e' comma' es', p, p', rest, rest', h => by
    rw [ArgumentsTree.tokens, ArgumentsTree.tokens, List.append_assoc] at h
    have hrest :=
      (e.extend_isUnique [] nofun e' _ _ h (.ending (by simp) _ _) (.ending (by simp) _ _)).2
    exact nomatch congrArg Token.kind (List.cons.inj hrest).1
  | .more e comma es, .last e', p, p', rest, rest', h => by
    rw [ArgumentsTree.tokens, ArgumentsTree.tokens, List.append_assoc] at h
    have hrest :=
      (e.extend_isUnique [] nofun e' _ _ h (.ending (by simp) _ _) (.ending (by simp) _ _)).2
    exact nomatch congrArg Token.kind (List.cons.inj hrest).1
  | .more e comma es, .more e' comma' es', p, p', rest, rest', h => by
    rw [ArgumentsTree.tokens, ArgumentsTree.tokens, List.append_assoc, List.append_assoc] at h
    obtain ⟨rfl, hrest⟩ :=
      e.extend_isUnique [] nofun e' _ _ h (.ending (by simp) _ _) (.ending (by simp) _ _)
    simp only [List.cons_append, List.cons.injEq, Token.mk.injEq, true_and] at hrest
    obtain ⟨rfl, hrest⟩ := hrest
    obtain ⟨rfl, rfl, rfl⟩ := es.unique es' hrest
    exact ⟨rfl, rfl, rfl⟩

end

theorem SumTree.isUnique (s : SumTree) : IsUnique SumTree.tokens 1 s :=
  s.extend_isUnique [] nofun

/-- A statement ends at the end of the program or at a separator. -/
def EndsStatement (rest : List Token) : Prop := ∀ t ∈ rest.head?, t.kind = .separator

theorem EndsStatement.stops {rest : List Token} (h : EndsStatement rest) : Stops n rest := by
  cases rest with
  | nil => exact nofun
  | cons t rest =>
    obtain ⟨kind, place⟩ := t
    obtain rfl : kind = .separator := h _ rfl
    exact .ending (by simp) place rest

/-- The target of an assignment is no statement by itself. -/
theorem assignment_ne_expression {m : NameToken} {equals : Place} {e : SumTree} {ts rest : List Token}
    (hrest : EndsStatement rest) : e.tokens ++ rest ≠ m.token :: ⟨.equals, equals⟩ :: ts := by
  intro h
  let target : SumTree := .product (.unary (.atom (.name m)))
  have hname := (e.isUnique target rest _ h hrest.stops (.ending (by simp) _ _)).2
  rw [hname] at hrest
  exact nomatch hrest _ rfl

/-- A statement with what follows it is unique. -/
theorem StatementTree.unique : ∀ {s s' : StatementTree} {rest rest' : List Token},
    s.tokens ++ rest = s'.tokens ++ rest' → EndsStatement rest → EndsStatement rest' → s = s' ∧ rest = rest'
  | .assignment m equals e, .assignment m' equals' e', rest, rest', h, hrest, hrest' => by
    simp only [tokens, List.cons_append, List.cons.injEq, Token.mk.injEq, true_and] at h
    obtain ⟨hm, rfl, h⟩ := h
    obtain ⟨rfl, rfl⟩ := e.isUnique e' _ _ h hrest.stops hrest'.stops
    exact ⟨by rw [NameToken.token_injective hm], rfl⟩
  | .assignment _ _ _, .expression _, _, _, h, _, hrest' => absurd h.symm (assignment_ne_expression hrest')
  | .expression _, .assignment _ _ _, _, _, h, hrest, _ => absurd h (assignment_ne_expression hrest)
  | .expression e, .expression e', _, _, h, hrest, hrest' => by
    obtain ⟨rfl, rfl⟩ := e.isUnique e' _ _ h hrest.stops hrest'.stops
    exact ⟨rfl, rfl⟩

/-- A statement begins with no separator. -/
theorem StatementTree.exists_head (s : StatementTree) : ∃ t ts, s.tokens = t :: ts ∧ t.kind ≠ .separator := by
  cases s with
  | assignment m equals e => exact ⟨_, _, rfl, nofun⟩
  | expression e =>
    obtain ⟨t, ts, he, hbegins⟩ := e.exists_head
    exact ⟨t, ts, he, fun h => by rw [h] at hbegins; exact nomatch hbegins⟩

theorem optionalTokens_unique {s s' : Option StatementTree} {rest rest' : List Token}
    (h : optionalTokens s ++ rest = optionalTokens s' ++ rest') (hrest : EndsStatement rest)
    (hrest' : EndsStatement rest') : s = s' ∧ rest = rest' := by
  cases s with
  | none =>
    cases s' with
    | none => exact ⟨rfl, h⟩
    | some s' =>
      obtain ⟨t, ts, hs, ht⟩ := s'.exists_head
      rw [show rest = _ from h, optionalTokens, Option.map_some, hs] at hrest
      exact absurd (hrest t rfl) ht
  | some s =>
    cases s' with
    | none =>
      obtain ⟨t, ts, hs, ht⟩ := s.exists_head
      rw [show rest' = _ from h.symm, optionalTokens, Option.map_some, hs] at hrest'
      exact absurd (hrest' t rfl) ht
    | some s' =>
      obtain ⟨rfl, rfl⟩ := StatementTree.unique h hrest hrest'
      exact ⟨rfl, rfl⟩

theorem endsStatement_separatedTokens : ∀ rest, EndsStatement (separatedTokens rest)
  | [] => nofun
  | _ :: _ => by rintro _ ⟨⟩; rfl

theorem separatedTokens_injective : ∀ {rest rest' : List (Place × Option StatementTree)},
    separatedTokens rest = separatedTokens rest' → rest = rest'
  | [], [], _ => rfl
  | [], _ :: _, h => nomatch h
  | _ :: _, [], h => nomatch h
  | (p, s) :: rest, (p', s') :: rest', h => by
    simp only [separatedTokens, List.flatMap_cons, List.cons_append, List.cons.injEq, Token.mk.injEq,
      true_and] at h
    obtain ⟨rfl, h⟩ := h
    obtain ⟨rfl, hrest⟩ :=
      optionalTokens_unique h (endsStatement_separatedTokens rest) (endsStatement_separatedTokens rest')
    rw [separatedTokens_injective hrest]

/-- **No tokens have two derivations.** -/
theorem ProgramTree.tokens_injective : ∀ {p p' : ProgramTree}, p.tokens = p'.tokens → p = p'
  | ⟨s, rest⟩, ⟨s', rest'⟩, h => by
    obtain ⟨hs, hrest⟩ : s = s' ∧ separatedTokens rest = separatedTokens rest' :=
      optionalTokens_unique h (endsStatement_separatedTokens rest) (endsStatement_separatedTokens rest')
    rw [hs, separatedTokens_injective hrest]

end TensorEquations
