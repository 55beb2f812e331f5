import TensorEquations.Expression.Interpreter
import TensorEquations.Proofs.Expression.Comment
import TensorEquations.Proofs.Expression.Parsing

/-!
# Printing programs

* `Expression.kinds`, `kindsOf` — the tokens of an expression and of a program, with brackets only
  where an operand binds less tightly than its place asks for.
* `unplaced` — syntax without the places of names.
* `exists_derivation` — tokens of these kinds have a derivation that means the same.
* `Filler`, `Laid` — what may stand between tokens; texts of tokens with fillers between them.
* `evaluate_correct` — which texts are programs, as which syntax they are read and run, and that
  printed programs are read back.
-/

namespace TensorEquations

/-! ## Kinds -/

/-- How tightly an expression holds together. -/
def Expression.level : Expression → Nat
  | .binary op _ _ => op.strength
  | .neg _ => 3
  | _ => 4

/-- Brackets around tokens if they are needed. -/
def bracket (needed : Bool) (ks : List TokenKind) : List TokenKind :=
  if needed then .openParen :: (ks ++ [.closeParen]) else ks

mutual

/-- The tokens of an expression. The right operand of an operation has to bind more tightly than the
operation itself, the left one as tightly. -/
def Expression.kinds : Expression → List TokenKind
  | .number n => [.number n]
  | .name text _ => [.name text]
  | .call f _ es => .name f :: .openParen :: (Expression.kindsAll es ++ [.closeParen])
  | .labels ls => .openBrace :: (ls.map .name ++ [.closeBrace])
  | .neg e => .minus :: bracket (e.level < 3) e.kinds
  | .binary op l r =>
    bracket (l.level < op.strength) l.kinds ++ op.kind :: bracket (r.level < op.strength + 1) r.kinds

/-- The tokens of arguments, with commas between them. -/
def Expression.kindsAll : List Expression → List TokenKind
  | [] => []
  | [e] => e.kinds
  | e :: es => e.kinds ++ .comma :: Expression.kindsAll es

end

def Statement.kinds : Statement → List TokenKind
  | assign name e => .name name :: .equals :: e.kinds
  | value e => e.kinds

/-- The tokens of a program. -/
def kindsOf (p : Program) : List TokenKind := [TokenKind.separator].intercalate (p.map Statement.kinds)

/-! ## Syntax without places -/

mutual

/-- An expression with all names at the first place of a text. -/
def Expression.unplaced : Expression → Expression
  | .number n => .number n
  | .name text _ => .name text ⟨1, 1⟩
  | .call f _ es => .call f ⟨1, 1⟩ (Expression.unplacedAll es)
  | .labels ls => .labels ls
  | .neg e => .neg e.unplaced
  | .binary op l r => .binary op l.unplaced r.unplaced

def Expression.unplacedAll : List Expression → List Expression
  | [] => []
  | e :: es => e.unplaced :: Expression.unplacedAll es

end

def Statement.unplaced : Statement → Statement
  | assign name e => .assign name e.unplaced
  | value e => .value e.unplaced

/-! ## Derivations of printed tokens -/

/-- Tokens have a derivation at a level that means an expression, places aside. -/
def Derives (level : Nat) (ts : List Token) (e : Expression) : Prop :=
  match level with
  | 1 => ∃ d : SumTree, d.tokens = ts ∧ d.tree.unplaced = e.unplaced
  | 2 => ∃ d : ProductTree, d.tokens = ts ∧ d.tree.unplaced = e.unplaced
  | 3 => ∃ d : UnaryTree, d.tokens = ts ∧ d.tree.unplaced = e.unplaced
  | _ => ∃ d : AtomTree, d.tokens = ts ∧ d.tree.unplaced = e.unplaced

namespace Derives

variable {ts : List Token} {e : Expression} {m n : Nat}

theorem unary (h : Derives 4 ts e) : Derives 3 ts e := h.elim fun d hd => ⟨.atom d, hd⟩

theorem product (h : Derives 3 ts e) : Derives 2 ts e := h.elim fun d hd => ⟨.unary d, hd⟩

theorem sum (h : Derives 2 ts e) : Derives 1 ts e := h.elim fun d hd => ⟨.product d, hd⟩

/-- What binds tightly may stand where less is asked for. -/
theorem mono (h : Derives n ts e) (hmn : m ≤ n) (hm : 1 ≤ m) (hn : n ≤ 4) : Derives m ts e := by
  obtain rfl | rfl | rfl | rfl : n = 1 ∨ n = 2 ∨ n = 3 ∨ n = 4 := by omega
  · obtain rfl : m = 1 := by omega
    exact h
  · obtain rfl | rfl : m = 1 ∨ m = 2 := by omega
    · exact h.sum
    · exact h
  · obtain rfl | rfl | rfl : m = 1 ∨ m = 2 ∨ m = 3 := by omega
    · exact h.product.sum
    · exact h.product
    · exact h
  · obtain rfl | rfl | rfl | rfl : m = 1 ∨ m = 2 ∨ m = 3 ∨ m = 4 := by omega
    · exact h.unary.product.sum
    · exact h.unary.product
    · exact h.unary
    · exact h

end Derives

theorem Operation.strength_cases (op : Operation) : op.strength = 1 ∨ op.strength = 2 := by
  cases op <;> decide

theorem Expression.level_bounds (e : Expression) : 1 ≤ e.level ∧ e.level ≤ 4 := by
  cases e with
  | binary op l r =>
    rw [level]
    rcases op.strength_cases with h | h <;> omega
  | _ => simp [level]

/-- Tokens of a single kind. -/
theorem exists_token {ts : List Token} {kind : TokenKind} {kinds : List TokenKind}
    (h : ts.map Token.kind = kind :: kinds) :
    ∃ place us, ts = ⟨kind, place⟩ :: us ∧ us.map Token.kind = kinds := by
  cases ts with
  | nil => exact nomatch h
  | cons t us =>
    obtain ⟨rfl, hus⟩ := List.cons.inj h
    exact ⟨t.place, us, rfl, hus⟩

theorem exists_last {ts : List Token} {kind : TokenKind} (h : ts.map Token.kind = [kind]) :
    ∃ place, ts = [⟨kind, place⟩] := by
  obtain ⟨place, us, rfl, hus⟩ := exists_token h
  exact ⟨place, by rw [List.map_eq_nil_iff.mp hus]⟩

/-- Brackets are put where they are needed. -/
theorem Derives.of_bracket {e : Expression} {n : Nat} (hn : 1 ≤ n) (hn' : n ≤ 4)
    (h : ∀ ts : List Token, ts.map Token.kind = e.kinds → Derives e.level ts e) {ts : List Token}
    (hts : ts.map Token.kind = bracket (e.level < n) e.kinds) : Derives n ts e := by
  obtain ⟨hlevel, hlevel'⟩ := e.level_bounds
  by_cases hneeded : e.level < n
  · rw [bracket, if_pos (decide_eq_true hneeded)] at hts
    obtain ⟨opening, rest, rfl, hrest⟩ := exists_token hts
    obtain ⟨us, vs, rfl, hus, hvs⟩ := List.map_eq_append_iff.mp hrest
    obtain ⟨closing, rfl⟩ := exists_last hvs
    obtain ⟨d, hd, htree⟩ := (h us hus).mono hlevel (Nat.le_refl 1) hlevel'
    have hatom : Derives 4 (⟨.openParen, opening⟩ :: (us ++ [⟨.closeParen, closing⟩])) e :=
      ⟨.paren opening d closing, by rw [AtomTree.tokens, hd], htree⟩
    exact hatom.mono hn' hn (Nat.le_refl 4)
  · rw [bracket, if_neg (by simpa using hneeded)] at hts
    exact (h ts hts).mono (Nat.le_of_not_lt hneeded) hn hlevel'

/-- Names in a list. -/
theorem exists_names : ∀ {ts : List Token} {ls : List String}, ts.map Token.kind = ls.map .name →
    ∃ ns : List NameToken, ts = ns.map NameToken.token ∧ ls = ns.map NameToken.text
  | ts, [], h => ⟨[], List.map_eq_nil_iff.mp h, rfl⟩
  | ts, l :: ls, h => by
    obtain ⟨place, us, rfl, hus⟩ := exists_token h
    obtain ⟨ns, rfl, rfl⟩ := exists_names hus
    exact ⟨⟨l, place⟩ :: ns, rfl, rfl⟩

mutual

theorem Expression.derives : ∀ (e : Expression) {ts : List Token}, ts.map Token.kind = e.kinds →
    Derives e.level ts e
  | .number n, ts, h => by
    obtain ⟨place, rfl⟩ := exists_last h
    exact ⟨.number n place, rfl, rfl⟩
  | .name text _, ts, h => by
    obtain ⟨place, rfl⟩ := exists_last h
    exact ⟨.name ⟨text, place⟩, rfl, rfl⟩
  | .labels ls, ts, h => by
    obtain ⟨opening, rest, rfl, hrest⟩ := exists_token h
    obtain ⟨us, vs, rfl, hus, hvs⟩ := List.map_eq_append_iff.mp hrest
    obtain ⟨closing, rfl⟩ := exists_last hvs
    obtain ⟨ns, rfl, rfl⟩ := exists_names hus
    exact ⟨.labels opening ns closing, rfl, rfl⟩
  | .neg e, ts, h => by
    obtain ⟨place, us, rfl, hus⟩ := exists_token h
    obtain ⟨d, rfl, htree⟩ : Derives 3 us e := .of_bracket (by decide) (by decide) (fun _ => e.derives) hus
    exact ⟨.neg place d, rfl, by rw [UnaryTree.tree, unplaced, htree, unplaced]⟩
  | .binary op l r, ts, h => by
    obtain ⟨us, rest, rfl, hus, hrest⟩ := List.map_eq_append_iff.mp h
    obtain ⟨place, vs, rfl, hvs⟩ := exists_token hrest
    rw [level]
    rcases op.strength_cases with hop | hop
    · rw [hop] at hus hvs ⊢
      obtain ⟨dl, rfl, hl⟩ : Derives 1 us l := .of_bracket (by decide) (by decide) (fun _ => l.derives) hus
      obtain ⟨dr, rfl, hr⟩ : Derives 2 vs r := .of_bracket (by decide) (by decide) (fun _ => r.derives) hvs
      exact ⟨.binary dl op hop place dr, rfl, by rw [SumTree.tree, unplaced, hl, hr, unplaced]⟩
    · rw [hop] at hus hvs ⊢
      obtain ⟨dl, rfl, hl⟩ : Derives 2 us l := .of_bracket (by decide) (by decide) (fun _ => l.derives) hus
      obtain ⟨dr, rfl, hr⟩ : Derives 3 vs r := .of_bracket (by decide) (by decide) (fun _ => r.derives) hvs
      exact ⟨.binary dl op hop place dr, rfl, by rw [ProductTree.tree, unplaced, hl, hr, unplaced]⟩
  | .call f _ es, ts, h => by
    obtain ⟨place, rest, rfl, hrest⟩ := exists_token h
    obtain ⟨opening, rest, rfl, hbehind⟩ := exists_token hrest
    obtain ⟨us, vs, rfl, hus, hvs⟩ := List.map_eq_append_iff.mp hbehind
    obtain ⟨closing, rfl⟩ := exists_last hvs
    match es with
    | [] =>
      obtain rfl := List.map_eq_nil_iff.mp hus
      exact ⟨.call ⟨f, place⟩ opening closing, rfl, rfl⟩
    | e :: es =>
      obtain ⟨d, rfl, htrees⟩ := Expression.derivesAll (e :: es) hus (List.cons_ne_nil e es)
      exact ⟨.callWith ⟨f, place⟩ opening d closing, rfl, by rw [AtomTree.tree, unplaced, htrees, unplaced]⟩

theorem Expression.derivesAll : ∀ (es : List Expression) {ts : List Token},
    ts.map Token.kind = Expression.kindsAll es → es ≠ [] →
    ∃ d : ArgumentsTree, d.tokens = ts ∧ Expression.unplacedAll d.trees = Expression.unplacedAll es
  | [], _, _, hne => absurd rfl hne
  | [e], ts, h, _ => by
    obtain ⟨d, rfl, htree⟩ := (e.derives h).mono e.level_bounds.1 (Nat.le_refl 1) e.level_bounds.2
    exact ⟨.last d, rfl, by simp only [ArgumentsTree.trees, unplacedAll, htree]⟩
  | e :: e' :: es, ts, h, _ => by
    obtain ⟨us, rest, rfl, hus, hrest⟩ := List.map_eq_append_iff.mp h
    obtain ⟨comma, vs, rfl, hvs⟩ := exists_token hrest
    obtain ⟨d, rfl, htree⟩ := (e.derives hus).mono e.level_bounds.1 (Nat.le_refl 1) e.level_bounds.2
    obtain ⟨ds, rfl, htrees⟩ := Expression.derivesAll (e' :: es) hvs (List.cons_ne_nil e' es)
    exact ⟨.more d comma ds, rfl, by simp only [ArgumentsTree.trees, unplacedAll, htree, htrees]⟩

end

theorem Statement.exists_derivation : ∀ (s : Statement) {ts : List Token}, ts.map Token.kind = s.kinds →
    ∃ d : StatementTree, d.tokens = ts ∧ d.tree.unplaced = s.unplaced
  | .value e, ts, h => by
    obtain ⟨d, rfl, htree⟩ := (e.derives h).mono e.level_bounds.1 (Nat.le_refl 1) e.level_bounds.2
    exact ⟨.expression d, rfl, congrArg Statement.value htree⟩
  | .assign name e, ts, h => by
    obtain ⟨place, rest, rfl, hrest⟩ := exists_token h
    obtain ⟨equals, us, rfl, hus⟩ := exists_token hrest
    obtain ⟨d, rfl, htree⟩ := (e.derives hus).mono e.level_bounds.1 (Nat.le_refl 1) e.level_bounds.2
    exact ⟨.assignment ⟨name, place⟩ equals d, rfl, congrArg (Statement.assign name) htree⟩

/-- Further statements, each behind a separator. -/
theorem exists_derivations : ∀ (ss : List Statement) {ts : List Token},
    ts.map Token.kind = ss.flatMap (TokenKind.separator :: ·.kinds) →
    ∃ rest : List (Place × Option StatementTree), separatedTokens rest = ts ∧
      (rest.filterMap fun d => d.2.map StatementTree.tree).map Statement.unplaced = ss.map Statement.unplaced
  | [], ts, h => ⟨[], (List.map_eq_nil_iff.mp h).symm, rfl⟩
  | s :: ss, ts, h => by
    obtain ⟨place, rest, rfl, hrest⟩ := exists_token h
    obtain ⟨us, vs, rfl, hus, hvs⟩ := List.map_eq_append_iff.mp hrest
    obtain ⟨d, rfl, htree⟩ := s.exists_derivation hus
    obtain ⟨ds, rfl, htrees⟩ := exists_derivations ss hvs
    refine ⟨(place, some d) :: ds, rfl, ?_⟩
    simp only [List.filterMap_cons, Option.map_some, List.map_cons, htree, htrees]

theorem kindsOf_cons (s : Statement) : ∀ ss : List Statement,
    kindsOf (s :: ss) = s.kinds ++ ss.flatMap (TokenKind.separator :: ·.kinds)
  | [] => by simp [kindsOf]
  | t :: ss => by
    have ih := kindsOf_cons t ss
    simp only [kindsOf, List.map_cons, List.intercalate_cons_cons, List.flatMap_cons] at ih ⊢
    rw [ih, List.append_assoc, List.singleton_append, List.cons_append]

/-- **Tokens printed for a program have a derivation that means it.** -/
theorem exists_derivation (p : Program) {ts : List Token} (h : ts.map Token.kind = kindsOf p) :
    ∃ d : ProgramTree, d.tokens = ts ∧ d.statements.map Statement.unplaced = p.map Statement.unplaced := by
  cases p with
  | nil => exact ⟨⟨none, []⟩, (List.map_eq_nil_iff.mp h).symm, rfl⟩
  | cons s ss =>
    rw [kindsOf_cons] at h
    obtain ⟨us, vs, rfl, hus, hvs⟩ := List.map_eq_append_iff.mp h
    obtain ⟨d, rfl, htree⟩ := s.exists_derivation hus
    obtain ⟨rest, rfl, htrees⟩ := exists_derivations ss hvs
    refine ⟨⟨some d, rest⟩, rfl, ?_⟩
    rw [ProgramTree.statements, List.filterMap_cons, List.filterMap_map]
    simp only [Option.map_some, List.map_cons, htree, ← htrees]
    rfl

/-! ## Texts of tokens -/

/-- Text between tokens: blanks, line breaks and comments, each to the end of its line. -/
inductive Filler : List Char → Prop
  | nil : Filler []
  | blank {c : Char} {cs : List Char} (hc : isGap c ∨ Text.isLineBreak c) (h : Filler cs) : Filler (c :: cs)
  | comment {line : List Char} {c : Char} {cs : List Char} (hline : ∀ d ∈ line, ¬ Text.isLineBreak d)
      (hc : Text.isLineBreak c) (h : Filler cs) : Filler ('/' :: '/' :: (line ++ c :: cs))

/-- Text behind the last token: its last line may be a comment, too. -/
inductive Trailer : List Char → Prop
  | filler {cs : List Char} (h : Filler cs) : Trailer cs
  | comment {cs line : List Char} (h : Filler cs) (hline : ∀ d ∈ line, ¬ Text.isLineBreak d) :
      Trailer (cs ++ '/' :: '/' :: line)

/-- Names and numbers. -/
def TokenKind.isWord : TokenKind → Bool
  | number _ | name _ => true
  | _ => false

/-- A text of tokens with fillers between them, `previous` being the token in front of it. Directly
behind a slash stands no other one, so that no comment begins there; names and numbers are kept
apart. -/
inductive Laid : Option TokenKind → List TokenKind → List Char → Prop
  | nil {previous : Option TokenKind} {cs : List Char} (h : Trailer cs)
      (hslash : previous = some .slash → '/' ∉ cs.head?) : Laid previous [] cs
  | cons {previous : Option TokenKind} {kind : TokenKind} {kinds : List TokenKind} {cs w rest : List Char}
      (hfiller : Filler cs) (hlexeme : Lexeme w kind)
      (hslash : previous = some .slash → '/' ∉ (cs ++ w).head?)
      (hwords : (∃ k, previous = some k ∧ k.isWord) → kind.isWord → cs ≠ [])
      (h : Laid (some kind) kinds rest) : Laid previous (kind :: kinds) (cs ++ w ++ rest)

/-- A blank stands for a gap. -/
theorem bare_blank {c : Char} (hc : isGap c ∨ Text.isLineBreak c) (rest : List Char) :
    ∃ gap, isGap gap ∧ bare false (c :: rest) = gap :: bare false rest := by
  by_cases hbreak : Text.isLineBreak c
  · exact ⟨'\n', rfl, bare_break hbreak false rest⟩
  · have hgap := hc.resolve_right hbreak
    refine ⟨c, hgap, bare_plain hbreak fun h => ?_⟩
    rw [← (List.cons_prefix_cons.mp h).1] at hgap
    exact absurd hgap (by decide)

/-- A comment that ends with its line stands for a gap. -/
theorem bare_commentLine {line : List Char} {c : Char} (hline : ∀ d ∈ line, ¬ Text.isLineBreak d)
    (hc : Text.isLineBreak c) (rest : List Char) :
    bare false ('/' :: '/' :: (line ++ c :: rest)) = '\n' :: bare false rest := by
  rw [bare_comment, bare_inside_append hline, bare_break hc]

/-- A filler in front of a text changes no token. -/
theorem Filler.kindsFrom {cs : List Char} (h : Filler cs) (rest : List Char) :
    kindsFrom none (bare false (cs ++ rest)) = kindsFrom none (bare false rest) := by
  induction h with
  | nil => rfl
  | blank hc _ ih =>
    obtain ⟨gap, hgap, hbare⟩ := bare_blank hc (_ ++ rest)
    rw [List.cons_append, hbare, kindsFrom_gap hgap, ih]
  | comment hline hc _ ih =>
    rw [List.cons_append, List.cons_append, List.append_assoc, List.cons_append, bare_commentLine hline hc,
      kindsFrom_gap rfl, ih]

/-- A filler that is not empty ends the token in front of it. -/
theorem Filler.ends {cs : List Char} (h : Filler cs) (hne : cs ≠ []) (rest : List Char) :
    ∀ c ∈ (bare false (cs ++ rest)).head?, IsBreak c := by
  cases h with
  | nil => exact absurd rfl hne
  | blank hc _ =>
    obtain ⟨gap, hgap, hbare⟩ := bare_blank hc (_ ++ rest)
    rw [List.cons_append, hbare]
    rintro _ ⟨⟩
    exact isBreak_of_isGap hgap
  | comment hline hc _ =>
    rw [List.cons_append, List.cons_append, List.append_assoc, List.cons_append, bare_commentLine hline hc]
    rintro _ ⟨⟩
    exact isBreak_of_isGap rfl

theorem bare_openComment {line : List Char} (hline : ∀ d ∈ line, ¬ Text.isLineBreak d) :
    bare false ('/' :: '/' :: line) = [] := by
  rw [bare_comment, ← List.append_nil line, bare_inside_append hline, bare]

theorem Trailer.kindsFrom {cs : List Char} (h : Trailer cs) : kindsFrom none (bare false cs) = some [] := by
  cases h with
  | filler h =>
    rw [← List.append_nil cs, h.kindsFrom]
    rfl
  | comment h hline =>
    rw [h.kindsFrom, bare_openComment hline]
    rfl

theorem Trailer.ends {cs : List Char} (h : Trailer cs) : ∀ c ∈ (bare false cs).head?, IsBreak c := by
  cases h with
  | filler h =>
    by_cases hne : cs = []
    · subst hne
      exact nofun
    · rw [← List.append_nil cs]
      exact h.ends hne []
  | @comment cs line h hline =>
    by_cases hne : cs = []
    · subst hne
      rw [List.nil_append, bare_openComment hline]
      exact nofun
    · exact h.ends hne _

/-- The characters that end a line. -/
def lineBreaks : List Char := [10, 11, 12, 13, 28, 29, 30, 0x85, 0x2028, 0x2029].map Char.ofNat

theorem mem_lineBreaks {c : Char} (h : Text.isLineBreak c) : c ∈ lineBreaks := by
  have hmem : c.toNat ∈ [10, 11, 12, 13, 28, 29, 30, 0x85, 0x2028, 0x2029] := by
    simp only [Text.isLineBreak, Bool.or_eq_true, Bool.and_eq_true, decide_eq_true_eq, beq_iff_eq] at h
    simp only [List.mem_cons, List.not_mem_nil, or_false]
    omega
  exact List.mem_map.mpr ⟨c.toNat, hmem, Char.ofNat_toNat c⟩

/-- Characters of names and numbers neither end a line nor belong to the beginning of a comment. -/
theorem plain_of_word {c : Char} (h : isNameLater c ∨ Text.isDecimalDigit c ∨ c = '.') :
    ¬ Text.isLineBreak c ∧ c ≠ '/' := by
  have hbreaks : ∀ d ∈ '/' :: lineBreaks,
      isNameLater d = false ∧ Text.isDecimalDigit d = false ∧ d ≠ '.' := List.all_iff_forall_prop.mp (by decide)
  have hnot : c ∉ '/' :: lineBreaks := fun hmem => by
    obtain ⟨hname, hdigit, hpoint⟩ := hbreaks c hmem
    rcases h with h | h | h
    · exact absurd (h.symm.trans hname) (by decide)
    · exact absurd (h.symm.trans hdigit) (by decide)
    · exact hpoint h
  exact ⟨fun hbreak => hnot (List.mem_cons_of_mem _ (mem_lineBreaks hbreak)),
    fun hslash => hnot (hslash ▸ List.mem_cons_self)⟩

theorem isNameLater_of_isNameFirst {c : Char} (h : isNameFirst c) : isNameLater c := by
  simp only [isNameFirst, isNameLater, Char.isAlphanum, Bool.or_eq_true] at h ⊢
  exact .inl (h.imp_left .inl)

/-- Characters that neither end a line nor are slashes stay. -/
theorem bare_append_plain : ∀ {w : List Char}, (∀ c ∈ w, ¬ Text.isLineBreak c ∧ c ≠ '/') → ∀ rest : List Char,
    bare false (w ++ rest) = w ++ bare false rest
  | [], _, _ => rfl
  | c :: w, h, rest => by
    obtain ⟨⟨hbreak, hslash⟩, hw⟩ := List.forall_mem_cons.mp h
    have hcomment : ¬ ['/', '/'] <+: c :: (w ++ rest) := fun h => hslash (List.cons_prefix_cons.mp h).1.symm
    rw [List.cons_append, bare_plain hbreak hcomment, bare_append_plain hw, List.cons_append]

/-- The characters of a token neither end a line nor open a comment, unless a slash follows one. -/
theorem Lexeme.bare {w : List Char} {kind : TokenKind} (h : Lexeme w kind) {rest : List Char}
    (hslash : kind = .slash → '/' ∉ rest.head?) : bare false (w ++ rest) = w ++ bare false rest := by
  cases h with
  | name hfirst hlater =>
    refine bare_append_plain (List.forall_mem_cons.mpr ⟨plain_of_word (.inl ?_), fun c hc =>
      plain_of_word (.inl (hlater c hc))⟩) rest
    exact isNameLater_of_isNameFirst hfirst
  | whole hne hds => exact bare_append_plain (fun c hc => plain_of_word (.inr (.inl (hds c hc)))) rest
  | fraction hne hds hps =>
    refine bare_append_plain (List.forall_mem_append.mpr ⟨fun c hc => ?_, List.forall_mem_cons.mpr
      ⟨plain_of_word (.inr (.inr rfl)), fun c hc => ?_⟩⟩) rest
    · exact plain_of_word (.inr (.inl (hds c hc)))
    · exact plain_of_word (.inr (.inl (hps c hc)))
  | @mark c kind hmark =>
    have hbreak : ¬ Text.isLineBreak c := by
      have hmarks : ∀ d ∈ marks, ¬ Text.isLineBreak d := List.all_iff_forall_prop.mp (by decide)
      exact hmarks c (mem_marks hmark)
    refine bare_plain hbreak fun h => ?_
    obtain ⟨rfl, hrest⟩ := List.cons_prefix_cons.mp h
    obtain ⟨t, ht⟩ := hrest
    exact hslash (Option.some.inj hmark).symm (by rw [← show '/' :: t = rest from ht]; rfl)

/-- A token is read where it ends. -/
theorem Lexeme.kindsFrom {w : List Char} {kind : TokenKind} (h : Lexeme w kind) {rest : List Char}
    (hend : kind.isWord → ∀ c ∈ rest.head?, IsBreak c) :
    kindsFrom none (w ++ rest) = (kindsFrom none rest).map (kind :: ·) := by
  rcases Pending.Holds.of_lexeme h with ⟨c, rfl, hmark⟩ | ⟨p, hp, hkind⟩
  · have hgap := (mark_alone c (mem_marks hmark)).1
    simp [TensorEquations.kindsFrom, finished, hgap, hmark]
  · have hword : kind.isWord := by
      cases p <;> cases hkind <;> rfl
    have hread : TensorEquations.kindsFrom none (w ++ rest) = TensorEquations.kindsFrom (some p) rest := by
      have h1 := kindsFrom_eq none ⟨1, 1⟩ (w ++ rest)
      have h2 := kindsFrom_eq (some (p, ⟨1, 1⟩)) (Place.afterAll ⟨1, 1⟩ w) rest
      rw [scanFrom_holds hp] at h1
      exact h1.trans h2.symm
    rw [hread]
    cases rest with
    | nil => simp [TensorEquations.kindsFrom, finished, hkind]
    | cons c rest => exact kindsFrom_of_grow_none (hend hword c rfl p) hkind

theorem Laid.not_slash {kinds : List TokenKind} {cs : List Char} (h : Laid (some .slash) kinds cs) :
    '/' ∉ cs.head? := by
  cases h with
  | nil _ hslash => exact hslash rfl
  | cons hfiller hlexeme hslash _ _ =>
    obtain ⟨c, w, rfl⟩ := List.exists_cons_of_ne_nil hlexeme.ne_nil
    have hhead := hslash rfl
    simpa only [List.append_assoc, List.cons_append, List.head?_append, List.head?_cons] using hhead

/-- What follows a name or a number ends it. -/
theorem Laid.ends {kind : TokenKind} {kinds : List TokenKind} {cs : List Char} (h : Laid (some kind) kinds cs)
    (hword : kind.isWord) : ∀ c ∈ (bare false cs).head?, IsBreak c := by
  cases h with
  | nil h _ => exact h.ends
  | @cons _ next kinds cs w rest hfiller hlexeme hslash hwords h =>
    rw [List.append_assoc]
    by_cases hne : cs = []
    · subst hne
      rw [List.nil_append, hlexeme.bare fun heq => (heq ▸ h).not_slash]
      have hmark : next.isWord = false := by
        rw [Bool.eq_false_iff]
        exact fun hnext => hwords ⟨kind, rfl, hword⟩ hnext rfl
      cases hlexeme with
      | mark hmark =>
        rintro _ ⟨⟩
        exact isBreak_of_mark hmark
      | _ => exact nomatch hmark
    · exact hfiller.ends hne _

/-- **The tokens of a text laid out are those it has been laid out for.** -/
theorem Laid.kindsFrom {previous : Option TokenKind} {kinds : List TokenKind} {cs : List Char}
    (h : Laid previous kinds cs) : kindsFrom none (bare false cs) = some kinds := by
  induction h with
  | nil h _ => exact h.kindsFrom
  | cons hfiller hlexeme _ _ h ih =>
    rw [List.append_assoc, hfiller.kindsFrom, hlexeme.bare fun heq => (heq ▸ h).not_slash,
      hlexeme.kindsFrom h.ends, ih]
    rfl

/-! ## Programs -/

/-- A derivation of the tokens of a source text without its comments. -/
def IsDerivation (source : String) (d : ProgramTree) : Prop :=
  Tokenized ⟨1, 1⟩ (Text.stripComments source).toList d.tokens

/-- What running a program makes of an interpreter. -/
def Interpreter.outcome (i : Interpreter) (p : Program) : Evaluation Value × Interpreter :=
  match runStatements i.bindings .nothing p with
  | (.ok v, vs) => (.ok v, ⟨vs, v⟩)
  | (.error e, vs) => (.error e, ⟨vs, i.current⟩)

/-- A text is a program exactly if it has a derivation. -/
theorem program_eq_ok_iff (source : String) (p : Program) :
    Interpreter.program source = .ok p ↔ ∃ d, IsDerivation source d ∧ d.statements = p := by
  have hscan : ∀ ts, scan (Text.stripComments source) = ⟨ts, none⟩ ↔
      Tokenized ⟨1, 1⟩ (Text.stripComments source).toList ts := scan_eq_iff _
  cases h : scan (Text.stripComments source) with | _ ts stop
  simp only [h] at hscan
  cases stop with
  | none =>
    have hparse : Interpreter.program source = .ok p ↔ parseTokens ts = .ok p := by
      rw [Interpreter.program, parse, h, Scan.parse]
      cases parseTokens ts <;> simp [Except.mapError]
    rw [hparse, parseTokens_eq_ok_iff]
    constructor
    · rintro ⟨d, rfl, hd⟩
      exact ⟨d, (hscan _).mp rfl, hd⟩
    · rintro ⟨d, hderivation, hd⟩
      obtain rfl : ts = d.tokens := congrArg Scan.tokens ((hscan _).mpr hderivation)
      exact ⟨d, rfl, hd⟩
  | some place =>
    constructor
    · intro hprogram
      rw [Interpreter.program, parse, h, Scan.parse] at hprogram
      cases hrun : runTokens .initial ts <;>
        simp [hrun, bind, Except.bind, throw, throwThe, MonadExceptOf.throw, Except.mapError] at hprogram
    · rintro ⟨d, hderivation, -⟩
      exact nomatch congrArg Scan.stop ((hscan _).mpr hderivation)

/-- A text with the tokens of a program has a derivation that means the program. -/
theorem derivation_of_kinds {source : String} {p : Program}
    (h : (scan (Text.stripComments source)).kinds? = some (kindsOf p)) :
    ∃ d, IsDerivation source d ∧ d.statements.map Statement.unplaced = p.map Statement.unplaced := by
  obtain ⟨ts, hscan, hts⟩ := Scan.exists_of_kinds? h
  obtain ⟨d, rfl, htrees⟩ := exists_derivation p hts
  exact ⟨d, (scan_eq_iff _ _).mp hscan, htrees⟩

/-- A source text is run as its derivation. -/
theorem Interpreter.evaluate_of_derivation (i : Interpreter) {source : String} {d : ProgramTree}
    (h : IsDerivation source d) : i.evaluate source = i.outcome d.statements := by
  have hprogram := (program_eq_ok_iff source d.statements).mpr ⟨d, h, rfl⟩
  simp only [evaluate, hprogram]
  rfl

/-- A source text without a derivation is refused and changes nothing. -/
theorem Interpreter.evaluate_of_no_derivation (i : Interpreter) {source : String}
    (h : ¬ ∃ d, IsDerivation source d) :
    ∃ location, i.evaluate source = (.error (.unexpectedInput location), i) := by
  cases hprogram : Interpreter.program source with
  | error location => exact ⟨location, by rw [evaluate, hprogram]⟩
  | ok p =>
    obtain ⟨d, hd, -⟩ := (program_eq_ok_iff source p).mp hprogram
    exact absurd ⟨d, hd⟩ h

/-- **A source text is run as its derivation, which is unique; a printed program is read back.** A
text without a derivation is refused. Texts may be laid out in any way in which no comment begins
directly behind a slash and names and numbers are kept apart. -/
theorem evaluate_correct :
    (∀ (i : Interpreter) (source : String) (d : ProgramTree), IsDerivation source d →
      i.evaluate source = i.outcome d.statements) ∧
    (∀ (source : String) (d d' : ProgramTree), IsDerivation source d → IsDerivation source d' → d = d') ∧
    (∀ (i : Interpreter) (source : String), (¬ ∃ d, IsDerivation source d) →
      ∃ location, i.evaluate source = (.error (.unexpectedInput location), i)) ∧
    ∀ (p : Program) (source : String), Laid none (kindsOf p) source.toList →
      ∃ d, IsDerivation source d ∧ d.statements.map Statement.unplaced = p.map Statement.unplaced := by
  refine ⟨fun i _ _ => i.evaluate_of_derivation, fun source d d' hd hd' => ?_,
    fun i source h => i.evaluate_of_no_derivation h, fun p source hlaid => ?_⟩
  · have htokens := hd.scanFrom.symm.trans hd'.scanFrom
    exact ProgramTree.tokens_injective (congrArg Scan.tokens htokens)
  · exact derivation_of_kinds ((kinds_stripComments source).trans hlaid.kindsFrom)

/-- Of two subtractions the right one has to be in brackets; a comment may stand between them. -/
theorem evaluate_printed_difference :
    ∃ d, IsDerivation "x - (y // half\n - z)" d ∧ d.statements.map Statement.unplaced =
      [.value (.binary .sub (.name "x" ⟨1, 1⟩) (.binary .sub (.name "y" ⟨1, 1⟩) (.name "z" ⟨1, 1⟩)))] := by
  have hname {c : Char} (hfirst : isNameFirst c) : Lexeme [c] (.name (String.ofList [c])) :=
    .name hfirst nofun
  have hblank : Filler [' '] := .blank (.inl rfl) .nil
  have hcomment : Filler (" // half\n ").toList :=
    .blank (.inl rfl)
      (@Filler.comment [' ', 'h', 'a', 'l', 'f'] _ _ (List.all_iff_forall_prop.mp (by decide)) (by decide) hblank)
  have hmark {c : Char} {kind : TokenKind} (h : punctuation? c = some kind) : Lexeme [c] kind := .mark h
  have hend : Laid (some (.name "z")) [.closeParen] [')'] :=
    .cons .nil (hmark (c := ')') rfl) nofun nofun (.nil (.filler .nil) nofun)
  have hright : Laid (some (.name "y")) [.minus, .name "z", .closeParen] (" // half\n - z)").toList :=
    .cons hcomment (hmark (c := '-') rfl) nofun nofun
      (.cons hblank (hname (c := 'z') rfl) nofun nofun hend)
  have hbracket : Laid (some .minus) (.openParen :: .name "y" :: [.minus, .name "z", .closeParen])
      (" (y // half\n - z)").toList :=
    .cons hblank (hmark (c := '(') rfl) nofun nofun (.cons .nil (hname (c := 'y') rfl) nofun nofun hright)
  exact evaluate_correct.2.2.2
    [.value (.binary .sub (.name "x" ⟨1, 1⟩) (.binary .sub (.name "y" ⟨1, 1⟩) (.name "z" ⟨1, 1⟩)))]
    "x - (y // half\n - z)"
    (.cons .nil (hname (c := 'x') rfl) nofun nofun (.cons hblank (hmark (c := '-') rfl) nofun nofun hbracket))

/-- Directly behind a slash no comment may begin: the two slashes of the comment would be the first
two of three. -/
theorem comment_behind_slash :
    kindsOf [.value (.binary .div (.name "x" ⟨1, 1⟩) (.name "y" ⟨1, 1⟩))] =
      [.name "x", .slash, .name "y"] ∧
    Lexeme ['x'] (.name "x") ∧ Lexeme ['/'] .slash ∧ Filler ("// half\n").toList ∧
    Lexeme ['y'] (.name "y") ∧
    ¬ ∃ d, IsDerivation ("x" ++ "/" ++ "// half\n" ++ "y") d := by
  have hname {c : Char} (hfirst : isNameFirst c) : Lexeme [c] (.name (String.ofList [c])) :=
    .name hfirst nofun
  have hcomment : Filler ("// half\n").toList :=
    @Filler.comment [' ', 'h', 'a', 'l', 'f'] _ _ (List.all_iff_forall_prop.mp (by decide)) (by decide) .nil
  refine ⟨by decide, hname (by decide), .mark rfl, hcomment, hname (by decide), ?_⟩
  rintro ⟨d, hd⟩
  have hprogram := (program_eq_ok_iff _ d.statements).mpr ⟨d, hd, rfl⟩
  have hrefused : (Interpreter.program ("x" ++ "/" ++ "// half\n" ++ "y")).isOk = false := by
    decide +kernel
  rw [hprogram] at hrefused
  exact nomatch hrefused

end TensorEquations
