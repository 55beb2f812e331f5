import TensorEquations.Proofs.Equation.Source

/-!
# What a source text mentions

* `Names` — the mention that the closed text of a tag writes, with the blocks in the order in which it has them.
* `Mentions` — the mentions of a source in order, one for each tag.
* `parseEquation_of_mentions` — **a source with mentions is read, and its tags have their keys.**
* `exists_mentions` — every source that is read has mentions.
-/

namespace TensorEquations

variable {inner : List Char} {m : Mention} {ms : List Mention} {ss : List Segment} {ps : List Piece}
  {offset : Nat} {t : CoefficientTag} {code : String}

/-! ## Tags -/

/-- The mention that closed text writes: five colons, four numbers. -/
def Names (inner : List Char) (m : Mention) : Prop :=
  ∃ id l ld r rd indices, IsSplit 5 inner [id, l, ld, r, rd] indices ∧
    (∀ f ∈ [l, ld, r, rd], IsNumeral f ∧ IsShort f) ∧
    m = { shape := ⟨fieldSize l, fieldSize ld, fieldSize r, fieldSize rd⟩
          id := String.ofList (Text.trimChars id) }

/-- The tag of a mention means the same coefficient. -/
theorem Names.exists_means (h : Names inner m) (offset : Nat) : ∃ t, Means inner offset t ∧ t.key = m.key := by
  obtain ⟨id, l, ld, r, rd, indices, hsplit, hsizes, rfl⟩ := h
  exact ⟨_, ⟨id, l, ld, r, rd, indices, hsplit, hsizes, rfl⟩, rfl⟩

theorem Means.exists_names (h : Means inner offset t) : ∃ m, Names inner m := by
  obtain ⟨id, l, ld, r, rd, indices, hsplit, hsizes, -⟩ := h
  exact ⟨_, id, l, ld, r, rd, indices, hsplit, hsizes, rfl⟩

/-! ## Sources -/

/-- The mentions of segments in order. -/
inductive Segment.Mentions : List Segment → List Mention → Prop
  | nil : Mentions [] []
  | plain {c : Char} {ss : List Segment} {ms : List Mention} (h : Mentions ss ms) : Mentions (.plain c :: ss) ms
  | tag {inner : List Char} {m : Mention} {ss : List Segment} {ms : List Mention} (hnames : Names inner m)
      (h : Mentions ss ms) : Mentions (.tag inner :: ss) (m :: ms)

theorem Segment.Mentions.exists_renders (h : Segment.Mentions ss ms) : ∀ offset, ∃ ps, Renders offset ss ps ∧
    (ps.filterMap Piece.tag?).map CoefficientTag.key = ms.map Mention.key := by
  induction h with
  | nil => exact fun offset => ⟨[], .nil offset, rfl⟩
  | plain _ ih =>
      intro offset
      obtain ⟨ps, hps, hkeys⟩ := ih (offset + 1)
      exact ⟨_, .plain hps, hkeys⟩
  | @tag inner m ss ms hnames _ ih =>
      intro offset
      obtain ⟨t, hmeans, hkey⟩ := hnames.exists_means offset
      obtain ⟨ps, hps, hkeys⟩ := ih (offset + inner.length + 3)
      refine ⟨_, .tag hmeans hps, ?_⟩
      simp only [List.filterMap_cons, Piece.tag?, List.map_cons, hkey, hkeys]

theorem Renders.exists_mentions (h : Renders offset ss ps) : ∃ ms, Segment.Mentions ss ms := by
  induction h with
  | nil => exact ⟨[], .nil⟩
  | plain _ ih =>
      obtain ⟨ms, hms⟩ := ih
      exact ⟨ms, .plain hms⟩
  | tag hmeans _ ih =>
      obtain ⟨m, hnames⟩ := hmeans.exists_names
      obtain ⟨ms, hms⟩ := ih
      exact ⟨m :: ms, .tag hnames hms⟩

/-- The mentions of a source in order. All its tags are closed and write a mention. -/
def Mentions (code : String) (ms : List Mention) : Prop :=
  ∃ ss rest, Reads code.toList ss rest ∧ IsEnd rest ∧ Segment.Mentions ss ms

/-- **A source with mentions is read, and its tags have their keys.** -/
theorem parseEquation_of_mentions (h : Mentions code ms) :
    ∃ reading, parseEquation code = .ok reading ∧ reading.tags.map CoefficientTag.key = ms.map Mention.key := by
  obtain ⟨ss, rest, hreads, hend, hmentions⟩ := h
  obtain ⟨ps, hps, hkeys⟩ := hmentions.exists_renders 0
  refine ⟨{ body := String.ofList (ps.flatMap Piece.chars), tags := ps.filterMap Piece.tag? }, ?_, hkeys⟩
  unfold parseEquation
  rw [readPieces_of_renders hreads hend hps]
  rfl

/-- Every source that is read has mentions. -/
theorem exists_mentions {reading : ParsedEquation} (h : parseEquation code = .ok reading) :
    ∃ ms, Mentions code ms := by
  rcases isReadable 0 code.toList with ⟨ss, rest, ps, hreads, hend, hps⟩ | ⟨ss, bad, ps, e, n, hreads, hps, hbad⟩
  · obtain ⟨ms, hms⟩ := hps.exists_mentions
    exact ⟨ms, ss, rest, hreads, hend, hms⟩
  · unfold parseEquation at h
    rw [readPieces_of_offends hreads hps hbad] at h
    cases h

end TensorEquations
