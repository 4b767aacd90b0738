import Bankflow.Proofs.Source.Standing
import Mathlib.Data.List.Pairwise

/-!
# Tokens and errors tile the source

`Tiling` says how the tokens and errors of a source lie in it and which ones there are, with
nothing but the source to go by. The bytes between them are blanks and comments.

The lexer tiles every source (`lex_tiling`).
-/

namespace Bankflow.Source

/-- In the source, `text` stands at the span, after `before` and in front of `after`. -/
structure Holds (source : String) (span : Span) (before text after : List Char) : Prop where
  source_eq : source.toList = before ++ (text ++ after)
  start_eq : span.start = width before
  stop_eq : span.stop = width before + width text

/-- The byte belongs to a blank or to a comment. -/
def Skipped (source : String) (byte : Nat) : Prop :=
  ∃ before c after, source.toList = before ++ c :: after ∧
    width before ≤ byte ∧ byte < width before + c.utf8Size ∧
    (c = ' ' ∨ c = '\t' ∨ c = '\r' ∨ RunKind.comment.Open (before ++ [c]))

/-- Where tokens and errors are. -/
def Lexed.spans (l : Lexed) : List Span := l.tokens.map (·.span) ++ l.errors.map (·.span)

/-- Tokens and errors that tile a source. -/
structure Tiling (source : String) (l : Lexed) : Prop where
  /-- Spans are not empty, and begin and end at characters of the source. -/
  bounded : ∀ span ∈ l.spans, span.start < span.stop ∧ span.stop ≤ source.utf8ByteSize ∧
    String.Pos.Raw.IsValid source ⟨span.start⟩ ∧ String.Pos.Raw.IsValid source ⟨span.stop⟩
  tokens_ascending : l.tokens.Pairwise fun x y => x.span.stop ≤ y.span.start
  errors_ascending : l.errors.Pairwise fun e f => e.span.stop ≤ f.span.start
  disjoint : ∀ x ∈ l.tokens, ∀ e ∈ l.errors,
    x.span.stop ≤ e.span.start ∨ e.span.stop ≤ x.span.start
  uncovered : ∀ byte < source.utf8ByteSize,
    (∀ span ∈ l.spans, ¬ (span.start ≤ byte ∧ byte < span.stop)) ↔ Skipped source byte
  /-- The text of a token is the longest at its place that matches anything. -/
  longest : ∀ x ∈ l.tokens, ∃ before text after, Holds source x.span before text after ∧
    x.token.pattern.Matches text ∧ ∀ (p : Pattern) (longer : List Char),
      longer <+: text ++ after → p.Matches longer → longer.length ≤ text.length
  /-- The tokens are all that stand in the source, outside of comments. -/
  mem_tokens_iff : ∀ x : Lexeme, x ∈ l.tokens ↔ ∃ before text after,
    Holds source x.span before text after ∧ ¬ RunKind.comment.Open (before ++ text) ∧
      x.token.Stands before text after
  mem_errors_iff : ∀ e : SyntaxError, e ∈ l.errors ↔ ∃ before text after,
    Holds source e.span before text after ∧ ¬ RunKind.comment.Open (before ++ text) ∧
      IsStray before text after ∧ e.problem = .stray (String.ofList text)

/-! ## Tokens and errors are pieces -/

theorem Piece.lexeme?_eq_some_iff {p : Piece} {x : Lexeme} :
    p.lexeme? = some x ↔ p.kind = .token x.token ∧ p.span = x.span := by
  obtain ⟨kind, span, chars⟩ := p
  obtain ⟨token, span'⟩ := x
  cases kind <;> simp [lexeme?]

theorem Piece.error?_eq_some_iff {p : Piece} {e : SyntaxError} : p.error? = some e ↔
    p.kind = .stray ∧ p.span = e.span ∧ e.problem = .stray (String.ofList p.chars) := by
  obtain ⟨kind, span, chars⟩ := p
  obtain ⟨span', problem⟩ := e
  cases kind <;> simp [error?, eq_comm]

theorem mem_lex_tokens {source : String} {x : Lexeme} : x ∈ (lex source).tokens ↔
    ∃ p ∈ scan 0 0 source.toList, p.kind = .token x.token ∧ p.span = x.span := by
  simp only [lex, List.mem_filterMap, Piece.lexeme?_eq_some_iff]

theorem mem_lex_errors {source : String} {e : SyntaxError} : e ∈ (lex source).errors ↔
    ∃ p ∈ scan 0 0 source.toList,
      p.kind = .stray ∧ p.span = e.span ∧ e.problem = .stray (String.ofList p.chars) := by
  simp only [lex, List.mem_filterMap, Piece.error?_eq_some_iff]

/-- The spans are those of the pieces that are not left out. -/
theorem mem_lex_spans {source : String} {span : Span} : span ∈ (lex source).spans ↔
    ∃ p ∈ scan 0 0 source.toList, p.kind ≠ .separator ∧ p.span = span := by
  simp only [Lexed.spans, List.mem_append, List.mem_map]
  constructor
  · rintro (⟨x, hx, rfl⟩ | ⟨e, he, rfl⟩)
    · obtain ⟨p, hp, hkind, hspan⟩ := mem_lex_tokens.mp hx
      exact ⟨p, hp, by simp [hkind], hspan⟩
    · obtain ⟨p, hp, hkind, hspan, -⟩ := mem_lex_errors.mp he
      exact ⟨p, hp, by simp [hkind], hspan⟩
  · rintro ⟨p, hp, hkind, rfl⟩
    cases hp' : p.kind with
    | separator => exact absurd hp' hkind
    | token t => exact .inl ⟨⟨t, p.span⟩, mem_lex_tokens.mpr ⟨p, hp, hp', rfl⟩, rfl⟩
    | stray => exact .inr ⟨⟨p.span, _⟩, mem_lex_errors.mpr ⟨p, hp, hp', rfl, rfl⟩, rfl⟩

/-- The scan gives a piece to every text that is one. -/
theorem mem_scan_of_holds {source : String} {span : Span} {before text after : List Char}
    {kind : PieceKind} (h : Holds source span before text after) (hcut : Cut text kind after)
    (hsplits : ∀ c ∈ text.head?, Splits before c) :
    ⟨kind, span, text⟩ ∈ scan 0 0 source.toList := by
  refine mem_scan_iff.mpr ⟨before, after, h.source_eq, ?_, hcut, hsplits⟩
  show span = ⟨width before, width before + width text⟩
  rw [← h.stop_eq, ← h.start_eq]

theorem Piece.Sits.holds {source : String} {p : Piece} {before after : List Char}
    (h : p.Sits before after) (hsource : source.toList = before ++ (p.chars ++ after)) :
    Holds source p.span before p.chars after :=
  ⟨hsource, by rw [h.span_eq], by rw [h.span_eq]⟩

/-- Outside of separators no comment is open. -/
theorem Piece.Sits.not_open_comment {p : Piece} {before after : List Char} (h : p.Sits before after)
    (hkind : p.kind ≠ .separator) : ¬ RunKind.comment.Open (before ++ p.chars) := by
  have hplain := h.cut.unseparated hkind
  obtain ⟨c, cs, hchars⟩ := h.cut.exists_cons
  have hc : Splits before c := h.splits c (by rw [hchars]; rfl)
  rw [hchars] at hplain ⊢
  exact hc.not_open fun x hx => (hplain x hx).2

/-! ## Bytes -/

theorem utf8ByteSize_ofList (cs : List Char) : (String.ofList cs).utf8ByteSize = width cs := by
  induction cs with
  | nil => rfl
  | cons c cs ih =>
    rw [← List.singleton_append, String.ofList_append, String.utf8ByteSize_append, ih]
    simp

theorem utf8ByteSize_eq (source : String) : source.utf8ByteSize = width source.toList := by
  rw [← utf8ByteSize_ofList, String.ofList_toList]

theorem isValid_width {source : String} {before after : List Char}
    (h : source.toList = before ++ after) : String.Pos.Raw.IsValid source ⟨width before⟩ := by
  refine String.Pos.Raw.isValid_iff_exists_append.mpr
    ⟨String.ofList before, String.ofList after, ?_, ?_⟩
  · rw [← String.ofList_append, ← h, String.ofList_toList]
  · rw [String.Pos.Raw.ext_iff]
    exact (utf8ByteSize_ofList before).symm

/-- Every byte belongs to a character. -/
theorem exists_char_of_lt_width {cs : List Char} {byte : Nat} (h : byte < width cs) :
    ∃ u c v, cs = u ++ c :: v ∧ width u ≤ byte ∧ byte < width u + c.utf8Size := by
  induction cs generalizing byte with
  | nil => cases h
  | cons c cs ih =>
    rw [width_cons] at h
    by_cases hc : byte < c.utf8Size
    · exact ⟨[], c, cs, rfl, Nat.zero_le _, by simpa using hc⟩
    · obtain ⟨u, d, v, rfl, hle, hlt⟩ := ih (show byte - c.utf8Size < width cs by omega)
      refine ⟨c :: u, d, v, rfl, ?_, ?_⟩ <;> rw [width_cons] <;> omega

/-- Spans hold at least one character, and stay within the source. -/
theorem lex_spans_bounded {source : String} {span : Span} (h : span ∈ (lex source).spans) :
    span.start < span.stop ∧ span.stop ≤ source.utf8ByteSize ∧
      String.Pos.Raw.IsValid source ⟨span.start⟩ ∧ String.Pos.Raw.IsValid source ⟨span.stop⟩ := by
  obtain ⟨p, hp, -, rfl⟩ := mem_lex_spans.mp h
  obtain ⟨before, after, hsource, hsits⟩ := mem_scan_iff.mp hp
  obtain ⟨c, cs, hchars⟩ := hsits.cut.exists_cons
  have hpos : 0 < width p.chars := by
    rw [hchars, width_cons]
    exact Nat.add_pos_left c.utf8Size_pos _
  have hstop : String.Pos.Raw.IsValid source ⟨width before + width p.chars⟩ := by
    rw [← width_append]
    exact isValid_width (hsource.trans (List.append_assoc ..).symm)
  rw [utf8ByteSize_eq, hsource, hsits.span_eq]
  refine ⟨Nat.lt_add_of_pos_right hpos, ?_, isValid_width hsource, hstop⟩
  simp only [width_append]
  omega

theorem lex_tokens_pairwise (source : String) :
    (lex source).tokens.Pairwise fun x y => x.span.stop ≤ y.span.start := by
  refine (tiles_source source.toList).pairwise.2.filterMap _ fun p q hpq x hx y hy => ?_
  rw [← (Piece.lexeme?_eq_some_iff.mp hx).2, ← (Piece.lexeme?_eq_some_iff.mp hy).2]
  exact hpq

theorem lex_errors_pairwise (source : String) :
    (lex source).errors.Pairwise fun e f => e.span.stop ≤ f.span.start := by
  refine (tiles_source source.toList).pairwise.2.filterMap _ fun p q hpq e he f hf => ?_
  rw [← (Piece.error?_eq_some_iff.mp he).2.1, ← (Piece.error?_eq_some_iff.mp hf).2.1]
  exact hpq

/-- Two pieces do not overlap. -/
theorem scan_disjoint {source : List Char} {p q : Piece} (hp : p ∈ scan 0 0 source)
    (hq : q ∈ scan 0 0 source) (hne : p ≠ q) :
    p.span.stop ≤ q.span.start ∨ q.span.stop ≤ p.span.start := by
  have hsymm : Std.Symm fun p q : Piece =>
      p.span.stop ≤ q.span.start ∨ q.span.stop ≤ p.span.start := ⟨fun _ _ => Or.symm⟩
  have hpairwise : (scan 0 0 source).Pairwise fun p q =>
      p.span.stop ≤ q.span.start ∨ q.span.stop ≤ p.span.start :=
    (tiles_source source).pairwise.2.imp .inl
  exact hpairwise.forall hp hq hne

/-- The bytes of a character are left out exactly if it belongs to a separator. -/
theorem uncovered_iff {source : String} {u v : List Char} {c : Char} {byte : Nat}
    (hsource : source.toList = u ++ c :: v) (hle : width u ≤ byte)
    (hlt : byte < width u + c.utf8Size) :
    (∀ span ∈ (lex source).spans, ¬ (span.start ≤ byte ∧ byte < span.stop)) ↔
      isBlank c = true ∨ RunKind.comment.Open (u ++ [c]) := by
  obtain ⟨p, hp, before, xs, ys, after, rfl, hchars, rfl, hsits⟩ :=
    (tiles_source source.toList).exists_mem hsource
  have hcut : Cut (xs ++ c :: ys) p.kind after := hchars ▸ hsits.cut
  have hsplits : ∀ d ∈ (xs ++ c :: ys).head?, Splits before d := hchars ▸ hsits.splits
  have hcovered : p.span.start ≤ byte ∧ byte < p.span.stop := by
    rw [hsits.span_eq, hchars]
    simp only [width_append, width_cons, List.nil_append] at hle hlt ⊢
    omega
  rw [List.append_assoc, ← hcut.eq_separator_iff hsplits]
  constructor
  · intro huncovered
    by_contra hkind
    exact huncovered p.span (mem_lex_spans.mpr ⟨p, hp, hkind, rfl⟩) hcovered
  · intro hkind span hspan hspan'
    obtain ⟨q, hq, hkind', rfl⟩ := mem_lex_spans.mp hspan
    have hne : p ≠ q := fun heq => hkind' (heq ▸ hkind)
    have hdisjoint := scan_disjoint hp hq hne
    omega

/-! ## The lexer -/

theorem lex_disjoint {source : String} {x : Lexeme} {e : SyntaxError}
    (hx : x ∈ (lex source).tokens) (he : e ∈ (lex source).errors) :
    x.span.stop ≤ e.span.start ∨ e.span.stop ≤ x.span.start := by
  obtain ⟨p, hp, hkind, hspan⟩ := mem_lex_tokens.mp hx
  obtain ⟨q, hq, hkind', hspan', -⟩ := mem_lex_errors.mp he
  have hne : p ≠ q := by
    rintro rfl
    cases hkind.symm.trans hkind'
  rw [← hspan, ← hspan']
  exact scan_disjoint hp hq hne

theorem uncovered_iff_skipped {source : String} {byte : Nat} (hbyte : byte < source.utf8ByteSize) :
    (∀ span ∈ (lex source).spans, ¬ (span.start ≤ byte ∧ byte < span.stop)) ↔
      Skipped source byte := by
  constructor
  · intro h
    obtain ⟨u, c, v, hsource, hle, hlt⟩ := exists_char_of_lt_width (utf8ByteSize_eq source ▸ hbyte)
    have hskipped := (uncovered_iff hsource hle hlt).mp h
    rw [isBlank_iff, or_assoc, or_assoc] at hskipped
    exact ⟨u, c, v, hsource, hle, hlt, hskipped⟩
  · rintro ⟨u, c, v, hsource, hle, hlt, hskipped⟩
    refine (uncovered_iff hsource hle hlt).mpr ?_
    rw [isBlank_iff, or_assoc, or_assoc]
    exact hskipped

theorem exists_longest {source : String} {x : Lexeme} (hx : x ∈ (lex source).tokens) :
    ∃ before text after, Holds source x.span before text after ∧
      x.token.pattern.Matches text ∧ ∀ (p : Pattern) (longer : List Char),
        longer <+: text ++ after → p.Matches longer → longer.length ≤ text.length := by
  obtain ⟨p, hp, hkind, hspan⟩ := mem_lex_tokens.mp hx
  obtain ⟨before, after, hsource, hsits⟩ := mem_scan_iff.mp hp
  have hcut : Cut p.chars (.token x.token) after := hkind ▸ hsits.cut
  exact ⟨before, p.chars, after, hspan ▸ hsits.holds hsource,
    (stands_of_cut hcut hsits.splits).matches, fun _ _ => hcut.length_le⟩

theorem mem_lex_tokens_iff_stands {source : String} {x : Lexeme} :
    x ∈ (lex source).tokens ↔ ∃ before text after, Holds source x.span before text after ∧
      ¬ RunKind.comment.Open (before ++ text) ∧ x.token.Stands before text after := by
  rw [mem_lex_tokens]
  constructor
  · rintro ⟨p, hp, hkind, hspan⟩
    obtain ⟨before, after, hsource, hsits⟩ := mem_scan_iff.mp hp
    exact ⟨before, p.chars, after, hspan ▸ hsits.holds hsource,
      hsits.not_open_comment (by simp [hkind]), stands_of_cut (hkind ▸ hsits.cut) hsits.splits⟩
  · rintro ⟨before, text, after, hholds, hcomment, hstands⟩
    obtain ⟨hcut, hsplits⟩ := cut_of_stands hcomment hstands
    exact ⟨_, mem_scan_of_holds hholds hcut hsplits, rfl, rfl⟩

theorem mem_lex_errors_iff_isStray {source : String} {e : SyntaxError} :
    e ∈ (lex source).errors ↔ ∃ before text after, Holds source e.span before text after ∧
      ¬ RunKind.comment.Open (before ++ text) ∧ IsStray before text after ∧
        e.problem = .stray (String.ofList text) := by
  rw [mem_lex_errors]
  constructor
  · rintro ⟨p, hp, hkind, hspan, hproblem⟩
    obtain ⟨before, after, hsource, hsits⟩ := mem_scan_iff.mp hp
    exact ⟨before, p.chars, after, hspan ▸ hsits.holds hsource,
      hsits.not_open_comment (by simp [hkind]), isStray_of_cut (hkind ▸ hsits.cut) hsits.splits,
      hproblem⟩
  · rintro ⟨before, text, after, hholds, hcomment, hstray, hproblem⟩
    obtain ⟨hcut, hsplits⟩ := cut_of_isStray hcomment hstray
    exact ⟨_, mem_scan_of_holds hholds hcut hsplits, rfl, rfl, hproblem⟩

/-- The tokens and errors of every source tile it. -/
theorem lex_tiling (source : String) : Tiling source (lex source) where
  bounded _ := lex_spans_bounded
  tokens_ascending := lex_tokens_pairwise source
  errors_ascending := lex_errors_pairwise source
  disjoint _ hx _ he := lex_disjoint hx he
  uncovered _ := uncovered_iff_skipped
  longest _ := exists_longest
  mem_tokens_iff _ := mem_lex_tokens_iff_stands
  mem_errors_iff _ := mem_lex_errors_iff_isStray

end Bankflow.Source
