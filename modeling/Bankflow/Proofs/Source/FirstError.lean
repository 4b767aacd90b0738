import Bankflow.Proofs.Source.Derivable
import Bankflow.Proofs.Source.LookAhead
import Bankflow.Proofs.Source.Tiling

/-!
# Syntax errors are at the first token that fits nowhere

A source whose tokens are no program has one syntax error, after those of its characters. It
is at the first token with which no program goes on from the tokens before, or at the end of
the source if they are only the beginning of programs.

That is what the rules take until they fail (`Rule.Takes`): the tokens before can go on to a
program, and with the next token the rules fail however the source goes on, although they
read every program. The error is the one of the furthest failed test when the tokens are read
with rewinding, where what fails in the end is often something before (`rewinds_iff`).
-/

namespace Bankflow.Source

/-- Some program begins with these tokens, wherever its other tokens are. -/
def Viable (tokens : List Lexeme) : Prop := ∃ d : Phrase.Program, tokens <+: d.tokens

/-- The error is at the first of the tokens with which no program goes on, in a source of this
many bytes. -/
structure AtFirstOffence (tokens : List Lexeme) (length : Nat) (e : SyntaxError) : Prop where
  place : (∃ l ∈ tokens, e.span = l.span) ∨ e.span = ⟨length, length⟩
  token : ∀ p l, tokens[p]? = some l → e.span = l.span →
    (∃ expected, e.problem = .unexpected (some l.token) expected) ∧
      Viable (tokens.take p) ∧ ¬ Viable (tokens.take (p + 1))
  /-- At the end of the source, all tokens together are the beginning of a program. -/
  stop : e.span = ⟨length, length⟩ →
    (∃ expected, e.problem = .unexpected none expected) ∧
      ∃ (d : Phrase.Program) (more : List Lexeme), more ≠ [] ∧ d.tokens = tokens ++ more

/-- The tokens before a failure can go on to a program, but not with the next token. -/
theorem programOf_eq_error {tokens : List Lexeme} {length : Nat} {e : SyntaxError}
    (h : programOf tokens length = .error e) :
    ∃ ts rest expected, tokens = ts ++ rest ∧ Viable ts ∧
      (rest = [] ∧ e = ⟨⟨length, length⟩, .unexpected none expected⟩ ∨
        ∃ l tail, rest = l :: tail ∧ e = ⟨l.span, .unexpected (some l.token) expected⟩ ∧
          ¬ Viable (ts ++ [l])) := by
  unfold programOf at h
  split at h
  · next f hf =>
    cases h
    obtain ⟨ts, hts, ⟨-, us, d, hd⟩, hrejects⟩ :=
      (Phrase.takes_statements _).error _ f (Nat.lt_succ_self _) hf
    refine ⟨ts, f.rest, f.expected, hts, ⟨d, us, hd.symm⟩, ?_⟩
    cases hrest : f.rest with
    | nil => exact .inl ⟨rfl, by simp only [Failure.error, hrest]⟩
    | cons l tail =>
      refine .inr ⟨l, tail, rfl, by simp only [Failure.error, hrest], ?_⟩
      rintro ⟨d', vs, hd'⟩
      -- the rules would read the program, but fail at the token as before
      have hrest' : d'.tokens = ts ++ l :: vs := by rw [← hd', List.append_assoc]; rfl
      obtain ⟨f', hf'⟩ := hrejects (l :: vs) (by rw [hrest]; rfl) ⟨d'.tokens, 0, []⟩ hrest' rfl
      obtain ⟨q, hq, -⟩ := d'.reads ⟨d'.tokens, 0, []⟩ (List.append_nil _).symm rfl
      cases hf'.symm.trans hq
  · cases h

theorem start_lt_stop_of_mem_lex {source : String} {l : Lexeme} (h : l ∈ (lex source).tokens) :
    l.span.start < l.span.stop :=
  (lex_spans_bounded (List.mem_append_left _ (List.mem_map_of_mem h))).1

/-- No two tokens are at the same place. -/
theorem eq_of_lex_span_eq {source : String} {p q : Nat} {x y : Lexeme}
    (hx : (lex source).tokens[p]? = some x) (hy : (lex source).tokens[q]? = some y)
    (h : x.span = y.span) : p = q := by
  have hordered : ∀ {i j : Nat} {z w : Lexeme}, i < j → (lex source).tokens[i]? = some z →
      (lex source).tokens[j]? = some w → z.span.stop ≤ w.span.start := by
    intro i j z w hij hz hw
    obtain ⟨hi, rfl⟩ := List.getElem?_eq_some_iff.mp hz
    obtain ⟨hj, rfl⟩ := List.getElem?_eq_some_iff.mp hw
    exact List.pairwise_iff_getElem.mp (lex_tokens_pairwise source) i j hi hj hij
  have hspan := start_lt_stop_of_mem_lex (List.mem_of_getElem? hx)
  rcases Nat.lt_trichotomy p q with hlt | heq | hgt
  · have hle := hordered hlt hx hy
    rw [← h] at hle
    omega
  · exact heq
  · have hle := hordered hgt hy hx
    rw [← h] at hle
    omega

/-- Tokens are not empty, so none is at the end of the source. -/
theorem lex_span_ne_stop {source : String} {l : Lexeme} (h : l ∈ (lex source).tokens) :
    l.span ≠ ⟨source.utf8ByteSize, source.utf8ByteSize⟩ := by
  intro heq
  have hlt := start_lt_stop_of_mem_lex h
  rw [heq] at hlt
  exact Nat.lt_irrefl _ hlt

/-- All tokens are the beginning of a program, and there should be more. -/
theorem atFirstOffence_stop {source : String} (expected : List Expected)
    (h : ∀ d : Phrase.Program, d.tokens ≠ (lex source).tokens)
    (hviable : Viable (lex source).tokens) :
    AtFirstOffence (lex source).tokens source.utf8ByteSize
      ⟨⟨source.utf8ByteSize, source.utf8ByteSize⟩, .unexpected none expected⟩ where
  place := .inr rfl
  token _ _ hl heq := absurd heq.symm (lex_span_ne_stop (List.mem_of_getElem? hl))
  stop _ := by
    obtain ⟨d, more, hd⟩ := hviable
    refine ⟨⟨expected, rfl⟩, d, more, fun hmore => h d ?_, hd.symm⟩
    rw [← hd, hmore, List.append_nil]

/-- The tokens before `l` are the beginning of a program, but not with `l`. -/
theorem atFirstOffence_token {source : String} {ts tail : List Lexeme} {l : Lexeme}
    (expected : List Expected) (htokens : (lex source).tokens = ts ++ l :: tail)
    (hviable : Viable ts) (hoffence : ¬ Viable (ts ++ [l])) :
    AtFirstOffence (lex source).tokens source.utf8ByteSize
      ⟨l.span, .unexpected (some l.token) expected⟩ := by
  have hl : (lex source).tokens[ts.length]? = some l := by
    rw [htokens, List.getElem?_append_right (Nat.le_refl _), Nat.sub_self]
    rfl
  refine ⟨.inl ⟨l, List.mem_of_getElem? hl, rfl⟩, fun p l' hl' heq => ?_, fun heq => ?_⟩
  · obtain rfl : ts.length = p := eq_of_lex_span_eq hl hl' heq
    cases hl.symm.trans hl'
    refine ⟨⟨expected, rfl⟩, ?_⟩
    rw [htokens, List.take_left, List.take_length_add_append]
    exact ⟨hviable, hoffence⟩
  · exact absurd heq (lex_span_ne_stop (List.mem_of_getElem? hl))

/-- A source whose tokens are no program has one syntax error after those of its characters,
and it is at the first token with which no program goes on. The error is that of the furthest
token at which a test failed while the tokens were read with rewinding. -/
theorem parse_error_at_first_offence (source : String)
    (h : ∀ d : Phrase.Program, d.tokens ≠ (lex source).tokens) :
    ∃ e, parse source = ⟨none, (lex source).errors ++ [e]⟩ ∧
      AtFirstOffence (lex source).tokens source.utf8ByteSize e ∧
      ∀ r, Rewinds (lex source).tokens source.utf8ByteSize r ↔ r = .error e := by
  cases hp : programOf (lex source).tokens source.utf8ByteSize with
  | ok p =>
    obtain ⟨d, hd⟩ := Phrase.Program.exists_of_programOf hp
    exact absurd hd (h d)
  | error e =>
    refine ⟨e, by simp only [parse, hp], ?_, fun r => hp ▸ rewinds_iff⟩
    obtain ⟨ts, rest, expected, htokens, hviable, hrest⟩ := programOf_eq_error hp
    rcases hrest with ⟨rfl, rfl⟩ | ⟨l, tail, rfl, rfl, hoffence⟩
    · rw [List.append_nil] at htokens
      exact atFirstOffence_stop expected h (htokens ▸ hviable)
    · exact atFirstOffence_token expected htokens hviable hoffence

/-- After a comma there must be another number. -/
theorem parse_error_after_comma :
    (∀ d : Phrase.Program, d.tokens ≠ (lex "array a[4, ] : f32").tokens) ∧
      ∃ e, parse "array a[4, ] : f32" = ⟨none, (lex "array a[4, ] : f32").errors ++ [e]⟩ ∧
        AtFirstOffence (lex "array a[4, ] : f32").tokens "array a[4, ] : f32".utf8ByteSize e ∧
        ∀ r, Rewinds (lex "array a[4, ] : f32").tokens "array a[4, ] : f32".utf8ByteSize r ↔
          r = .error e := by
  have herror : (programOf (lex "array a[4, ] : f32").tokens 18).isOk = false := by
    decide +kernel
  have h : ∀ d : Phrase.Program, d.tokens ≠ (lex "array a[4, ] : f32").tokens := by
    intro d hd
    rw [← hd, d.programOf_tokens] at herror
    cases herror
  exact ⟨h, parse_error_at_first_offence _ h⟩

end Bankflow.Source
