import Bankflow.Proofs.Source.Grammar

/-!
# Texts and their tokens

`Lexes s R` says that the text `s`, at the end of any source, is cut into tokens that
satisfy `R`, with nothing stray. Tokens are as long as they can be, so a word or a number
is only the token it looks like if what follows it stands apart (`Apart`). Here are the
texts of single tokens, with the blanks around them.

In the other direction, the names among the tokens of a source are names (`IsName`) and
its numbers are not negative (`Token.IsLegal`).
-/

namespace Bankflow.Source

/-! ## Pieces -/

/-- Scanning goes on after the characters that belong to the piece before. -/
theorem scan_eq (cs : List Char) (pos k : Nat) :
    scan pos k cs = scan (pos + width (cs.take k)) 0 (cs.drop k) := by
  induction cs generalizing pos k with
  | nil => simp [scan]
  | cons c cs ih =>
    cases k with
    | zero => simp [width]
    | succ k =>
      rw [scan, ih, List.take_succ_cons, List.drop_succ_cons]
      simp [width, Nat.add_assoc]

/-- At the end of any source, the text is cut without errors into tokens that satisfy
`R`. -/
def Lexes (s : String) (R : List Lexeme → Prop) : Prop :=
  ∀ pos, (scan pos 0 s.toList).filterMap Piece.error? = [] ∧
    R ((scan pos 0 s.toList).filterMap Piece.lexeme?)

/-- No character at the start of the text continues a word or a number before it. -/
def Apart (s : String) : Prop := s.toList.head?.all (! continuesName ·) = true

instance (s : String) : Decidable (Apart s) := inferInstanceAs (Decidable (_ = true))

theorem Apart.append {s t : String} (hs : Apart s) (hne : s ≠ "") : Apart (s ++ t) := by
  unfold Apart at *
  rw [String.toList_append]
  cases hcs : s.toList with
  | nil => exact absurd (String.toList_eq_nil_iff.mp hcs) hne
  | cons c cs => rwa [hcs] at hs

/-- Some blanks. -/
def blanks (n : Nat) : String := String.ofList (List.replicate n ' ')

theorem blanks_succ (n : Nat) : blanks (n + 1) = " " ++ blanks n := by
  rw [blanks, List.replicate_succ, ← List.singleton_append, String.ofList_append]
  rfl

/-- A run of characters that what follows does not continue. -/
theorem takeWhile_append_of_head? {p : Char → Bool} {cs rest : List Char}
    (hcs : ∀ c ∈ cs, p c = true) (hrest : ∀ c ∈ rest.head?, p c = false) :
    (cs ++ rest).takeWhile p = cs := by
  rw [List.takeWhile_append_of_pos hcs]
  cases rest with
  | nil => exact List.append_nil cs
  | cons c rest =>
    rw [List.takeWhile_cons_of_neg (by simpa using hrest c rfl), List.append_nil]

namespace Lexes

variable {rest : String} {R : List Lexeme → Prop}

theorem nil (h : R []) : Lexes "" R := fun _ => ⟨rfl, h⟩

theorem token {s : String} {c : Char} {cs : List Char} {t : Token} (hs : s.toList = c :: cs)
    (hpiece : piece c (cs ++ rest.toList) = (.token t, cs.length))
    (h : ∀ span, Lexes rest fun us => R (⟨t, span⟩ :: us)) : Lexes (s ++ rest) R := by
  intro pos
  rw [String.toList_append, hs, List.cons_append, scan]
  simp only [hpiece]
  rw [scan_eq, List.drop_left]
  exact h _ _

/-- Blanks merge with those that follow. -/
theorem blank (h : Lexes rest R) : Lexes (" " ++ rest) R := by
  have hpiece : ∀ cs, piece ' ' cs = (.separator, (cs.takeWhile isBlank).length) := fun _ => rfl
  have hskip : ∀ {γ : Type} (g : Piece → Option γ), (∀ span cs, g ⟨.separator, span, cs⟩ = none) →
      ∀ (cs : List Char) (pos : Nat), (scan pos 0 (' ' :: cs)).filterMap g =
        (scan (pos + ' '.utf8Size) 0 cs).filterMap g := by
    intro γ g hg cs pos
    rw [scan]
    simp only [hpiece, List.filterMap_cons, hg]
    cases cs with
    | nil => rfl
    | cons b cs =>
      by_cases hb : isBlank b = true
      · have hpiece' : piece b cs = (.separator, (cs.takeWhile isBlank).length) := if_pos hb
        rw [List.takeWhile_cons_of_pos hb, List.length_cons, scan, scan]
        simp only [hpiece', List.filterMap_cons, hg]
      · rw [List.takeWhile_cons_of_neg hb]
        rfl
  intro pos
  rw [String.toList_append]
  exact ⟨(hskip Piece.error? (fun _ _ => rfl) _ _).trans (h _).1,
    (hskip Piece.lexeme? (fun _ _ => rfl) _ _).symm ▸ (h _).2⟩

theorem newline (hrest : rest.toList.head? ≠ some '\n')
    (h : ∀ span, Lexes rest fun us => R (Source.newline span :: us)) : Lexes ("\n" ++ rest) R := by
  have hnone : rest.toList.takeWhile (· = '\n') = [] := by
    refine takeWhile_append_of_head? (List.forall_mem_nil _) fun c hc => ?_
    simp only [decide_eq_false_iff_not]
    rintro rfl
    exact hrest hc
  refine token rfl ?_ h
  show (PieceKind.token Token.newline, _) = _
  rw [List.nil_append, hnone]

/-- A sign; a minus must not be followed by what makes it an arrow. -/
theorem mark (y : Symbol) (hy : y = .minus → rest.toList.head? ≠ some '>')
    (h : ∀ span, Lexes rest fun us => R (y.lexeme span :: us)) : Lexes (y.text ++ rest) R := by
  cases y with
  | minus =>
    refine token rfl ?_ h
    show (if '-' = '-' ∧ rest.toList.head? = some '>' then _ else _) = _
    rw [if_neg fun h => hy rfl h.2]
    rfl
  | _ => exact token rfl rfl h

theorem blanks (n : Nat) (h : Lexes rest R) : Lexes (Source.blanks n ++ rest) R := by
  induction n with
  | zero => exact h
  | succ n ih =>
    rw [blanks_succ, String.append_assoc]
    exact ih.blank

/-- A sign between blanks. -/
theorem spacedMark {s : String} (y : Symbol) (m n : Nat)
    (hs : s = Source.blanks m ++ (y.text ++ Source.blanks n)) (hy : y = .minus → n ≠ 0)
    (h : ∀ span, Lexes rest fun us => R (y.lexeme span :: us)) : Lexes (s ++ rest) R := by
  subst hs
  rw [String.append_assoc, String.append_assoc]
  refine (mark y (fun hminus => ?_) fun span => (h span).blanks n).blanks m
  obtain ⟨k, rfl⟩ := Nat.exists_eq_succ_of_ne_zero (hy hminus)
  rw [blanks_succ, String.append_assoc, String.toList_append]
  show some ' ' ≠ some '>'
  decide

end Lexes

/-! ## Words -/

theorem continuesName_of_isDigit {c : Char} (h : c.isDigit = true) : continuesName c = true := by
  simp [continuesName, Char.isAlphanum, h]

theorem isDigit_of_startsName {c : Char} (h : startsName c = true) : c.isDigit = false := by
  refine Bool.eq_false_iff.mpr fun hd => ?_
  have hhi : c.toNat ≤ 57 := (Char.isDigit_iff_toNat.mp hd).2
  have hne : c ≠ '_' := by
    rintro rfl
    cases hd
  have halpha : c.isAlpha = true := by
    simpa only [startsName, Bool.or_eq_true, decide_eq_true_eq, hne, or_false] using h
  rcases Bool.or_eq_true_iff.mp halpha with hupper | hlower
  · have hlo : 65 ≤ c.toNat := (of_decide_eq_true hupper).1
    omega
  · have hlo : 97 ≤ c.toNat := of_decide_eq_true (Bool.and_eq_true_iff.mp hlower).1
    omega

/-- A character of a class that has no blank, `#` or line break. -/
theorem not_separator_of_class {p : Char → Bool} {c : Char} (hc : p c = true)
    (hp : [' ', '\t', '\r', '#', '\n'].all (! p ·) = true) :
    isBlank c = false ∧ c ≠ '#' ∧ c ≠ '\n' := by
  have hne : ∀ d ∈ [' ', '\t', '\r', '#', '\n'], c ≠ d := by
    rintro d hd rfl
    have hnot := List.all_eq_true.mp hp c hd
    rw [hc] at hnot
    cases hnot
  simpa [isBlank, and_assoc] using hne

theorem piece_word {c : Char} (cs : List Char) (hc : startsName c = true) :
    piece c cs =
      (wordPiece (c :: cs.takeWhile continuesName), (cs.takeWhile continuesName).length) := by
  obtain ⟨hblank, hcomment, hbreak⟩ := not_separator_of_class hc rfl
  simp [piece, hblank, hcomment, hbreak, isDigit_of_startsName hc, hc]

theorem piece_digits {c : Char} (cs : List Char) (hc : c.isDigit = true) :
    piece c cs =
      (numberPiece (c :: cs.takeWhile Char.isDigit), (cs.takeWhile Char.isDigit).length) := by
  obtain ⟨hblank, hcomment, hbreak⟩ := not_separator_of_class hc rfl
  simp [piece, hblank, hcomment, hbreak, hc]

theorem Apart.head? {s : String} (h : Apart s) : ∀ c ∈ s.toList.head?, continuesName c = false := by
  intro c hc
  unfold Apart at h
  rw [Option.mem_def.mp hc] at h
  simpa using h

/-- A word in the source language. -/
def IsWord (s : String) : Prop :=
  ∃ c cs, s.toList = c :: cs ∧ startsName c = true ∧ ∀ x ∈ cs, continuesName x = true

/-- A word that is not reserved. -/
structure IsName (s : String) : Prop where
  word : IsWord s
  free : Keyword.ofText? s = none

namespace Lexes

variable {rest : String} {R : List Lexeme → Prop}

theorem word {s : String} {t : Token} (hs : IsWord s) (ht : wordPiece s.toList = .token t)
    (hrest : Apart rest) (h : ∀ span, Lexes rest fun us => R (⟨t, span⟩ :: us)) :
    Lexes (s ++ rest) R := by
  obtain ⟨c, cs, hcs, hc, hall⟩ := hs
  refine token hcs ?_ h
  rw [piece_word _ hc, takeWhile_append_of_head? hall hrest.head?, ← hcs, ht]

theorem keyword (k : Keyword) (hrest : Apart rest)
    (h : ∀ span, Lexes rest fun us => R (k.lexeme span :: us)) : Lexes (k.text ++ rest) R := by
  refine word ?_ ?_ hrest h
  · cases k <;> exact ⟨_, _, rfl, rfl, List.all_eq_true.mp rfl⟩
  · cases k <;> rfl

/-- A reserved word between blanks. -/
theorem spacedKeyword {s : String} (k : Keyword) (m n : Nat)
    (hs : s = Source.blanks m ++ (k.text ++ Source.blanks n)) (hrest : n = 0 → Apart rest)
    (h : ∀ span, Lexes rest fun us => R (k.lexeme span :: us)) : Lexes (s ++ rest) R := by
  subst hs
  rw [String.append_assoc, String.append_assoc]
  refine (keyword k ?_ fun span => (h span).blanks n).blanks m
  cases n with
  | zero => exact hrest rfl
  | succ n =>
    rw [blanks_succ, String.append_assoc]
    exact Apart.append (by decide) (by decide)

theorem name {s : String} (hs : IsName s) (hrest : Apart rest)
    (h : ∀ span, Lexes rest fun us => R (Ident.lexeme ⟨s, span⟩ :: us)) : Lexes (s ++ rest) R := by
  refine word (t := .ident s) hs.word ?_ hrest h
  simp only [wordPiece, String.ofList_toList, hs.free]

/-! ## Numbers -/

theorem digits_toString (n : Nat) :
    ∃ c cs, (toString n).toList = c :: cs ∧ c.isDigit = true ∧ ∀ x ∈ cs, x.isDigit = true := by
  have hdigits : ∀ x ∈ Nat.toDigits 10 n, x.isDigit = true := fun x hx =>
    Nat.isDigit_of_mem_toDigits (by decide) (Nat.le_refl 10) hx
  rw [Nat.toString_eq_ofList_toDigits, String.toList_ofList]
  cases hcs : Nat.toDigits 10 n with
  | nil => exact absurd hcs Nat.toDigits_ne_nil
  | cons c cs =>
    rw [hcs] at hdigits
    exact ⟨c, cs, rfl, List.forall_mem_cons.mp hdigits⟩

theorem natural {n : Nat} {v : Int64} (hv : v.toInt = n) (hrest : Apart rest)
    (h : ∀ span, Lexes rest fun us => R (Number.lexeme ⟨v, span⟩ :: us)) :
    Lexes (toString n ++ rest) R := by
  obtain ⟨c, cs, hchars, hc, hall⟩ := digits_toString n
  have hdecimal : decimal (c :: cs) = n := by
    rw [decimal, ← Nat.ofDigitChars_eq_foldl, ← hchars, Nat.toString_eq_ofList_toDigits,
      String.toList_ofList, Nat.ofDigitChars_ten_toDigits]
  have hlast : ∀ x ∈ rest.toList.head?, x.isDigit = false := fun x hx =>
    Bool.eq_false_iff.mpr fun hd =>
      absurd (continuesName_of_isDigit hd) (by rw [hrest.head? x hx]; decide)
  refine token (t := .int v) hchars ?_ h
  rw [piece_digits _ hc, takeWhile_append_of_head? hall hlast, numberPiece, hdecimal,
    Word.ofInt?_eq_some_iff.mpr hv]

end Lexes

/-! ## Tokens of sources -/

/-- A name is a name, and a number is not negative. -/
def Token.IsLegal : Token → Prop
  | .ident name => IsName name
  | .int v => 0 ≤ v.toInt
  | _ => True

theorem isLegal_of_wordPiece {c : Char} {cs : List Char} {t : Token} (hc : startsName c = true)
    (hcs : ∀ x ∈ cs, continuesName x = true) (h : wordPiece (c :: cs) = .token t) : t.IsLegal := by
  simp only [wordPiece] at h
  split at h
  · cases h
    trivial
  · next hfree =>
    cases h
    exact ⟨⟨c, cs, String.toList_ofList, hc, hcs⟩, hfree⟩

theorem isLegal_of_numberPiece {cs : List Char} {t : Token} (h : numberPiece cs = .token t) :
    t.IsLegal := by
  unfold numberPiece at h
  split at h
  · next v hv =>
    cases h
    show 0 ≤ v.toInt
    rw [Word.ofInt?_eq_some_iff.mp hv]
    exact Int.natCast_nonneg _
  · cases h

theorem isLegal_of_piece {c : Char} {cs : List Char} {t : Token}
    (h : (piece c cs).1 = .token t) : t.IsLegal := by
  unfold piece at h
  split at h
  · cases h
  split at h
  · cases h
  split at h
  · cases h
    trivial
  split at h
  · exact isLegal_of_numberPiece h
  split at h
  · next hc => exact isLegal_of_wordPiece hc (List.all_eq_true.mp List.all_takeWhile) h
  split at h
  · cases h
    trivial
  split at h
  · cases h
    trivial
  · cases h

theorem isLegal_of_mem_scan {cs : List Char} {pos k : Nat} {p : Piece} {t : Token}
    (hp : p ∈ scan pos k cs) (ht : p.kind = .token t) : t.IsLegal := by
  induction cs generalizing pos k with
  | nil => cases hp
  | cons c cs ih =>
    cases k with
    | succ k => exact ih hp
    | zero =>
      rcases List.mem_cons.mp hp with rfl | hp
      · exact isLegal_of_piece ht
      · exact ih hp

theorem isLegal_of_mem_lex {source : String} {l : Lexeme} (hl : l ∈ (lex source).tokens) :
    l.token.IsLegal := by
  obtain ⟨p, hp, hlexeme⟩ := List.mem_filterMap.mp hl
  unfold Piece.lexeme? at hlexeme
  split at hlexeme
  · next t ht =>
    cases hlexeme
    exact isLegal_of_mem_scan hp ht
  · cases hlexeme

end Bankflow.Source
