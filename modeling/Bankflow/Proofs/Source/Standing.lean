import Bankflow.Proofs.Source.Pieces

/-!
# What stands where in a source

Where a token stands is told by its text and by what is around it (`Token.Stands`), and so is
where there is an error (`IsStray`). These are the tokens and errors that pieces are
(`stands_of_cut`, `cut_of_stands`, `isStray_of_cut`, `cut_of_isStray`), outside of comments.
Separators are blanks and comments (`Cut.eq_separator_iff`), and no match at the place of a
piece is longer than the piece (`Cut.length_le`).
-/

namespace Bankflow.Source

/-! ## Patterns -/

/-- The characters make up a run. -/
def RunKind.Forms (k : RunKind) (text : List Char) : Prop :=
  ∃ c cs, text = c :: cs ∧ k.first c = true ∧ ∀ x ∈ cs, k.more x = true

/-- What a lexer may match. -/
inductive Pattern where
  | keyword (k : Keyword)
  | symbol (y : Symbol)
  | run (k : RunKind)

def Pattern.Matches : Pattern → List Char → Prop
  | keyword k, text => text = k.text.toList
  | symbol y, text => text = y.text.toList
  | run k, text => k.Forms text

def Token.pattern : Token → Pattern
  | .keyword k => .keyword k
  | .symbol y => .symbol y
  | .int _ => .run .number
  | .ident _ => .run .word
  | .newline => .run .newlines

/-! ## Places of tokens and errors -/

/-- A run from its beginning to its end. -/
structure RunKind.Whole (k : RunKind) (before run after : List Char) : Prop where
  forms : k.Forms run
  begins : ¬ k.Open before
  ends : ∀ x ∈ after.head?, k.more x = false

/-- A run of digits that is not part of a word. -/
def WholeNumber (before digits after : List Char) : Prop :=
  RunKind.number.Whole before digits after ∧ ¬ RunKind.word.Open before

/-- The token is what `text` stands for, between `before` and `after`. -/
def Token.Stands (before text after : List Char) : Token → Prop
  | .keyword k => text = k.text.toList ∧ RunKind.word.Whole before text after
  | .symbol y => text = y.text.toList ∧ (y = .minus → after.head? ≠ some '>')
  | .int v => WholeNumber before text after ∧ v.toInt = Nat.ofDigitChars 10 text 0
  | .ident name =>
    text = name.toList ∧ (∀ k : Keyword, k.text ≠ name) ∧ RunKind.word.Whole before text after
  | .newline => RunKind.newlines.Whole before text after

/-- Between `before` and `after`, `text` is a number that is too large or a character with
which nothing begins. The end of an arrow is part of the arrow. -/
def IsStray (before text after : List Char) : Prop :=
  (WholeNumber before text after ∧ Word.greatest < Nat.ofDigitChars 10 text 0) ∨
    ∃ c, text = [c] ∧ (∀ (p : Pattern) (cs : List Char), ¬ p.Matches (c :: cs)) ∧
      ¬ (before.getLast? = some '-' ∧ c = '>')

/-! ## Words and numbers -/

theorem Keyword.ofText?_eq_some_iff {s : String} {k : Keyword} :
    ofText? s = some k ↔ k.text = s := by
  constructor
  · intro h
    simpa using List.find?_some h
  · rintro rfl
    cases k <;> rfl

theorem Keyword.ofText?_eq_none_iff {s : String} :
    ofText? s = none ↔ ∀ k : Keyword, k.text ≠ s := by
  constructor
  · intro h k hk
    rw [ofText?_eq_some_iff.mpr hk] at h
    cases h
  · intro h
    cases hk : ofText? s with
    | none => rfl
    | some k => exact absurd (ofText?_eq_some_iff.mp hk) (h k)

theorem wordPiece_eq_keyword_iff {chars : List Char} {k : Keyword} :
    wordPiece chars = .token (.keyword k) ↔ chars = k.text.toList := by
  have htext : chars = k.text.toList ↔ k.text = String.ofList chars := by
    rw [← String.toList_inj, String.toList_ofList, eq_comm]
  rw [htext, ← Keyword.ofText?_eq_some_iff]
  simp only [wordPiece]
  cases Keyword.ofText? (String.ofList chars) <;> simp

theorem wordPiece_eq_ident_iff {chars : List Char} {name : String} :
    wordPiece chars = .token (.ident name) ↔
      chars = name.toList ∧ ∀ k : Keyword, k.text ≠ name := by
  have htext : chars = name.toList ↔ String.ofList chars = name := by
    rw [← String.toList_inj, String.toList_ofList]
  rw [htext, ← Keyword.ofText?_eq_none_iff]
  simp only [wordPiece]
  constructor
  · intro h
    cases hk : Keyword.ofText? (String.ofList chars) with
    | none =>
      simp only [hk] at h
      cases h
      exact ⟨rfl, hk⟩
    | some k =>
      simp only [hk] at h
      cases h
  · rintro ⟨rfl, hk⟩
    simp only [hk]

theorem numberPiece_eq_int_iff {chars : List Char} {v : Int64} :
    numberPiece chars = .token (.int v) ↔ v.toInt = Nat.ofDigitChars 10 chars 0 := by
  rw [← Word.ofInt?_eq_some_iff]
  simp only [numberPiece]
  show _ ↔ Word.ofInt? (decimal chars) = some v
  cases Word.ofInt? (decimal chars) <;> simp

theorem numberPiece_eq_stray_iff {chars : List Char} :
    numberPiece chars = .stray ↔ Word.greatest < Nat.ofDigitChars 10 chars 0 := by
  have hnonneg : ¬ (decimal chars : Int) < Word.least := by
    simp only [Word.least]
    omega
  have hnone : Word.ofInt? (decimal chars) = none ↔ Word.greatest < decimal chars := by
    rw [Word.ofInt?_eq_none_iff, or_iff_right hnonneg]
  show _ ↔ Word.greatest < decimal chars
  rw [← hnone]
  simp only [numberPiece]
  cases Word.ofInt? (decimal chars) <;> simp

theorem numberPiece_cases (chars : List Char) :
    (∃ v, numberPiece chars = .token (.int v)) ∨ numberPiece chars = .stray := by
  unfold numberPiece
  cases Word.ofInt? (decimal chars) with
  | none => exact .inr rfl
  | some v => exact .inl ⟨v, rfl⟩

theorem wordPiece_cases (chars : List Char) :
    (∃ k, wordPiece chars = .token (.keyword k)) ∨
      ∃ name, wordPiece chars = .token (.ident name) := by
  simp only [wordPiece]
  cases Keyword.ofText? (String.ofList chars) with
  | none => exact .inr ⟨_, rfl⟩
  | some k => exact .inl ⟨k, rfl⟩

/-! ## Runs and what is around them -/

theorem RunKind.more_of_first {k : RunKind} {c : Char} (h : k.first c = true) :
    k.more c = true := by
  cases k with
  | comment =>
    obtain rfl : c = '#' := of_decide_eq_true h
    rfl
  | word => exact continuesName_of_startsName h
  | _ => exact h

/-- A run that begins with a new piece is a whole one. -/
theorem RunKind.whole_of_splits {k : RunKind} {before cs after : List Char} {c : Char}
    (hc : Splits before c) (first : k.first c = true) (more : ∀ x ∈ cs, k.more x = true)
    (stop : ∀ x ∈ after.head?, k.more x = false) : k.Whole before (c :: cs) after where
  forms := ⟨c, cs, rfl, first, more⟩
  begins hopen := by cases (hc.runs k hopen).symm.trans (more_of_first first)
  ends := stop

theorem wholeNumber_of_splits {before cs after : List Char} {c : Char} (hc : Splits before c)
    (first : c.isDigit = true) (more : ∀ x ∈ cs, x.isDigit = true)
    (stop : ∀ x ∈ after.head?, x.isDigit = false) : WholeNumber before (c :: cs) after := by
  refine ⟨RunKind.whole_of_splits hc first more stop, fun hopen => ?_⟩
  cases (hc.runs .word hopen).symm.trans (continuesName_of_isDigit first)

/-- A new piece ends what was open before. -/
theorem Splits.not_open {k : RunKind} {before cs : List Char} {c : Char} (h : Splits before c)
    (hfirst : ∀ x ∈ c :: cs, k.first x = false) : ¬ k.Open (before ++ c :: cs) := by
  intro hopen
  rcases RunKind.open_append_iff.mp hopen with hopen | ⟨hopen, hmore⟩
  · obtain ⟨x, hx, hx'⟩ := hopen.exists_first
    cases (hfirst x hx).symm.trans hx'
  · cases (h.runs k hopen).symm.trans (hmore c List.mem_cons_self)

/-- Only separators hold blanks or number signs. -/
theorem Cut.unseparated {chars after : List Char} {kind : PieceKind} (h : Cut chars kind after)
    (hkind : kind ≠ .separator) :
    ∀ x ∈ chars, isBlank x = false ∧ RunKind.comment.first x = false := by
  cases h with
  | @run k c cs _ first more stop =>
    have hwithin : ∀ x ∈ c :: cs, k.more x = true :=
      List.forall_mem_cons.mpr ⟨RunKind.more_of_first first, more⟩
    intro x hx
    have hmore := hwithin x hx
    cases k with
    | blanks => exact absurd rfl hkind
    | comment => exact absurd rfl hkind
    | newlines =>
      obtain rfl : x = '\n' := of_decide_eq_true hmore
      exact ⟨rfl, rfl⟩
    | number =>
      obtain ⟨hblank, hcomment, -⟩ := not_separator_of_class (p := Char.isDigit) hmore rfl
      exact ⟨hblank, decide_eq_false hcomment⟩
    | word =>
      obtain ⟨hblank, hcomment, -⟩ := not_separator_of_class (p := continuesName) hmore rfl
      exact ⟨hblank, decide_eq_false hcomment⟩
  | arrow => exact List.forall_mem_cons.mpr ⟨⟨rfl, rfl⟩, List.forall_mem_singleton.mpr ⟨rfl, rfl⟩⟩
  | sign sign stop =>
    intro x hx
    rw [List.mem_singleton.mp hx]
    exact ⟨RunKind.first_eq_false_of_sign sign .blanks,
      RunKind.first_eq_false_of_sign sign .comment⟩
  | stray after unknown unsigned =>
    intro x hx
    rw [List.mem_singleton.mp hx]
    exact ⟨unknown .blanks, unknown .comment⟩

/-- A run is open after each of its characters. -/
theorem RunKind.Forms.open_append {k : RunKind} {xs ys : List Char} {c : Char}
    (h : k.Forms (xs ++ c :: ys)) : k.Open (xs ++ [c]) := by
  obtain ⟨d, ds, heq, first, more⟩ := h
  cases xs with
  | nil =>
    obtain ⟨rfl, -⟩ := List.cons.inj heq
    exact ⟨[], c, [], rfl, first, List.forall_mem_nil _⟩
  | cons x xs =>
    obtain ⟨rfl, rfl⟩ := List.cons.inj heq
    obtain ⟨hxs, hrest⟩ := List.forall_mem_append.mp more
    refine ⟨[], x, xs ++ [c], rfl, first, List.forall_mem_append.mpr ⟨hxs, ?_⟩⟩
    exact List.forall_mem_singleton.mpr (hrest c List.mem_cons_self)

/-- Separators are made of blanks or comments. -/
theorem Cut.forms_of_separator {chars after : List Char} (h : Cut chars .separator after) :
    RunKind.blanks.Forms chars ∨ RunKind.comment.Forms chars := by
  generalize hkind : PieceKind.separator = kind at h
  cases h with
  | @run k c cs _ first more stop =>
    cases k with
    | blanks => exact .inl ⟨c, cs, rfl, first, more⟩
    | comment => exact .inr ⟨c, cs, rfl, first, more⟩
    | newlines => cases hkind
    | number =>
      rcases numberPiece_cases (c :: cs) with ⟨v, hv⟩ | hv
      · cases hkind.trans hv
      · cases hkind.trans hv
    | word =>
      rcases wordPiece_cases (c :: cs) with ⟨k, hk⟩ | ⟨name, hname⟩
      · cases hkind.trans hk
      · cases hkind.trans hname
  | arrow => cases hkind
  | sign => cases hkind
  | stray => cases hkind

/-- The characters of separators are the blanks and the comments. -/
theorem Cut.eq_separator_iff {before xs ys after : List Char} {c : Char} {kind : PieceKind}
    (h : Cut (xs ++ c :: ys) kind after)
    (hsplits : ∀ d ∈ (xs ++ c :: ys).head?, Splits before d) :
    kind = .separator ↔ isBlank c = true ∨ RunKind.comment.Open (before ++ (xs ++ [c])) := by
  constructor
  · rintro rfl
    rcases h.forms_of_separator with ⟨d, ds, heq, first, more⟩ | hcomment
    · have hall : ∀ x ∈ xs ++ c :: ys, isBlank x = true :=
        heq ▸ List.forall_mem_cons.mpr ⟨first, more⟩
      exact .inl (hall c (List.mem_append_right _ List.mem_cons_self))
    · exact .inr (RunKind.open_append_iff.mpr (.inl hcomment.open_append))
  · intro hskipped
    refine Classical.byContradiction fun hkind => ?_
    obtain ⟨hxs, hrest⟩ := List.forall_mem_append.mp (h.unseparated hkind)
    have hc := hrest c List.mem_cons_self
    have hplain : ∀ x ∈ xs ++ [c], RunKind.comment.first x = false :=
      List.forall_mem_append.mpr
        ⟨fun x hx => (hxs x hx).2, List.forall_mem_singleton.mpr hc.2⟩
    rcases hskipped with hblank | hopen
    · cases hc.1.symm.trans hblank
    · cases xs with
      | nil => exact (hsplits c rfl).not_open hplain hopen
      | cons x xs => exact (hsplits x rfl).not_open hplain hopen

/-! ## Tokens where they stand -/

/-- A character that is neither blank nor a line break, and that does not go on with a word
or a number, begins a piece. -/
theorem splits_of_unseparated {before : List Char} {c : Char} (hblank : isBlank c = false)
    (hbreak : c ≠ '\n') (hcomment : ¬ RunKind.comment.Open before)
    (hnumber : RunKind.number.Open before → c.isDigit = false)
    (hword : RunKind.word.Open before → continuesName c = false)
    (harrow : before.getLast? = some '-' → c ≠ '>') : Splits before c where
  runs
    | .blanks, _ => hblank
    | .comment, h => absurd h hcomment
    | .newlines, _ => decide_eq_false hbreak
    | .number, h => hnumber h
    | .word, h => hword h
  arrow := harrow

/-- A token is what it stands for. -/
theorem stands_of_cut {before text after : List Char} {t : Token}
    (h : Cut text (.token t) after) (hsplits : ∀ c ∈ text.head?, Splits before c) :
    t.Stands before text after := by
  generalize hkind : PieceKind.token t = kind at h
  cases h with
  | @run k c cs _ first more stop =>
    have hc : Splits before c := hsplits c rfl
    have hwhole : k.Whole before (c :: cs) after := RunKind.whole_of_splits hc first more stop
    cases k with
    | blanks => cases hkind
    | comment => cases hkind
    | newlines =>
      cases hkind
      exact hwhole
    | number =>
      rcases numberPiece_cases (c :: cs) with ⟨v, hv⟩ | hv
      · cases hkind.trans hv
        exact ⟨wholeNumber_of_splits hc first more stop, numberPiece_eq_int_iff.mp hv⟩
      · cases hkind.trans hv
    | word =>
      rcases wordPiece_cases (c :: cs) with ⟨k, hk⟩ | ⟨name, hname⟩
      · cases hkind.trans hk
        exact ⟨wordPiece_eq_keyword_iff.mp hk, hwhole⟩
      · cases hkind.trans hname
        obtain ⟨htext, hfree⟩ := wordPiece_eq_ident_iff.mp hname
        exact ⟨htext, hfree, hwhole⟩
  | arrow =>
    cases hkind
    exact ⟨rfl, fun hminus => by cases hminus⟩
  | @sign c y _ sign stop =>
    cases hkind
    refine ⟨(Symbol.ofChar?_eq_some_iff.mp sign).symm, fun hy => stop ?_⟩
    subst hy
    exact (List.cons.inj (Symbol.ofChar?_eq_some_iff.mp sign)).1.symm
  | stray => cases hkind

/-- A text without line breaks that does not end in a comment does not begin in one. -/
theorem not_open_comment {before text : List Char} (h : ¬ RunKind.comment.Open (before ++ text))
    (htext : '\n' ∉ text) : ¬ RunKind.comment.Open before := fun hopen =>
  h (RunKind.open_append_iff.mpr
    (.inr ⟨hopen, fun _ hx => decide_eq_true fun heq => htext (heq ▸ hx)⟩))

/-- Characters of words that do not go on with a word or a number begin a piece. -/
theorem splits_of_continuesName {before cs : List Char} {c : Char}
    (hall : ∀ x ∈ c :: cs, continuesName x = true)
    (hcomment : ¬ RunKind.comment.Open (before ++ c :: cs))
    (hnumber : RunKind.number.Open before → c.isDigit = false)
    (hword : ¬ RunKind.word.Open before) : Splits before c := by
  have hc : continuesName c = true := hall c List.mem_cons_self
  obtain ⟨hblank, -, hbreak⟩ := not_separator_of_class hc rfl
  have hline : '\n' ∉ c :: cs := fun hmem => by cases hall _ hmem
  refine splits_of_unseparated hblank hbreak (not_open_comment hcomment hline) hnumber
    (fun hopen => absurd hopen hword) fun _ => ?_
  rintro rfl
  cases hc

theorem RunKind.Whole.splits_of_word {before text after : List Char}
    (h : RunKind.word.Whole before text after)
    (hcomment : ¬ RunKind.comment.Open (before ++ text)) : ∀ c ∈ text.head?, Splits before c := by
  obtain ⟨c, cs, rfl, first, more⟩ := h.forms
  rintro _ ⟨⟩
  exact splits_of_continuesName
    (List.forall_mem_cons.mpr ⟨continuesName_of_startsName first, more⟩) hcomment
    (fun _ => isDigit_of_startsName first) h.begins

theorem WholeNumber.splits {before text after : List Char} (h : WholeNumber before text after)
    (hcomment : ¬ RunKind.comment.Open (before ++ text)) : ∀ c ∈ text.head?, Splits before c := by
  obtain ⟨hwhole, hword⟩ := h
  obtain ⟨c, cs, rfl, first, more⟩ := hwhole.forms
  have hall : ∀ x ∈ c :: cs, x.isDigit = true := List.forall_mem_cons.mpr ⟨first, more⟩
  rintro _ ⟨⟩
  exact splits_of_continuesName (fun x hx => continuesName_of_isDigit (hall x hx)) hcomment
    (fun hopen => absurd hopen hwhole.begins) hword

theorem WholeNumber.cut {before text after : List Char} (h : WholeNumber before text after) :
    Cut text (numberPiece text) after := by
  obtain ⟨c, cs, rfl, first, more⟩ := h.1.forms
  exact .run .number first more h.1.ends

theorem RunKind.Whole.cut_of_word {before text after : List Char}
    (h : RunKind.word.Whole before text after) : Cut text (wordPiece text) after := by
  obtain ⟨c, cs, rfl, first, more⟩ := h.forms
  exact .run .word first more h.ends

/-- No sign goes on with what is before it. -/
theorem Symbol.splits {before : List Char} (y : Symbol)
    (hcomment : ¬ RunKind.comment.Open (before ++ y.text.toList)) :
    ∀ c ∈ y.text.toList.head?, Splits before c := by
  have hline : '\n' ∉ y.text.toList := by cases y <;> decide
  have hno := not_open_comment hcomment hline
  have hclass : ∀ c ∈ y.text.toList.head?, isBlank c = false ∧ c ≠ '\n' ∧ c.isDigit = false ∧
      continuesName c = false ∧ c ≠ '>' := by
    cases y <;> rintro c ⟨⟩ <;> decide
  intro c hc
  obtain ⟨hblank, hbreak, hdigit, hname, hend⟩ := hclass c hc
  exact splits_of_unseparated hblank hbreak hno (fun _ => hdigit) (fun _ => hname) fun _ => hend

theorem cut_of_stands {before text after : List Char} {t : Token}
    (hcomment : ¬ RunKind.comment.Open (before ++ text)) (h : t.Stands before text after) :
    Cut text (.token t) after ∧ ∀ c ∈ text.head?, Splits before c := by
  cases t with
  | keyword k =>
    obtain ⟨htext, hwhole⟩ := h
    exact ⟨wordPiece_eq_keyword_iff.mpr htext ▸ hwhole.cut_of_word, hwhole.splits_of_word hcomment⟩
  | symbol y =>
    obtain ⟨rfl, hminus⟩ := h
    refine ⟨?_, y.splits hcomment⟩
    cases y with
    | arrow => exact .arrow after
    | minus => exact .sign rfl fun _ => hminus rfl
    | _ => exact .sign rfl fun hc => by cases hc
  | int v =>
    obtain ⟨hnumber, hvalue⟩ := h
    exact ⟨numberPiece_eq_int_iff.mpr hvalue ▸ hnumber.cut, hnumber.splits hcomment⟩
  | ident name =>
    obtain ⟨htext, hfree, hwhole⟩ := h
    exact ⟨wordPiece_eq_ident_iff.mpr ⟨htext, hfree⟩ ▸ hwhole.cut_of_word,
      hwhole.splits_of_word hcomment⟩
  | newline =>
    obtain ⟨⟨c, cs, rfl, first, more⟩, begins, ends⟩ := h
    refine ⟨.run .newlines first more ends, ?_⟩
    obtain rfl : c = '\n' := of_decide_eq_true first
    rintro _ ⟨⟩
    exact {
      runs
        | .newlines, hopen => absurd hopen begins
        | .blanks, _ => rfl
        | .comment, _ => rfl
        | .number, _ => rfl
        | .word, _ => rfl
      arrow := fun _ => by decide }

/-! ## Errors where they stand -/

theorem Keyword.forms_word (k : Keyword) : RunKind.word.Forms k.text.toList := by
  have h : ∃ c cs, k.text.toList = c :: cs ∧ startsName c = true ∧ cs.all continuesName = true := by
    cases k <;> exact ⟨_, _, rfl, by decide, by decide⟩
  obtain ⟨c, cs, htext, first, more⟩ := h
  exact ⟨c, cs, htext, first, List.all_eq_true.mp more⟩

/-- What can be matched is a run, a single sign or the arrow. -/
theorem Pattern.Matches.elim {p : Pattern} {text : List Char} (h : p.Matches text) :
    (∃ k : RunKind, k.Forms text) ∨ (∃ c y, Symbol.ofChar? c = some y ∧ text = [c]) ∨
      text = ['-', '>'] := by
  cases p with
  | keyword k =>
    obtain rfl := h
    exact .inl ⟨.word, k.forms_word⟩
  | run k => exact .inl ⟨k, h⟩
  | symbol y =>
    obtain rfl := h
    cases y with
    | arrow => exact .inr (.inr rfl)
    | _ => exact .inr (.inl ⟨_, _, rfl, rfl⟩)

/-- A character with which nothing begins. -/
theorem forall_not_matches_iff {c : Char} :
    (∀ (p : Pattern) (cs : List Char), ¬ p.Matches (c :: cs)) ↔
      (∀ k : RunKind, k.first c = false) ∧ Symbol.ofChar? c = none := by
  constructor
  · intro h
    refine ⟨fun k => Bool.eq_false_iff.mpr fun hk => h (.run k) [] ?_, ?_⟩
    · exact ⟨c, [], rfl, hk, List.forall_mem_nil _⟩
    · cases hy : Symbol.ofChar? c with
      | none => rfl
      | some y => exact absurd (Symbol.ofChar?_eq_some_iff.mp hy).symm (h (.symbol y) [])
  · rintro ⟨hruns, hsign⟩ p cs hmatch
    rcases hmatch.elim with ⟨k, d, ds, heq, first, -⟩ | ⟨d, y, hy, heq⟩ | heq
    · obtain ⟨rfl, -⟩ := List.cons.inj heq
      cases (hruns k).symm.trans first
    · obtain ⟨rfl, -⟩ := List.cons.inj heq
      cases hsign.symm.trans hy
    · obtain ⟨rfl, -⟩ := List.cons.inj heq
      cases hsign

theorem isStray_of_cut {before text after : List Char} (h : Cut text .stray after)
    (hsplits : ∀ c ∈ text.head?, Splits before c) : IsStray before text after := by
  generalize hkind : PieceKind.stray = kind at h
  cases h with
  | @run k c cs _ first more stop =>
    have hc : Splits before c := hsplits c rfl
    cases k with
    | blanks => cases hkind
    | comment => cases hkind
    | newlines => cases hkind
    | number =>
      exact .inl ⟨wholeNumber_of_splits hc first more stop,
        numberPiece_eq_stray_iff.mp hkind.symm⟩
    | word =>
      rcases wordPiece_cases (c :: cs) with ⟨k, hk⟩ | ⟨name, hname⟩
      · cases hkind.trans hk
      · cases hkind.trans hname
  | arrow => cases hkind
  | sign => cases hkind
  | @stray c _ unknown unsigned =>
    exact .inr ⟨c, rfl, forall_not_matches_iff.mpr ⟨unknown, unsigned⟩,
      fun harrow => (hsplits c rfl).arrow harrow.1 harrow.2⟩

theorem cut_of_isStray {before text after : List Char}
    (hcomment : ¬ RunKind.comment.Open (before ++ text)) (h : IsStray before text after) :
    Cut text .stray after ∧ ∀ c ∈ text.head?, Splits before c := by
  rcases h with ⟨hnumber, hlarge⟩ | ⟨c, rfl, hnothing, harrow⟩
  · exact ⟨numberPiece_eq_stray_iff.mpr hlarge ▸ hnumber.cut, hnumber.splits hcomment⟩
  · obtain ⟨unknown, unsigned⟩ := forall_not_matches_iff.mp hnothing
    have hbreak : c ≠ '\n' := of_decide_eq_false (unknown .newlines)
    have hname : continuesName c = false := by
      have hdigit : c.isDigit = false := unknown .number
      have hword : startsName c = false := unknown .word
      simp only [startsName, Bool.or_eq_false_iff] at hword
      simp only [continuesName, Char.isAlphanum, hword.1, hword.2, hdigit, Bool.or_self]
    refine ⟨.stray after unknown unsigned, ?_⟩
    rintro _ ⟨⟩
    exact splits_of_unseparated (unknown .blanks) hbreak
      (not_open_comment hcomment (by simpa using hbreak.symm)) (fun _ => unknown .number)
      (fun _ => hname) fun hlast hend => harrow ⟨hlast, hend⟩

/-! ## Longest matches -/

/-- A run with the same first character as a piece that is a run ends within it. -/
theorem RunKind.length_le_of_isPrefix {k k' : RunKind} {c : Char} {cs ds after : List Char}
    (first : k.first c = true) (stop : ∀ x ∈ after.head?, k.more x = false)
    (first' : k'.first c = true) (more' : ∀ x ∈ ds, k'.more x = true) (h : ds <+: cs ++ after) :
    ds.length ≤ cs.length := by
  rcases List.prefix_or_prefix_of_prefix h (List.prefix_append cs after) with hle | ⟨tail, rfl⟩
  · exact hle.length_le
  · cases tail with
    | nil => simp
    | cons d tail =>
      -- the run would go on past the end of the piece
      obtain ⟨rest, rfl⟩ := (List.prefix_append_right_inj cs).mp h
      have hd : k'.more d = true := more' d (List.mem_append_right cs List.mem_cons_self)
      cases (more_eq_false_of_within first' (.inl first) (stop d rfl)).symm.trans hd

/-- Nothing that matches at the place of a piece is longer than the piece. -/
theorem Cut.length_le {text after longer : List Char} {kind : PieceKind} {p : Pattern}
    (h : Cut text kind after) (hlonger : longer <+: text ++ after) (hp : p.Matches longer) :
    longer.length ≤ text.length := by
  obtain ⟨rest, hrest⟩ := hlonger
  cases h with
  | @run k c cs _ first more stop =>
    rcases hp.elim with ⟨k', d, ds, rfl, first', more'⟩ | ⟨d, y, hy, rfl⟩ | rfl
    · obtain ⟨rfl, hds⟩ := List.cons.inj hrest
      exact Nat.succ_le_succ (RunKind.length_le_of_isPrefix first stop first' more' ⟨rest, hds⟩)
    · simp
    · obtain ⟨rfl, -⟩ := List.cons.inj hrest
      cases (RunKind.first_eq_false_of_sign rfl k).symm.trans first
  | arrow =>
    rcases hp.elim with ⟨k, d, ds, rfl, first, -⟩ | ⟨d, y, hy, rfl⟩ | rfl
    · obtain ⟨rfl, -⟩ := List.cons.inj hrest
      cases (RunKind.first_eq_false_of_sign rfl k).symm.trans first
    · simp
    · simp
  | sign sign stop =>
    rcases hp.elim with ⟨k, d, ds, rfl, first, -⟩ | ⟨d, y, hy, rfl⟩ | rfl
    · obtain ⟨rfl, -⟩ := List.cons.inj hrest
      cases (RunKind.first_eq_false_of_sign sign k).symm.trans first
    · simp
    · obtain ⟨rfl, rfl⟩ := List.cons.inj hrest
      exact absurd rfl (stop rfl)
  | stray after unknown unsigned =>
    cases longer with
    | nil => simp
    | cons d ds =>
      obtain ⟨rfl, -⟩ := List.cons.inj hrest
      exact absurd hp (forall_not_matches_iff.mpr ⟨unknown, unsigned⟩ p ds)

theorem Token.Stands.matches {before text after : List Char} {t : Token}
    (h : t.Stands before text after) : t.pattern.Matches text := by
  cases t with
  | keyword k => exact h.1
  | symbol y => exact h.1
  | int v => exact h.1.1.forms
  | ident name => exact h.2.2.forms
  | newline => exact h.forms

end Bankflow.Source
