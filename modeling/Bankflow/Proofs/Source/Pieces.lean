import Bankflow.Proofs.Source.Lexing

/-!
# The pieces of a source

What the pieces of a source are, said without the scan that finds them. `Cut` describes a
piece by its characters and by what follows, and `Splits` a place where one begins by what
stands before: nothing that is open there goes on. Most pieces are runs, which go on as long
as they can (`RunKind`).

The scan cuts a source into such pieces, one after the other (`tiles_scan`), and misses none
of them (`mem_scan_iff`).
-/

namespace Bankflow.Source

/-! ## Runs -/

/-- The pieces that go on as long as they can. -/
inductive RunKind where
  | blanks
  | comment
  | newlines
  | number
  | word

namespace RunKind

/-- The characters that begin a run. -/
def first : RunKind → Char → Bool
  | blanks => isBlank
  | comment => (· = '#')
  | newlines => (· = '\n')
  | number => Char.isDigit
  | word => startsName

/-- The characters that continue a run. -/
def more : RunKind → Char → Bool
  | blanks => isBlank
  | comment => (· ≠ '\n')
  | newlines => (· = '\n')
  | number => Char.isDigit
  | word => continuesName

/-- What the characters of a run are. -/
def piece : RunKind → List Char → PieceKind
  | blanks, _ => .separator
  | comment, _ => .separator
  | newlines, _ => .token .newline
  | number, chars => numberPiece chars
  | word, chars => wordPiece chars

end RunKind

theorem isBlank_iff {c : Char} : isBlank c = true ↔ c = ' ' ∨ c = '\t' ∨ c = '\r' := by
  simp [isBlank, or_assoc]

theorem continuesName_of_startsName {c : Char} (h : startsName c = true) :
    continuesName c = true := by
  simp only [startsName, continuesName, Char.isAlphanum, Bool.or_eq_true] at h ⊢
  exact h.imp_left .inl

namespace RunKind

/-- Only words and numbers begin with a character of a word. -/
theorem eq_of_continuesName {k : RunKind} {c : Char} (hfirst : k.first c = true)
    (hc : continuesName c = true) : k = .number ∨ k = .word := by
  obtain ⟨hblank, hcomment, hbreak⟩ := not_separator_of_class hc rfl
  cases k with
  | blanks => exact absurd (hblank.symm.trans hfirst) Bool.false_ne_true
  | comment => exact absurd (of_decide_eq_true hfirst) hcomment
  | newlines => exact absurd (of_decide_eq_true hfirst) hbreak
  | number => exact .inl rfl
  | word => exact .inr rfl

/-- What would be a run of its own within another one ends with it at the latest. -/
theorem more_eq_false_of_within {k k' : RunKind} {x d : Char} (hx : k'.first x = true)
    (hwithin : k.first x = true ∨ k.more x = true) (hd : k.more d = false) :
    k'.more d = false := by
  cases k with
  | blanks =>
    rcases isBlank_iff.mp (hwithin.elim id id) with rfl | rfl | rfl <;> cases k' with
    | blanks => exact hd
    | _ => cases hx
  | comment =>
    -- the line ends here, and only line breaks go on with a line break
    obtain rfl : d = '\n' := by simpa [more] using hd
    cases k' with
    | newlines =>
      obtain rfl : x = '\n' := of_decide_eq_true hx
      rcases hwithin with h | h <;> cases h
    | _ => rfl
  | newlines =>
    obtain rfl : x = '\n' := of_decide_eq_true (hwithin.elim id id)
    cases k' with
    | newlines => exact hd
    | _ => cases hx
  | number =>
    have hdigit : x.isDigit = true := hwithin.elim id id
    rcases eq_of_continuesName hx (continuesName_of_isDigit hdigit) with rfl | rfl
    · exact hd
    · rw [isDigit_of_startsName hx] at hdigit
      cases hdigit
  | word =>
    rcases eq_of_continuesName hx (hwithin.elim continuesName_of_startsName id) with rfl | rfl
    · exact Bool.eq_false_iff.mpr fun h => Bool.eq_false_iff.mp hd (continuesName_of_isDigit h)
    · exact hd

/-- The characters end in a run that may go on. -/
def Open (k : RunKind) (before : List Char) : Prop :=
  ∃ earlier c tail, before = earlier ++ c :: tail ∧ k.first c = true ∧ ∀ x ∈ tail, k.more x = true

theorem open_append_iff {k : RunKind} {before text : List Char} :
    k.Open (before ++ text) ↔ k.Open text ∨ k.Open before ∧ ∀ x ∈ text, k.more x = true := by
  constructor
  · rintro ⟨earlier, c, tail, heq, hc, htail⟩
    rcases List.append_eq_append_iff.mp heq with ⟨mid, rfl, rfl⟩ | ⟨mid, rfl, hmid⟩
    · exact .inl ⟨mid, c, tail, rfl, hc, htail⟩
    · cases mid with
      | nil => exact .inl ⟨[], c, tail, hmid.symm, hc, htail⟩
      | cons c' mid =>
        obtain ⟨rfl, rfl⟩ := List.cons.inj hmid
        exact .inr ⟨⟨earlier, c, mid, rfl, hc, fun x hx => htail x (List.mem_append_left _ hx)⟩,
          fun x hx => htail x (List.mem_append_right _ hx)⟩
  · rintro (⟨earlier, c, tail, rfl, hc, htail⟩ | ⟨⟨earlier, c, tail, rfl, hc, htail⟩, htext⟩)
    · exact ⟨before ++ earlier, c, tail, by rw [List.append_assoc], hc, htail⟩
    · exact ⟨earlier, c, tail ++ text, by simp, hc, List.forall_mem_append.mpr ⟨htail, htext⟩⟩

/-- Within an open run there is its first character. -/
theorem Open.exists_first {k : RunKind} {text : List Char} (h : k.Open text) :
    ∃ x ∈ text, k.first x = true := by
  obtain ⟨earlier, c, tail, rfl, hc, -⟩ := h
  exact ⟨c, List.mem_append_right _ List.mem_cons_self, hc⟩

end RunKind

/-! ## Single pieces -/

/-- At the head of `chars ++ after`, `chars` are a piece of this kind. -/
inductive Cut : List Char → PieceKind → List Char → Prop where
  | run (k : RunKind) {c : Char} {cs after : List Char} (first : k.first c = true)
      (more : ∀ x ∈ cs, k.more x = true) (stop : ∀ x ∈ after.head?, k.more x = false) :
      Cut (c :: cs) (k.piece (c :: cs)) after
  | arrow (after : List Char) : Cut ['-', '>'] (.token (.symbol .arrow)) after
  | sign {c : Char} {y : Symbol} {after : List Char} (sign : Symbol.ofChar? c = some y)
      (stop : c = '-' → after.head? ≠ some '>') : Cut [c] (.token (.symbol y)) after
  | stray {c : Char} (after : List Char) (unknown : ∀ k : RunKind, k.first c = false)
      (unsigned : Symbol.ofChar? c = none) : Cut [c] .stray after

theorem Symbol.ofChar?_eq_some_iff {c : Char} {y : Symbol} :
    ofChar? c = some y ↔ y.text.toList = [c] := by
  constructor
  · intro h
    unfold ofChar? at h
    split at h <;> cases h <;> rfl
  · intro h
    cases y <;> cases h <;> rfl

/-- No run begins with a sign. -/
theorem RunKind.first_eq_false_of_sign {c : Char} {y : Symbol} (h : Symbol.ofChar? c = some y)
    (k : RunKind) : k.first c = false := by
  rw [Symbol.ofChar?_eq_some_iff] at h
  cases y <;> cases h <;> cases k <;> rfl

theorem piece_run {k : RunKind} {c : Char} (rest : List Char) (h : k.first c = true) :
    piece c rest = (k.piece (c :: rest.takeWhile k.more), (rest.takeWhile k.more).length) := by
  cases k with
  | blanks => exact if_pos h
  | comment =>
    obtain rfl : c = '#' := of_decide_eq_true h
    rfl
  | newlines =>
    obtain rfl : c = '\n' := of_decide_eq_true h
    rfl
  | number => exact piece_digits rest h
  | word => exact piece_word rest h

theorem piece_other {c : Char} (rest : List Char) (h : ∀ k : RunKind, k.first c = false) :
    piece c rest = if c = '-' ∧ rest.head? = some '>' then (.token (.symbol .arrow), 1)
      else ((Symbol.ofChar? c).elim .stray fun y => .token (.symbol y), 0) := by
  have hblank : isBlank c = false := h .blanks
  have hcomment : c ≠ '#' := of_decide_eq_false (h .comment)
  have hbreak : c ≠ '\n' := of_decide_eq_false (h .newlines)
  have hdigit : c.isDigit = false := h .number
  have hword : startsName c = false := h .word
  simp only [piece, hblank, hcomment, hbreak, hdigit, hword, if_false, Bool.false_eq_true]
  cases Symbol.ofChar? c <;> rfl

/-- What stands at the head of a text is a piece. -/
theorem cut_piece (c : Char) (rest : List Char) : ∃ cs after, rest = cs ++ after ∧
    (piece c rest).2 = cs.length ∧ Cut (c :: cs) (piece c rest).1 after := by
  by_cases h : ∃ k : RunKind, k.first c = true
  · obtain ⟨k, hk⟩ := h
    refine ⟨rest.takeWhile k.more, rest.dropWhile k.more, List.takeWhile_append_dropWhile.symm, ?_⟩
    rw [piece_run rest hk]
    refine ⟨rfl, .run k hk (List.all_eq_true.mp List.all_takeWhile) fun x hx => ?_⟩
    have hnot := List.head?_dropWhile_not k.more rest
    rw [Option.mem_def.mp hx] at hnot
    simpa using hnot
  · have hother : ∀ k : RunKind, k.first c = false := fun k =>
      Bool.eq_false_iff.mpr fun hk => h ⟨k, hk⟩
    rw [piece_other rest hother]
    split
    · next harrow =>
      obtain ⟨rfl, hhead⟩ := harrow
      obtain ⟨after, rfl⟩ := List.head?_eq_some_iff.mp hhead
      exact ⟨['>'], after, rfl, rfl, .arrow after⟩
    · next harrow =>
      refine ⟨[], rest, rfl, rfl, ?_⟩
      cases hy : Symbol.ofChar? c with
      | none => exact .stray rest hother hy
      | some y => exact .sign hy fun hc hhead => harrow ⟨hc, hhead⟩

theorem piece_of_cut {c : Char} {cs after : List Char} {kind : PieceKind}
    (h : Cut (c :: cs) kind after) : piece c (cs ++ after) = (kind, cs.length) := by
  cases h with
  | run k first more stop => rw [piece_run _ first, takeWhile_append_of_head? more stop]
  | arrow => rfl
  | sign sign stop =>
    rw [piece_other _ (RunKind.first_eq_false_of_sign sign), if_neg fun h => stop h.1 h.2, sign]
    rfl
  | stray after unknown unsigned =>
    have hminus : c ≠ '-' := by
      rintro rfl
      cases unsigned
    rw [piece_other _ unknown, if_neg fun h => hminus h.1, unsigned]
    rfl

theorem Cut.exists_cons {chars after : List Char} {kind : PieceKind} (h : Cut chars kind after) :
    ∃ c cs, chars = c :: cs := by
  cases h <;> exact ⟨_, _, rfl⟩

/-- What stands at the head of a text is one piece only. -/
theorem Cut.unique {chars chars' after after' : List Char} {kind kind' : PieceKind}
    (h : Cut chars kind after) (h' : Cut chars' kind' after')
    (heq : chars ++ after = chars' ++ after') : chars = chars' ∧ kind = kind' := by
  obtain ⟨c, cs, rfl⟩ := h.exists_cons
  obtain ⟨c', cs', rfl⟩ := h'.exists_cons
  obtain ⟨rfl, hrest⟩ := List.cons.inj heq
  have hpiece := piece_of_cut h
  rw [show cs ++ after = cs' ++ after' from hrest, piece_of_cut h'] at hpiece
  obtain ⟨rfl, hlength⟩ := Prod.mk.inj hpiece
  exact ⟨congrArg _ (List.append_inj hrest hlength.symm).1, rfl⟩

/-! ## Where pieces begin -/

/-- Nothing that is open at the end of `before` goes on with `c`. -/
structure Splits (before : List Char) (c : Char) : Prop where
  runs : ∀ k : RunKind, k.Open before → k.more c = false
  arrow : before.getLast? = some '-' → c ≠ '>'

theorem splits_nil (c : Char) : Splits [] c where
  runs _ h := by
    obtain ⟨x, hx, -⟩ := h.exists_first
    cases hx
  arrow h := by cases h

/-- After more characters, nothing goes on with `d` that begins among them. -/
theorem Splits.append {before cs : List Char} {c d : Char} (h : Splits before c)
    (hruns : ∀ (k : RunKind), ∀ x ∈ c :: cs, k.first x = true → k.more d = false)
    (harrow : (c :: cs).getLast? = some '-' → d ≠ '>') : Splits (before ++ c :: cs) d where
  runs k hopen := by
    rcases RunKind.open_append_iff.mp hopen with hopen | ⟨hopen, hmore⟩
    · obtain ⟨x, hx, hfirst⟩ := hopen.exists_first
      exact hruns k x hx hfirst
    · cases (h.runs k hopen).symm.trans (hmore c List.mem_cons_self)
  arrow hlast := harrow (by simpa [List.getLast?_append] using hlast)

/-- Where one piece ends the next one begins. -/
theorem Cut.splits {before cs after : List Char} {c d : Char} {kind : PieceKind}
    (h : Cut (c :: cs) kind after) (hc : Splits before c) (hd : d ∈ after.head?) :
    Splits (before ++ c :: cs) d := by
  cases h with
  | run k first more stop =>
    have hwithin : ∀ x ∈ c :: cs, k.first x = true ∨ k.more x = true :=
      List.forall_mem_cons.mpr ⟨.inl first, fun x hx => .inr (more x hx)⟩
    refine hc.append (fun k' x hx hfirst => ?_) fun hlast => ?_
    · exact RunKind.more_eq_false_of_within hfirst (hwithin x hx) (stop d hd)
    · -- only a comment can end in a minus sign
      rintro rfl
      have hminus := hwithin '-' (List.mem_of_getLast? hlast)
      have hstop := stop '>' hd
      cases k <;> simp_all +decide [RunKind.first, RunKind.more]
  | arrow after =>
    refine hc.append (fun k x hx hfirst => ?_) fun hlast => by cases hlast
    simp only [List.mem_cons, List.not_mem_nil, or_false] at hx
    rcases hx with rfl | rfl <;> cases k <;> cases hfirst
  | sign sign stop =>
    refine hc.append (fun k x hx hfirst => ?_) fun hlast hgt => ?_
    · rw [List.mem_singleton.mp hx, RunKind.first_eq_false_of_sign sign k] at hfirst
      cases hfirst
    · exact stop (by simpa using hlast) (hgt ▸ hd)
  | stray after unknown unsigned =>
    refine hc.append (fun k x hx hfirst => ?_) fun hlast => ?_
    · rw [List.mem_singleton.mp hx, unknown k] at hfirst
      cases hfirst
    · obtain rfl : c = '-' := by simpa using hlast
      cases unsigned

/-- No piece begins within another one. -/
theorem Cut.eq_nil_of_splits {before xs ys after : List Char} {c : Char} {kind : PieceKind}
    (h : Cut (xs ++ c :: ys) kind after) (hc : Splits (before ++ xs) c) : xs = [] := by
  cases xs with
  | nil => rfl
  | cons x xs =>
    exfalso
    generalize hchars : x :: xs ++ c :: ys = chars at h
    cases h with
    | run k first more stop =>
      obtain ⟨rfl, rfl⟩ := List.cons.inj hchars
      have hopen : k.Open (before ++ x :: xs) :=
        ⟨before, x, xs, rfl, first, fun y hy => more y (List.mem_append_left _ hy)⟩
      have hmore : k.more c = true := more c (List.mem_append_right xs List.mem_cons_self)
      cases (hc.runs k hopen).symm.trans hmore
    | arrow =>
      obtain ⟨rfl, htail⟩ := List.cons.inj hchars
      cases xs with
      | nil =>
        obtain ⟨rfl, -⟩ := List.cons.inj htail
        exact hc.arrow (by simp) rfl
      | cons y xs => simp at htail
    | sign => simp at hchars
    | stray => simp at hchars

/-! ## The pieces of the scan -/

@[simp] theorem width_nil : width [] = 0 := rfl

@[simp] theorem width_cons (c : Char) (cs : List Char) : width (c :: cs) = c.utf8Size + width cs :=
  rfl

@[simp] theorem width_append (cs ds : List Char) : width (cs ++ ds) = width cs + width ds := by
  induction cs with
  | nil => simp
  | cons c cs ih => simp [ih, Nat.add_assoc]

/-- A piece between `before` and `after`. -/
structure Piece.Sits (p : Piece) (before after : List Char) : Prop where
  span_eq : p.span = ⟨width before, width before + width p.chars⟩
  cut : Cut p.chars p.kind after
  splits : ∀ c ∈ p.chars.head?, Splits before c

/-- After `before`, the pieces make up the rest, one after the other. -/
def Tiles (before : List Char) : List Piece → List Char → Prop
  | [], rest => rest = []
  | p :: ps, rest =>
    ∃ after, rest = p.chars ++ after ∧ p.Sits before after ∧ Tiles (before ++ p.chars) ps after

theorem tiles_scan (before rest : List Char) (h : ∀ c ∈ rest.head?, Splits before c) :
    Tiles before (scan (width before) 0 rest) rest := by
  induction hn : rest.length using Nat.strongRecOn generalizing before rest with
  | ind n ih =>
  cases rest with
  | nil => rfl
  | cons c rest =>
    obtain ⟨cs, after, rfl, hlength, hcut⟩ := cut_piece c rest
    have hc : Splits before c := h c rfl
    have hscan : scan (width before) 0 (c :: (cs ++ after)) =
        ⟨(piece c (cs ++ after)).1, ⟨width before, width before + width (c :: cs)⟩, c :: cs⟩ ::
          scan (width (before ++ c :: cs)) 0 after := by
      rw [scan]
      simp only [hlength, List.take_left]
      rw [scan_eq, List.take_left, List.drop_left, width_append, width_cons, Nat.add_assoc]
    rw [hscan]
    have hlt : after.length < n := by
      simp only [List.length_cons, List.length_append] at hn
      omega
    refine ⟨after, rfl, ⟨rfl, hcut, fun d hd => ?_⟩,
      ih _ hlt _ _ (fun d hd => hcut.splits hc hd) rfl⟩
    cases hd
    exact hc

namespace Tiles

variable {before rest : List Char} {ps : List Piece}

theorem exists_sits (h : Tiles before ps rest) {p : Piece} (hp : p ∈ ps) :
    ∃ mid after, rest = mid ++ (p.chars ++ after) ∧ p.Sits (before ++ mid) after := by
  induction ps generalizing before rest with
  | nil => cases hp
  | cons q ps ih =>
    obtain ⟨after, rfl, hq, hps⟩ := h
    rcases List.mem_cons.mp hp with rfl | hp
    · exact ⟨[], after, rfl, by rwa [List.append_nil]⟩
    · obtain ⟨mid, after', rfl, hsits⟩ := ih hps hp
      exact ⟨q.chars ++ mid, after', by rw [List.append_assoc], by rwa [← List.append_assoc]⟩

/-- Every character belongs to a piece. -/
theorem exists_mem (h : Tiles before ps rest) {u v : List Char} {c : Char}
    (hrest : rest = u ++ c :: v) : ∃ p ∈ ps, ∃ mid xs ys after, u = mid ++ xs ∧
      p.chars = xs ++ c :: ys ∧ v = ys ++ after ∧ p.Sits (before ++ mid) after := by
  induction ps generalizing before rest u with
  | nil =>
    rw [Tiles.eq_def] at h
    simp [hrest] at h
  | cons q ps ih =>
    obtain ⟨after, rfl, hq, hps⟩ := h
    rcases List.append_eq_append_iff.mp hrest with ⟨u', rfl, hu⟩ | ⟨ys, hchars, hv⟩
    · obtain ⟨p, hp, mid, xs, ys, after', rfl, hchars, rfl, hsits⟩ := ih hps hu
      refine ⟨p, List.mem_cons_of_mem q hp, q.chars ++ mid, xs, ys, after', ?_, hchars, rfl, ?_⟩
      · rw [List.append_assoc]
      · rwa [← List.append_assoc]
    · cases ys with
      | nil =>
        -- the piece ends right before the character
        obtain ⟨p, hp, mid, xs, ys, after', hmid, hp'⟩ := ih hps (u := []) hv.symm
        obtain ⟨rfl, rfl⟩ := List.append_eq_nil_iff.mp hmid.symm
        refine ⟨p, List.mem_cons_of_mem q hp, q.chars, [], ys, after', ?_, ?_⟩
        · rw [hchars, List.append_nil, List.append_nil]
        · simpa using hp'
      | cons c' ys =>
        obtain ⟨rfl, rfl⟩ := List.cons.inj hv
        exact ⟨q, List.mem_cons_self, [], u, ys, after, rfl, hchars, rfl, by simpa using hq⟩

/-- Each piece ends before the next one begins. -/
theorem pairwise (h : Tiles before ps rest) : (∀ p ∈ ps, width before ≤ p.span.start) ∧
    ps.Pairwise fun p q => p.span.stop ≤ q.span.start := by
  induction ps generalizing before rest with
  | nil => exact ⟨List.forall_mem_nil _, .nil⟩
  | cons p ps ih =>
    obtain ⟨after, rfl, hp, hps⟩ := h
    obtain ⟨hstart, hpairwise⟩ := ih hps
    rw [width_append] at hstart
    refine ⟨List.forall_mem_cons.mpr ⟨?_, fun q hq => ?_⟩, List.pairwise_cons.mpr ⟨fun q hq => ?_,
      hpairwise⟩⟩
    · exact hp.span_eq ▸ Nat.le_refl _
    · exact Nat.le_trans (Nat.le_add_right _ _) (hstart q hq)
    · rw [hp.span_eq]
      exact hstart q hq

end Tiles

theorem tiles_source (source : List Char) : Tiles [] (scan 0 0 source) source :=
  tiles_scan [] source fun c _ => splits_nil c

/-- The scan finds all pieces of a source. -/
theorem mem_scan_iff {source : List Char} {p : Piece} : p ∈ scan 0 0 source ↔
    ∃ before after, source = before ++ (p.chars ++ after) ∧ p.Sits before after := by
  constructor
  · intro hp
    exact (tiles_source source).exists_sits hp
  · rintro ⟨before, after, hsource, hp⟩
    obtain ⟨c, cs, hchars⟩ := hp.cut.exists_cons
    have hc : Splits before c := hp.splits c (by rw [hchars]; rfl)
    obtain ⟨q, hq, mid, xs, ys, after', hmid, hchars', hafter, hsits⟩ :=
      (tiles_source source).exists_mem (c := c) (by rw [hsource, hchars, List.cons_append])
    -- the piece of the first character begins with it, and so it is the same one
    have hcut : Cut (xs ++ c :: ys) q.kind after' := hchars' ▸ hsits.cut
    rw [hmid] at hc
    obtain rfl : xs = [] := hcut.eq_nil_of_splits hc
    obtain ⟨heq, hkind⟩ := hp.cut.unique hsits.cut (by rw [hchars, hchars']; simp [hafter])
    have hpq : p = q := by
      obtain ⟨kind, span, chars⟩ := p
      obtain ⟨kind', span', chars'⟩ := q
      obtain rfl : kind = kind' := hkind
      obtain rfl : chars = chars' := heq
      have hspan := hp.span_eq
      rw [hmid, List.append_nil] at hspan
      exact congrArg (Piece.mk kind · chars) (hspan.trans hsits.span_eq.symm)
    exact hpq ▸ hq

end Bankflow.Source
