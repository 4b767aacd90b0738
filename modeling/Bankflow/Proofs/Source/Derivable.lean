import Bankflow.Proofs.Source.Reading

/-!
# What is read is a phrase

The tokens that a rule takes are those of a phrase, whatever it then gives. Where a rule
fails, the tokens before can still go on to a phrase, and what is left after the next one
does not matter. `Rule.Takes n r P` says that of all cursors with fewer than `n` tokens: what
`r` gives there, and what it takes, satisfy `P`, and it fails only if `P` can no longer be
met. Taking a token leaves fewer of them, and the recursive rules are followed by induction
on `n`.
-/

namespace Bankflow.Source

variable {α β δ : Type}

/-- Before `ts` and then `rest`, and after a token that ends at `stop`, the rule fails. -/
def Rule.Rejects (r : Rule α) (stop : Nat) (ts rest : List Lexeme) : Prop :=
  ∀ s : Cursor, s.rest = ts ++ rest → s.stop = stop → ∃ f, r s = .error f

/-- Before fewer than `n` tokens, the rule keeps to `P`. -/
structure Rule.Takes (n : Nat) (r : Rule α) (P : α → List Lexeme → Prop) : Prop where
  /-- What it gives and takes satisfies `P`, and only the next token told where to end. -/
  ok : ∀ (s : Cursor) (p : Parsed s α), s.size < n → r s = .ok p →
    ∃ ts, s.rest = ts ++ p.next.rest ∧ P p.value ts ∧
      ∀ rest, rest.head? = p.next.rest.head? → r.Reads s.stop ts p.value rest
  /-- Where it fails, what it took until then is the beginning of something that satisfies
  `P`, and only the next token made it fail. -/
  error : ∀ (s : Cursor) (f : Failure), s.size < n → r s = .error f →
    ∃ ts, s.rest = ts ++ f.rest ∧ (∃ a us, P a (ts ++ us)) ∧
      ∀ rest, rest.head? = f.rest.head? → r.Rejects s.stop ts rest
  /-- There is something to take, for a rule before this one that fails. -/
  possible : ∃ a ts, P a ts

/-- Before fewer than `n` tokens, the rule takes a phrase with these `tokens`. -/
abbrev Rule.TakesPhrase (n : Nat) (r : Rule α) (tokens : δ → List Lexeme) : Prop :=
  Rule.Takes n r fun _ ts => ∃ d, tokens d = ts

/-- The rule takes a phrase, or finds none and takes nothing. -/
abbrev Rule.TakesPhrase? (n : Nat) (r : Rule (Option α)) (tokens : δ → List Lexeme) : Prop :=
  Rule.Takes n r fun o ts => o.elim (ts = []) fun _ => ∃ d, tokens d = ts

/-- A rule that succeeds only when no token is left after it. -/
def Rule.Finishes (r : Rule α) : Prop :=
  ∀ (s : Cursor) (p : Parsed s α), r s = .ok p → p.next.rest = []

theorem Rule.Finishes.bind {r : Rule α} {f : α → Rule β} (h : ∀ a, (f a).Finishes) :
    (r >>= f).Finishes := by
  intro s c hc
  obtain ⟨a, b, -, hb, rfl⟩ := bind_eq_ok hc
  exact h a.value a.next b hb

theorem Rule.Rejects.bind_left {r : Rule α} {f : α → Rule β} {stop : Nat} {ts rest : List Lexeme}
    (h : r.Rejects stop ts rest) : (r >>= f).Rejects stop ts rest := by
  intro s hrest hstop
  obtain ⟨e, he⟩ := h s hrest hstop
  exact ⟨e, by simp only [Bind.bind, he]⟩

theorem Rule.Rejects.bind_right {r : Rule α} {f : α → Rule β} {stop : Nat}
    {ts us rest : List Lexeme} {a : α} (hr : r.Reads stop ts a (us ++ rest))
    (hf : (f a).Rejects (endOf stop ts) us rest) : (r >>= f).Rejects stop (ts ++ us) rest := by
  intro s hrest hstop
  rw [List.append_assoc] at hrest
  obtain ⟨p, hp, rfl, hnext, hend⟩ := hr s hrest hstop
  obtain ⟨e, he⟩ := hf p.next hnext hend
  exact ⟨e, by simp only [Bind.bind, hp, he]⟩

namespace Rule.Takes

variable {n m : Nat} {r : Rule α} {f : α → Rule β} {P : α → List Lexeme → Prop}
  {Q : β → List Lexeme → Prop}

theorem zero (h : ∃ a ts, P a ts) : Rule.Takes 0 r P :=
  ⟨fun _ _ h => absurd h (Nat.not_lt_zero _), fun _ _ h => absurd h (Nat.not_lt_zero _), h⟩

theorem mono (h : Rule.Takes m r P) (hnm : n ≤ m) : Rule.Takes n r P :=
  ⟨fun s p hs => h.ok s p (Nat.lt_of_lt_of_le hs hnm),
    fun s f hs => h.error s f (Nat.lt_of_lt_of_le hs hnm), h.possible⟩

theorem imp {P' : α → List Lexeme → Prop} (h : Rule.Takes n r P)
    (himp : ∀ a ts, P a ts → P' a ts) : Rule.Takes n r P' where
  ok s p hs hp := by
    obtain ⟨ts, hts, hP, hreads⟩ := h.ok s p hs hp
    exact ⟨ts, hts, himp _ _ hP, hreads⟩
  error s f hs hf := by
    obtain ⟨ts, hts, ⟨a, us, hP⟩, hrejects⟩ := h.error s f hs hf
    exact ⟨ts, hts, ⟨a, us, himp _ _ hP⟩, hrejects⟩
  possible := by
    obtain ⟨a, ts, hP⟩ := h.possible
    exact ⟨a, ts, himp _ _ hP⟩

theorem pure {a : α} (h : P a []) : Rule.Takes n (Pure.pure a) P where
  ok s p _ hp := by
    cases hp
    exact ⟨[], rfl, h, fun _ _ => .pure⟩
  error _ _ _ hf := by cases hf
  possible := ⟨a, [], h⟩

/-- What was taken, where that leads, and that it would be the same before other tokens. -/
theorem exists_taken (h : Rule.Takes n r P) {s : Cursor} {p : Parsed s α} (hs : s.size < n)
    (hp : r s = .ok p) : ∃ ts, s.rest = ts ++ p.next.rest ∧ P p.value ts ∧
      p.next.size < n - ts.length ∧ p.next.stop = endOf s.stop ts ∧
      ∀ us rest rest', p.next.rest = us ++ rest → rest'.head? = rest.head? →
        r.Reads s.stop ts p.value (us ++ rest') := by
  obtain ⟨ts, hts, hP, hreads⟩ := h.ok s p hs hp
  have hsize : s.size = ts.length + p.next.size := by
    rw [Cursor.size, hts, List.length_append, Cursor.size]
  obtain ⟨q, hq, -, -, hstop⟩ := hreads _ rfl s hts rfl
  cases hp.symm.trans hq
  refine ⟨ts, hts, hP, by omega, hstop, fun us rest rest' hus hrest => hreads _ ?_⟩
  rw [hus, List.head?_append, List.head?_append, hrest]

theorem bind (hr : Rule.Takes n r P)
    (hf : ∀ a ts, P a ts → Rule.Takes (n - ts.length) (f a) fun b us => Q b (ts ++ us)) :
    Rule.Takes n (r >>= f) Q where
  ok s c hs hc := by
    obtain ⟨a, b, ha, hb, rfl⟩ := bind_eq_ok hc
    obtain ⟨ts, hts, hP, hsize, hstop, hreads⟩ := hr.exists_taken hs ha
    obtain ⟨us, hus, hQ, hreads'⟩ := (hf a.value ts hP).ok a.next b hsize hb
    refine ⟨ts ++ us, by rw [hts, hus, List.append_assoc]; rfl, hQ, fun rest hrest => ?_⟩
    exact .bind (hreads us _ rest hus hrest) (hstop ▸ hreads' rest hrest)
  error s e hs he := by
    rcases bind_eq_error he with hr' | ⟨a, ha, hf'⟩
    · obtain ⟨ts, hts, ⟨a, us, hP⟩, hrejects⟩ := hr.error s e hs hr'
      -- after what the first rule was to take, the second one could have gone on
      obtain ⟨b, vs, hQ⟩ := (hf a _ hP).possible
      rw [List.append_assoc] at hQ
      exact ⟨ts, hts, ⟨b, us ++ vs, hQ⟩, fun rest hrest => (hrejects rest hrest).bind_left⟩
    · obtain ⟨ts, hts, hP, hsize, hstop, hreads⟩ := hr.exists_taken hs ha
      obtain ⟨us, hus, ⟨b, vs, hQ⟩, hrejects⟩ := (hf a.value ts hP).error a.next e hsize hf'
      rw [← List.append_assoc] at hQ
      refine ⟨ts ++ us, by rw [hts, hus, List.append_assoc], ⟨b, vs, hQ⟩, fun rest hrest => ?_⟩
      exact .bind_right (hreads us _ rest hus hrest) (hstop ▸ hrejects rest hrest)
  possible := by
    obtain ⟨a, ts, hP⟩ := hr.possible
    obtain ⟨b, us, hQ⟩ := (hf a ts hP).possible
    exact ⟨b, ts ++ us, hQ⟩

theorem pure_bind {a : α} (h : Rule.Takes n (f a) Q) : Rule.Takes n (Pure.pure a >>= f) Q :=
  bind (P := fun b ts => b = a ∧ ts = []) (pure ⟨rfl, rfl⟩) fun _ _ ⟨hb, hts⟩ => by
    subst hb hts
    exact h

theorem map {g : α → β} (h : Rule.Takes n r fun a ts => Q (g a) ts) :
    Rule.Takes n (g <$> r) Q :=
  bind (f := Pure.pure ∘ g) h fun _ ts hQ => pure ((List.append_nil ts).symm ▸ hQ)

theorem here {f : Nat → Rule β} (hf : ∀ stop, Rule.Takes n (f stop) Q) :
    Rule.Takes n (Rule.here >>= f) Q :=
  bind (P := fun _ ts => ts = [])
    ⟨fun _ _ _ hp => by cases hp; exact ⟨[], rfl, rfl, fun _ _ => .here⟩,
      fun _ _ _ he => (by cases he), ⟨0, [], rfl⟩⟩
    fun a _ h => by subst h; exact hf a

/-! ### Phrases -/

/-- Before fewer than no tokens it is enough that there is a phrase. -/
theorem start {tokens : δ → List Lexeme} (a : α) (d : δ) : Rule.TakesPhrase 0 r tokens :=
  zero ⟨a, tokens d, d, rfl⟩

/-- A phrase, and what follows it. -/
theorem phrase {tokens : δ → List Lexeme} (hr : Rule.TakesPhrase n r tokens)
    (hf : ∀ a d, Rule.Takes n (f a) fun b us => Q b (tokens d ++ us)) :
    Rule.Takes n (r >>= f) Q :=
  bind hr fun a _ ⟨d, hd⟩ => hd ▸ (hf a d).mono (Nat.sub_le _ _)

/-- A phrase, and nothing after it. -/
theorem last {tokens : δ → List Lexeme} (hr : Rule.TakesPhrase n r tokens)
    (h : ∀ a d, P a (tokens d)) : Rule.Takes n r P :=
  hr.imp fun a _ ⟨d, hd⟩ => hd ▸ h a d

/-- A phrase or nothing, and what follows it. -/
theorem phrase? {r : Rule (Option α)} {f : Option α → Rule β} {tokens : δ → List Lexeme}
    (hr : Rule.TakesPhrase? n r tokens)
    (hsome : ∀ a d, Rule.Takes n (f (some a)) fun b us => Q b (tokens d ++ us))
    (hnone : Rule.Takes n (f none) Q) : Rule.Takes n (r >>= f) Q :=
  bind hr fun
    | none, _, h => by subst h; exact hnone
    | some a, _, ⟨d, hd⟩ => hd ▸ (hsome a d).mono (Nat.sub_le _ _)

/-- Phrases of one kind as phrases of another. -/
theorem within {ε : Type} {r : Rule (Option α)} {tokens : δ → List Lexeme}
    {tokens' : ε → List Lexeme} (hr : Rule.TakesPhrase? n r tokens) (g : δ → ε)
    (h : ∀ d, tokens' (g d) = tokens d) : Rule.TakesPhrase? n r tokens' :=
  hr.imp fun
    | none, _, hts => hts
    | some _, _, ⟨d, hd⟩ => ⟨g d, (h d).trans hd⟩

theorem orElse {r r' : Rule (Option α)} {tokens : δ → List Lexeme}
    (hr : Rule.TakesPhrase? n r tokens) (hr' : Rule.TakesPhrase? n r' tokens) :
    Rule.TakesPhrase? n (r.orElse r') tokens :=
  phrase? hr (fun _ d => pure ⟨d, (List.append_nil _).symm⟩) hr'

/-! ### Single tokens -/

/-- The next token, if there is one, decides whether a rule for a token takes it. -/
theorem halts_of_head? {want : Token → Option α} {rest rest' : List Lexeme}
    (h : Halts want rest) (hrest : rest'.head? = rest.head?) : Halts want rest' := by
  unfold Halts
  rw [hrest]
  exact h

theorem take {want : Token → Option α} {e : Expected} (hwant : ∃ t a, want t = some a) :
    Rule.Takes n (Rule.take want e)
      fun a ts => ∃ l : Lexeme, ts = [l] ∧ want l.token = some a.1 ∧ l.span = a.2 := by
  obtain ⟨t, a₀, ha₀⟩ := hwant
  have hpossible : ∃ (a : α × Span) (ts : List Lexeme),
      ∃ l : Lexeme, ts = [l] ∧ want l.token = some a.1 ∧ l.span = a.2 :=
    ⟨(a₀, ⟨0, 0⟩), _, ⟨t, ⟨0, 0⟩⟩, rfl, ha₀, rfl⟩
  refine ⟨?_, ?_, hpossible⟩
  · intro s p _ hp
    obtain ⟨l, rest, hrest, hl, hspan, hnext⟩ := Rule.take_eq_ok hp
    rw [hnext, ← Prod.eta p.value, ← hspan]
    exact ⟨[l], hrest, ⟨l, rfl, hl, rfl⟩, fun _ _ => .take hl e⟩
  · intro s f _ hf
    obtain ⟨hhalts, rfl⟩ := Rule.take_eq_error hf
    refine ⟨[], rfl, hpossible, ?_⟩
    rintro _ hrest s' rfl -
    simp only [Rule.take, Halts.take? (halts_of_head? hhalts hrest)]
    exact ⟨_, rfl⟩

theorem tryTake {want : Token → Option α} {e : Expected} : Rule.Takes n (Rule.tryTake want e)
    fun o ts => o.elim (ts = []) fun a =>
      ∃ l : Lexeme, ts = [l] ∧ want l.token = some a.1 ∧ l.span = a.2 := by
  refine ⟨?_, fun _ _ _ hf => absurd hf Rule.tryTake_ne_error, ⟨none, [], rfl⟩⟩
  intro s p _ hp
  rcases Rule.tryTake_eq_ok hp with ⟨hvalue, hhalts, hnext⟩ | ⟨a, l, rest, hvalue, hrest, hl, hnext⟩
  · rw [hvalue, hnext]
    exact ⟨[], rfl, rfl, fun rest hrest => .tryTake_none (halts_of_head? hhalts hrest) e⟩
  · rw [hvalue, hnext]
    exact ⟨[l], hrest, ⟨l, rfl, hl, rfl⟩, fun _ _ => .tryTake hl e⟩

/-- A rule for tokens that their use determines. -/
theorem take_eq {want : Token → Option α} {e : Expected} {lexeme : α × Span → Lexeme}
    (hwant : ∃ t a, want t = some a) (h : ∀ l a, want l.token = some a → l = lexeme (a, l.span)) :
    Rule.Takes n (Rule.take want e) fun a ts => ts = [lexeme a] :=
  (take hwant).imp fun
    | (_, _), _, ⟨l, hts, hl, hspan⟩ => by subst hspan; rw [hts, ← h l _ hl]

theorem tryTake_eq {want : Token → Option α} {e : Expected} {lexeme : α × Span → Lexeme}
    (h : ∀ l a, want l.token = some a → l = lexeme (a, l.span)) :
    Rule.Takes n (Rule.tryTake want e) fun o ts => ts = o.elim [] fun a => [lexeme a] :=
  tryTake.imp fun
    | none, _, hts => hts
    | some (_, _), _, ⟨l, hts, hl, hspan⟩ => by
      subst hspan
      rw [hts, Option.elim_some, ← h l _ hl]

/-- A sign or none, and what follows. -/
theorem sign? {want : Token → Option α} {e : Expected} {token : δ → Token}
    {f : Option (α × Span) → Rule β} (h : ∀ t a, want t = some a → ∃ d, t = token d)
    (hsome : ∀ a d span,
      Rule.Takes (n - 1) (f (some (a, span))) fun b us => Q b (⟨token d, span⟩ :: us))
    (hnone : Rule.Takes n (f none) Q) : Rule.Takes n (Rule.tryTake want e >>= f) Q :=
  bind tryTake fun
    | none, _, hts => by subst hts; exact hnone
    | some (a, _), _, ⟨⟨t, span⟩, hts, hl, hspan⟩ => by
      obtain ⟨d, rfl⟩ := h t a hl
      subst hts hspan
      exact hsome a d span

/-- A token, and what follows before one token less. -/
theorem token {lexeme : α → Lexeme} (hr : Rule.Takes n r fun a ts => ts = [lexeme a])
    (hf : ∀ a, Rule.Takes (n - 1) (f a) fun b us => Q b (lexeme a :: us)) :
    Rule.Takes n (r >>= f) Q :=
  bind hr fun a _ h => by subst h; exact hf a

/-- A token or none, and what follows. -/
theorem token? {r : Rule (Option α)} {f : Option α → Rule β} {lexeme : α → Lexeme}
    (hr : Rule.Takes n r fun o ts => ts = o.elim [] fun a => [lexeme a])
    (hsome : ∀ a, Rule.Takes (n - 1) (f (some a)) fun b us => Q b (lexeme a :: us))
    (hnone : Rule.Takes n (f none) Q) : Rule.Takes n (r >>= f) Q :=
  bind hr fun
    | none, _, h => by subst h; exact hnone
    | some a, _, h => by subst h; exact hsome a

/-- A token is a phrase of its own. -/
theorem one {lexeme : α → Lexeme} (hr : Rule.Takes n r fun a ts => ts = [lexeme a]) :
    Rule.TakesPhrase n r fun a => [lexeme a] :=
  hr.imp fun a _ h => ⟨a, h.symm⟩

theorem eq_of_exactly {t : Token} (l : Lexeme) (a : Unit) (h : exactly t l.token = some a) :
    l = ⟨t, l.span⟩ := by
  have ht : l.token = t := by simpa [exactly] using h
  rw [← ht]

theorem exactly_self (t : Token) : ∃ u a, exactly t u = some a := ⟨t, (), if_pos rfl⟩

theorem map? {r : Rule (Option α)} {g : α → β} {lexeme : β → Lexeme}
    (h : Rule.Takes n r fun o ts => ts = o.elim [] fun a => [lexeme (g a)]) :
    Rule.Takes n (Option.map g <$> r) fun o ts => ts = o.elim [] fun b => [lexeme b] :=
  map (by simpa only [Option.elim_map, Function.comp_def] using h)

theorem keyword (k : Keyword) :
    Rule.Takes n (Source.keyword k) fun span ts => ts = [k.lexeme span] :=
  map (take_eq (exactly_self _) eq_of_exactly)

theorem keyword? (k : Keyword) :
    Rule.Takes n (Source.keyword? k) fun o ts => ts = o.elim [] fun span => [k.lexeme span] :=
  map? (tryTake_eq eq_of_exactly)

theorem symbol (y : Symbol) :
    Rule.Takes n (Source.symbol y) fun span ts => ts = [y.lexeme span] :=
  map (take_eq (exactly_self _) eq_of_exactly)

theorem symbol? (y : Symbol) :
    Rule.Takes n (Source.symbol? y) fun o ts => ts = o.elim [] fun span => [y.lexeme span] :=
  map? (tryTake_eq eq_of_exactly)

theorem ident : Rule.Takes n Source.ident fun x ts => ts = [x.lexeme] :=
  map (take_eq ⟨.ident "", "", rfl⟩ fun
    | ⟨.ident _, _⟩, _, h => by cases h; rfl)

theorem ident? : Rule.Takes n Source.ident? fun o ts => ts = o.elim [] fun x => [x.lexeme] :=
  map? (tryTake_eq fun
    | ⟨.ident _, _⟩, _, h => by cases h; rfl)

theorem int : Rule.Takes n Source.int fun m ts => ts = [m.lexeme] :=
  map (take_eq ⟨.int 0, 0, rfl⟩ fun
    | ⟨.int _, _⟩, _, h => by cases h; rfl)

theorem int? : Rule.Takes n Source.int? fun o ts => ts = o.elim [] fun m => [m.lexeme] :=
  map? (tryTake_eq fun
    | ⟨.int _, _⟩, _, h => by cases h; rfl)

theorem newline? : Rule.Takes n (Rule.tryTake (exactly .newline) .newline)
    fun o ts => ts = o.elim [] fun a => [newline a.2] :=
  tryTake_eq eq_of_exactly

/-- A token whose place is not kept, and what follows. -/
theorem mark {lexeme : α → Lexeme} {f : Unit → Rule β}
    (hr : Rule.Takes n r fun a ts => ts = [lexeme a])
    (hf : ∀ a, Rule.Takes (n - 1) (f ()) fun b us => Q b (lexeme a :: us)) :
    Rule.Takes n (discard r >>= f) Q :=
  bind (P := fun _ ts => ∃ a, ts = [lexeme a])
    (map (g := Function.const α PUnit.unit) (hr.imp fun a _ h => ⟨a, h⟩))
    fun _ _ ⟨a, h⟩ => by subst h; exact hf a

end Rule.Takes

namespace Phrase

open Rule (TakesPhrase TakesPhrase?)

/-! ## Lists -/

theorem takes_newlines (n : Nat) : TakesPhrase n newlines (List.map newline) := by
  induction n with
  | zero => exact .start () []
  | succ n ih =>
    rw [newlines_eq]
    exact .token? .newline? (fun a => .last ih fun _ blank => ⟨a.2 :: blank, rfl⟩)
      (.pure ⟨[], rfl⟩)

section Items

variable {tokens : δ → List Lexeme}

theorem takes_moreItems {item : Rule α} (n : Nat) (h : TakesPhrase n item tokens) :
    TakesPhrase n (moreItems item) fun more : List (Span × δ) =>
      more.flatMap fun (comma, d) => Symbol.comma.lexeme comma :: tokens d := by
  induction n with
  | zero => exact .start [] []
  | succ n ih =>
    have hn : TakesPhrase n item tokens := h.mono (Nat.le_succ n)
    rw [moreItems_eq]
    refine .token? (.symbol? .comma) (fun comma => .phrase hn fun _ d => .phrase (ih hn)
      fun _ more => .pure ⟨(comma, d) :: more, ?_⟩) (.pure ⟨[], rfl⟩)
    simp

theorem takes_commaList {item : Rule α} (n : Nat) (h : TakesPhrase n item tokens) :
    TakesPhrase n (commaList item) (CommaList.tokens tokens) :=
  .phrase h fun _ d => .phrase (takes_moreItems n h) fun _ more =>
    .pure ⟨⟨d, more⟩, by simp [CommaList.tokens]⟩

theorem takes_lines {item? : Rule (Option α)} (n : Nat) (h : TakesPhrase? n item? tokens) :
    TakesPhrase n (lines item?) (Lines.tokens tokens) := by
  induction n with
  | zero => exact .start [] .done
  | succ n ih =>
    have hn : TakesPhrase? n item? tokens := h.mono (Nat.le_succ n)
    rw [lines_eq]
    refine .phrase? h (fun _ d => .token? .newline? (fun first => .phrase (takes_newlines n)
      fun _ blank => .phrase (ih hn) fun _ rest => .pure ⟨.next d first.2 blank rest, ?_⟩)
        (.pure ⟨.last d, ?_⟩)) (.pure ⟨.done, rfl⟩)
    · simp [Lines.tokens]
    · simp [Lines.tokens]

/-- Newlines after lines are line breaks too, or empty lines before the first one. -/
theorem Lines.exists_trail (tokens : δ → List Lexeme) (l : Lines δ) (blank trail : List Span) :
    ∃ (blank' : List Span) (l' : Lines δ), blank'.map newline ++ l'.tokens tokens =
      blank.map newline ++ (l.tokens tokens ++ trail.map newline) := by
  induction l generalizing blank with
  | done => exact ⟨blank ++ trail, .done, by simp [Lines.tokens]⟩
  | last d =>
    cases trail with
    | nil => exact ⟨blank, .last d, by simp [Lines.tokens]⟩
    | cons first trail => exact ⟨blank, .next d first trail .done, by simp [Lines.tokens]⟩
  | next d first between l ih =>
    obtain ⟨between', l', h⟩ := ih between
    exact ⟨blank, .next d first between' l', by simp [Lines.tokens, h]⟩

end Items

/-! ## Index expressions -/

/-- The rules of an index expression before fewer than `n` tokens. -/
structure IndexTaken (n : Nat) : Prop where
  unary : TakesPhrase n unary Unary.tokens
  products : ∀ left, TakesPhrase n (products left) Factors.tokens
  term : TakesPhrase n term Term.tokens
  sums : ∀ left, TakesPhrase n (sums left) Summands.tokens
  expr : TakesPhrase n expr Expr.tokens

theorem takes_unary {n : Nat} (h : IndexTaken n) : TakesPhrase (n + 1) unary Unary.tokens := by
  rw [unary_eq]
  refine .token? (.symbol? .minus)
    (fun minus => .phrase h.unary fun _ e => .here fun _ => .pure ⟨.neg minus e, ?_⟩)
    (.token? .int? (fun m => .pure ⟨.int m, rfl⟩)
      (.token? .ident? (fun x => .pure ⟨.var x, rfl⟩)
        (.mark (.symbol .lparen) fun left => .phrase h.expr fun _ e =>
          .mark (.symbol .rparen) fun right => .pure ⟨.brackets left e right, ?_⟩)))
  · simp [Unary.tokens]
  · simp [Unary.tokens]

theorem exists_of_productOp (t : Token) (op : IndexOp) (h : productOp t = some op) :
    ∃ sign : ProductSign, t = sign.token := by
  unfold productOp at h
  split at h
  · exact ⟨.star, rfl⟩
  · exact ⟨.mod, rfl⟩
  · exact ⟨.floorDiv, rfl⟩
  · exact ⟨.ceilDiv, rfl⟩
  · cases h

theorem exists_of_sumOp (t : Token) (op : IndexOp) (h : sumOp t = some op) :
    ∃ sign : SumSign, t = sign.token := by
  unfold sumOp at h
  split at h
  · exact ⟨.plus, rfl⟩
  · exact ⟨.minus, rfl⟩
  · cases h

theorem takes_products {n : Nat} (h : IndexTaken n) (left : Index) :
    TakesPhrase (n + 1) (products left) Factors.tokens := by
  rw [products_eq]
  exact .sign? exists_of_productOp (fun _ sign span => .phrase h.unary fun _ u =>
    .last (h.products _) fun _ rest => ⟨.more sign span u rest, rfl⟩) (.pure ⟨.done, rfl⟩)

theorem takes_sums {n : Nat} (h : IndexTaken n) (left : Index) :
    TakesPhrase (n + 1) (sums left) Summands.tokens := by
  rw [sums_eq]
  exact .sign? exists_of_sumOp (fun _ sign span => .phrase h.term fun _ t =>
    .last (h.sums _) fun _ rest => ⟨.more sign span t rest, rfl⟩) (.pure ⟨.done, rfl⟩)

theorem takes_index (n : Nat) : IndexTaken n := by
  induction n with
  | zero =>
    -- a number alone is a phrase of each kind
    let number : Number := ⟨0, ⟨0, 0⟩⟩
    let t : Term := .mk (.int number) .done
    exact ⟨.start (.int number) (.int number), fun left => .start left .done,
      .start (.int number) t, fun left => .start left .done, .start (.int number) (.mk t .done)⟩
  | succ n ih =>
    have hterm : TakesPhrase (n + 1) term Term.tokens := by
      rw [term_eq]
      exact .phrase (takes_unary ih) fun left u =>
        .last (takes_products ih left) fun _ rest => ⟨.mk u rest, rfl⟩
    refine ⟨takes_unary ih, takes_products ih, hterm, takes_sums ih, ?_⟩
    rw [expr_eq]
    exact .phrase hterm fun left t => .last (takes_sums ih left) fun _ rest => ⟨.mk t rest, rfl⟩

/-! ## Loops -/

theorem takes_signed (n : Nat) : TakesPhrase n signed Signed.tokens :=
  .token? (.symbol? .minus) (fun minus => .token .int fun m => .pure ⟨⟨some minus, m⟩, rfl⟩)
    (.token .int fun m => .pure ⟨⟨none, m⟩, rfl⟩)

theorem takes_accessKind? (n : Nat) : TakesPhrase? n accessKind?
    fun (kind, span) => [(accessKeyword kind).lexeme span] :=
  .token? (.keyword? .read) (fun span => .pure ⟨(.read, span), rfl⟩)
    (.token? (.keyword? .write) (fun span => .pure ⟨(.write, span), rfl⟩) (.pure rfl))

theorem takes_access? (n : Nat) : TakesPhrase? n access? Access.tokens :=
  .phrase? (takes_accessKind? n)
    (fun (_, _) (kind, keyword) => .token .ident fun array => .mark (.symbol .lbracket) fun left =>
      .phrase (takes_commaList _ (takes_index _).expr) fun _ indices =>
        .mark (.symbol .rbracket) fun right => .here fun _ =>
          .pure ⟨⟨kind, keyword, array, left, indices, right⟩, rfl⟩) (.pure rfl)

theorem takes_stepPart (n : Nat) : TakesPhrase n stepPart fun step : Option (Span × Number) =>
    step.elim [] fun (span, n) => [Keyword.step.lexeme span, n.lexeme] :=
  .token? (.keyword? .step)
    (fun span => .map (Rule.Takes.int.imp fun m _ h => ⟨some (span, m), congrArg _ h.symm⟩))
    (.pure ⟨none, rfl⟩)

theorem takes_openBlock (n : Nat) : TakesPhrase n openBlock
    fun ((left, blank) : Span × List Span) => Symbol.lbrace.lexeme left :: blank.map newline :=
  .mark (.symbol .lbrace) fun left => .last (takes_newlines _) fun _ blank => ⟨(left, blank), rfl⟩

theorem takes_closeBlock (n : Nat) : TakesPhrase n closeBlock
    fun ((trail, right) : List Span × Span) =>
      trail.map newline ++ [Symbol.rbrace.lexeme right] :=
  .phrase (takes_newlines n) fun _ trail =>
    .map (g := Function.const _ PUnit.unit)
      ((Rule.Takes.symbol .rbrace).imp fun right _ h => ⟨(trail, right), congrArg _ h.symm⟩)

theorem takes_loopHead (n start : Nat) : TakesPhrase n (loopHead start) Head.tokens := by
  refine .token .ident fun var => .mark (.symbol .equals) fun equals =>
    .phrase (takes_signed _) fun _ lower => .mark (.keyword .upTo) fun upTo =>
      .phrase (takes_signed _) fun _ upper => .phrase (takes_stepPart _) fun _ step =>
        .bind (.keyword? .pipeline) fun pipeline _ h => .phrase (takes_openBlock _)
          fun _ (left, blank) => .pure
            ⟨⟨var, equals, lower, upTo, upper, step, pipeline, left, blank⟩, ?_⟩
  subst h
  simp [Head.tokens]

/-- The rules of a loop before fewer than `n` tokens. -/
structure LoopTaken (n : Nat) : Prop where
  loop : TakesPhrase? n loop? Loop.tokens
  item : TakesPhrase? n item? Item.tokens
  body : TakesPhrase n body Items.tokens

theorem takes_loop? {n : Nat} (h : LoopTaken n) : TakesPhrase? (n + 1) loop? Loop.tokens := by
  rw [loop?_eq]
  refine .token? (.keyword? .loop) (fun keyword => .phrase (takes_loopHead n _) fun _ head =>
    .phrase h.body fun _ items => .phrase (takes_closeBlock n) fun _ (trail, right) =>
      .here fun _ => .pure ?_) (.pure rfl)
  obtain ⟨blank, items', hitems⟩ := Lines.exists_trail Item.tokens items head.blank trail
  refine ⟨.mk keyword { head with blank } items' right, ?_⟩
  simp only [Loop.tokens, Head.tokens, Items.tokens_eq, List.cons_append, List.append_assoc,
    List.append_nil]
  rw [← List.append_assoc (blank.map newline), hitems]
  simp only [List.append_assoc]

theorem takes_loops (n : Nat) : LoopTaken n := by
  induction n with
  | zero => exact ⟨.zero ⟨none, [], rfl⟩, .zero ⟨none, [], rfl⟩, .start .done .done⟩
  | succ n ih =>
    have hitem : TakesPhrase? (n + 1) item? Item.tokens := by
      rw [item?_eq]
      refine .phrase? (takes_loop? ih) (fun (_, _) l => .pure ⟨.loop l, ?_⟩)
        (.map ((takes_access? _).imp ?_))
      · exact (List.append_nil _).symm
      · rintro (_ | a) ts h
        · exact h
        · obtain ⟨a, rfl⟩ := h
          exact ⟨.access a, rfl⟩
    have hbody : TakesPhrase (n + 1) body Items.tokens := by
      rw [body_eq, funext Items.tokens_eq]
      exact .map (takes_lines (n + 1) hitem)
    exact ⟨takes_loop? ih, hitem, hbody⟩

/-! ## Statements -/

theorem takes_set? (n : Nat) : TakesPhrase? n set? Setting.tokens :=
  .token? (.keyword? .set) (fun keyword => .token .ident fun name =>
    .mark (.symbol .equals) fun equals => .token? .int?
      (fun m => .pure_bind (.here fun _ => .pure ⟨⟨keyword, name, equals, .int m⟩, rfl⟩))
      (.phrase (.map (.one .ident)) fun _ x => .here fun _ =>
        .pure ⟨⟨keyword, name, equals, .ident x⟩, rfl⟩)) (.pure rfl)

theorem takes_array? (n : Nat) : TakesPhrase? n array? Array.tokens :=
  .token? (.keyword? .array) (fun keyword => .token .ident fun name =>
    .mark (.symbol .lbracket) fun left => .phrase (takes_commaList _ (.one .int)) fun _ shape =>
      .mark (.symbol .rbracket) fun right => .mark (.symbol .colon) fun colon =>
        .token .ident fun type => .token? (.symbol? .atSign)
          (fun mark => .phrase (.map (.one .int)) fun _ m => .here fun _ =>
            .pure ⟨⟨keyword, name, left, shape, right, colon, type, some (mark, m)⟩, rfl⟩)
          (.pure_bind (.here fun _ =>
            .pure ⟨⟨keyword, name, left, shape, right, colon, type, none⟩, rfl⟩))) (.pure rfl)

theorem takes_names (n : Nat) : TakesPhrase n Source.names Names.tokens := by
  refine .mark (.symbol .lparen) fun left => .token? .ident?
    (fun x => .phrase (.map (takes_moreItems _ (.one .ident))) fun _ more =>
      .mark (.symbol .rparen) fun right => .pure ⟨⟨left, some ⟨x, more⟩, right⟩, ?_⟩)
    (.pure_bind (.mark (.symbol .rparen) fun right => .pure ⟨⟨left, none, right⟩, rfl⟩))
  simp [Names.tokens, CommaList.tokens]

theorem takes_node? (n : Nat) : TakesPhrase? n node? Node.tokens := by
  refine .token? (.keyword? .node) (fun keyword => .token .ident fun name =>
    .phrase (takes_names _) fun _ inputs => .token? (.symbol? .arrow)
      (fun arrow => .phrase (takes_names _) fun _ outputs => .here fun _ =>
        .pure ⟨⟨keyword, name, inputs, some (arrow, outputs)⟩, ?_⟩)
      (.pure_bind (.here fun _ => .pure ⟨⟨keyword, name, inputs, none⟩, rfl⟩))) (.pure rfl)
  simp [Node.tokens]

theorem takes_region? (n : Nat) : TakesPhrase? n region? Region.tokens := by
  refine .token? (.keyword? .region) (fun keyword => .token .ident fun name =>
    .phrase (takes_openBlock _) fun _ (left, blank) => .phrase (takes_lines _ (takes_node? _))
      fun _ nodes => .phrase (takes_closeBlock _) fun _ (trail, right) => .here fun _ =>
        .pure ?_) (.pure rfl)
  obtain ⟨blank', nodes', h⟩ := nodes.exists_trail Node.tokens blank trail
  refine ⟨⟨keyword, name, left, blank', nodes', right⟩, ?_⟩
  simp only [Region.tokens, List.cons_append, List.append_nil]
  rw [← List.append_assoc (blank'.map newline), h]
  simp only [List.append_assoc]

theorem takes_loopStatement? (n : Nat) : TakesPhrase? n loopStatement? Loop.tokens :=
  .phrase? (takes_loops n).loop (fun (_, _) l => .pure ⟨l, (List.append_nil _).symm⟩) (.pure rfl)

theorem takes_statement? (n : Nat) : TakesPhrase? n statement? Statement.tokens :=
  .orElse ((takes_set? n).within .setting fun _ => rfl)
    (.orElse ((takes_array? n).within .array fun _ => rfl)
      (.orElse ((takes_loopStatement? n).within .loop fun _ => rfl)
        ((takes_region? n).within .region fun _ => rfl)))

theorem takes_endOfInput (n : Nat) : Rule.Takes n endOfInput fun _ ts => ts = [] := by
  refine ⟨?_, ?_, ⟨(), [], rfl⟩⟩
  · rintro ⟨_ | ⟨l, rest⟩, stop, missed⟩ p - hp
    · cases hp
      refine ⟨[], rfl, rfl, fun rest hrest => ?_⟩
      obtain rfl := List.head?_eq_none_iff.mp hrest
      exact reads_endOfInput
    · cases hp
  · rintro ⟨_ | ⟨l, rest⟩, stop, missed⟩ f - hf
    · cases hf
    · cases hf
      refine ⟨[], rfl, ⟨(), [], rfl⟩, fun rest hrest => ?_⟩
      obtain ⟨tail, rfl⟩ := List.head?_eq_some_iff.mp hrest
      rintro ⟨_, _, missed⟩ rfl rfl
      exact ⟨_, rfl⟩

theorem takes_statements (n : Nat) : TakesPhrase n Source.statements Program.tokens := by
  refine .phrase (takes_newlines n) fun _ blank => .phrase (takes_lines n (takes_statement? n))
    fun _ lines => .phrase (takes_newlines n) fun _ trail =>
      .bind (takes_endOfInput n) fun _ _ h => .pure ?_
  obtain ⟨blank', lines', hlines⟩ := lines.exists_trail Statement.tokens blank trail
  refine ⟨⟨blank', lines'⟩, ?_⟩
  subst h
  simpa [Program.tokens] using hlines

theorem finishes_statements : Source.statements.Finishes := by
  refine .bind fun _ => .bind fun _ => .bind fun _ => ?_
  rintro ⟨_ | ⟨l, rest⟩, stop, missed⟩ p hp
  · cases hp
    rfl
  · cases hp

/-- Tokens that are parsed to a program are those of a phrase. -/
theorem Program.exists_of_programOf {tokens : List Lexeme} {length : Nat} {p : Source.Program}
    (h : programOf tokens length = .ok p) : ∃ d : Program, d.tokens = tokens := by
  unfold programOf at h
  split at h
  · cases h
  · next r hr =>
    obtain ⟨ts, hts, ⟨d, rfl⟩, -⟩ := (takes_statements _).ok _ r (Nat.lt_succ_self _) hr
    refine ⟨d, ?_⟩
    rw [finishes_statements _ r hr, List.append_nil] at hts
    exact hts.symm

end Phrase
end Bankflow.Source
