import Bankflow.Proofs.Source.Grammar

/-!
# Rules as sequences

The recursive rules of the parser as sequences of smaller ones, which is all that later
proofs unfold of them, and what it takes for a sequence to read given tokens:
`Rule.Reads r stop ts a rest` says that `r`, before the tokens `ts` and then `rest`, takes
`ts` and gives `a`. A rule that may go on stops only before a token that it does not want
(`Halts`), so what follows counts.
-/

namespace Bankflow.Source

variable {α β : Type}

/-! ## Recursive rules as sequences -/

theorem Cursor.take?_cons (l : Lexeme) (rest : List Lexeme) (stop : Nat)
    (missed : List Expected) (want : Token → Option α) :
    Cursor.take? ⟨l :: rest, stop, missed⟩ want = (want l.token).map fun a =>
      ⟨a, l.span, ⟨rest, l.span.stop, []⟩, Nat.lt_succ_self _⟩ := by
  simp only [Cursor.take?]
  cases want l.token <;> rfl

/-- A note of what was missed does not change what is taken. -/
theorem Cursor.take?_miss (s : Cursor) (e : Expected) (want : Token → Option α) :
    (s.miss e).take? want = (s.take? want).map fun t => ⟨t.value, t.span, t.next, t.lt⟩ := by
  obtain ⟨_ | ⟨l, rest⟩, stop, missed⟩ := s
  · rfl
  · simp only [Cursor.miss, take?_cons, Option.map_map]
    rfl

theorem newlines_eq : newlines = (do
    match ← Rule.tryTake (exactly .newline) .newline with
    | none => return ()
    | some _ => newlines : Rule Unit) := by
  funext s
  rw [newlines]
  simp only [Bind.bind, Rule.tryTake]
  cases s.take? (exactly .newline) with
  | none => rfl
  | some t =>
    dsimp only
    cases newlines t.next <;> rfl

theorem moreItems_eq (item : Rule α) : moreItems item = (do
    match ← symbol? .comma with
    | none => return []
    | some _ => do
      let a ← item
      let r ← moreItems item
      return a :: r : Rule (List α)) := by
  funext s
  rw [moreItems]
  simp only [Bind.bind, Rule.tryTake, symbol?, Functor.map, Function.comp]
  cases s.take? (exactly (.symbol .comma)) with
  | none => rfl
  | some t =>
    dsimp only [Pure.pure, Parsed.after, Option.map]
    cases item t.next with
    | error e => rfl
    | ok a =>
      dsimp only
      cases moreItems item a.next <;> rfl

theorem lines_eq (item? : Rule (Option α)) : lines item? = (do
    match ← item? with
    | none => return []
    | some a =>
      match ← Rule.tryTake (exactly .newline) .newline with
      | none => return [a]
      | some _ => do
        newlines
        let r ← lines item?
        return a :: r : Rule (List α)) := by
  funext s
  rw [lines]
  simp only [Bind.bind, Rule.tryTake]
  cases item? s with
  | error e => rfl
  | ok a =>
    dsimp only
    cases a.value with
    | none => rfl
    | some x =>
      dsimp only
      cases a.next.take? (exactly .newline) with
      | none => rfl
      | some t =>
        dsimp only [Parsed.after]
        cases newlines t.next with
        | error e => rfl
        | ok n =>
          dsimp only
          cases lines item? n.next <;> rfl

theorem unary_eq : unary = (do
    match ← symbol? .minus with
    | some span => do
      let e ← unary
      return .neg e ⟨span.start, ← Rule.here⟩
    | none =>
      match ← int? with
      | some n => return .int n
      | none =>
        match ← ident? with
        | some x => return .var x
        | none => do
          discard <| symbol .lparen
          let e ← expr
          discard <| symbol .rparen
          return e : Rule Index) := by
  funext s
  rw [unary]
  simp only [Bind.bind, Rule.tryTake, Rule.take, symbol?, int?, ident?, symbol, Functor.map,
    Function.comp, discard, Functor.mapConst]
  -- the four tests are made at one cursor, which only the notes of the failed ones change
  cases s.take? (exactly (.symbol .minus)) with
  | some t =>
    dsimp only [Pure.pure, Parsed.after, Option.map, Taken.after]
    cases unary t.next <;> rfl
  | none =>
    dsimp only [Pure.pure, Parsed.after, Option.map, Taken.after]
    simp only [Cursor.take?_miss]
    cases s.take? intValue with
    | some t => rfl
    | none =>
      dsimp only [Option.map]
      simp only [Cursor.take?_miss]
      cases s.take? identName with
      | some t => rfl
      | none =>
        dsimp only [Option.map]
        simp only [Cursor.take?_miss]
        cases s.take? (exactly (.symbol .lparen)) with
        | none => rfl
        | some t =>
          dsimp only [Option.map]
          cases expr t.next with
          | error e => rfl
          | ok a =>
            dsimp only
            cases a.next.take? (exactly (.symbol .rparen)) <;> rfl

theorem products_eq (left : Index) : products left = (do
    match ← Rule.tryTake productOp .something with
    | none => return left
    | some (op, _) => do
      let right ← unary
      products (.binary op left right) : Rule Index) := by
  funext s
  rw [products]
  simp only [Bind.bind, Rule.tryTake]
  cases s.take? productOp with
  | none => rfl
  | some t =>
    dsimp only
    cases unary t.next with
    | error e => rfl
    | ok a =>
      dsimp only
      cases products (.binary t.value left a.value) a.next <;> rfl

theorem term_eq : term = (do
    let left ← unary
    products left : Rule Index) := by
  funext s
  rw [term]
  simp only [Bind.bind]
  cases unary s with
  | error e => rfl
  | ok a =>
    dsimp only
    cases products a.value a.next <;> rfl

theorem sums_eq (left : Index) : sums left = (do
    match ← Rule.tryTake sumOp .something with
    | none => return left
    | some (op, _) => do
      let right ← term
      sums (.binary op left right) : Rule Index) := by
  funext s
  rw [sums]
  simp only [Bind.bind, Rule.tryTake]
  cases s.take? sumOp with
  | none => rfl
  | some t =>
    dsimp only
    cases term t.next with
    | error e => rfl
    | ok a =>
      dsimp only
      cases sums (.binary t.value left a.value) a.next <;> rfl

theorem expr_eq : expr = (do
    let left ← term
    sums left : Rule Index) := by
  funext s
  rw [expr]
  simp only [Bind.bind]
  cases term s with
  | error e => rfl
  | ok a =>
    dsimp only
    cases sums a.value a.next <;> rfl

theorem loop?_eq : loop? = (do
    match ← keyword? .loop with
    | none => return none
    | some span => do
      let head ← loopHead span.start
      let inner ← body
      closeBlock
      return some ({ head with span := ⟨span.start, ← Rule.here⟩ }, inner)
      : Rule (Option (LoopHead × LoopBody))) := by
  funext s
  rw [loop?]
  simp only [Bind.bind, Rule.tryTake, keyword?, Functor.map, Function.comp]
  cases s.take? (exactly (.keyword .loop)) with
  | none => rfl
  | some t =>
    dsimp only [Option.map, Pure.pure, Parsed.after]
    cases loopHead t.span.start t.next with
    | error e => rfl
    | ok h =>
      dsimp only
      cases body h.next with
      | error e => rfl
      | ok b =>
        dsimp only
        cases closeBlock b.next <;> rfl

theorem item?_eq : item? = (do
    match ← loop? with
    | some (head, inner) => return some (Body.loop head inner)
    | none => Option.map Body.access <$> access?
      : Rule (Option (LoopBody → LoopBody))) := by
  funext s
  rw [item?]
  simp only [Bind.bind, Functor.map, Function.comp]
  cases loop? s with
  | error e => rfl
  | ok l =>
    dsimp only
    cases l.value with
    | some p => rfl
    | none =>
      dsimp only
      cases access? l.next <;> rfl

theorem Rule.map_apply (g : α → β) (r : Rule α) (s : Cursor) :
    (g <$> r) s = (r s).map fun a => ⟨g a.value, a.next, a.le⟩ := by
  simp only [Functor.map]
  cases r s <;> rfl

theorem body_eq : body = (Phrase.bodyOf <$> (lines item? : Rule _) : Rule LoopBody) := by
  funext s
  -- by the number of tokens that are left
  induction hn : s.size using Nat.strongRecOn generalizing s with
  | ind n ih =>
    refine Eq.trans ?_ (Rule.map_apply Phrase.bodyOf (lines item?) s).symm
    rw [body, lines.eq_def item? s]
    cases item? s with
    | error e => rfl
    | ok a =>
      dsimp only
      cases a.value with
      | none => rfl
      | some item =>
        dsimp only
        cases a.next.take? (exactly .newline) with
        | none => rfl
        | some t =>
          dsimp only
          cases newlines t.next with
          | error e => rfl
          | ok more =>
            dsimp only
            have hlt : more.next.size < s.size :=
              Nat.lt_of_le_of_lt more.le (Nat.lt_of_lt_of_le t.lt a.le)
            rw [(ih _ (hn ▸ hlt) more.next rfl).trans
              (Rule.map_apply Phrase.bodyOf (lines item?) more.next)]
            cases lines item? more.next <;> rfl

/-! ## Reading a list of tokens -/

/-- Where the last of some tokens ends; `stop` without tokens. -/
def endOf (stop : Nat) (tokens : List Lexeme) : Nat := tokens.foldl (fun _ l => l.span.stop) stop

@[simp] theorem endOf_nil (stop : Nat) : endOf stop [] = stop := rfl

@[simp] theorem endOf_cons (stop : Nat) (l : Lexeme) (ts : List Lexeme) :
    endOf stop (l :: ts) = endOf l.span.stop ts :=
  rfl

@[simp] theorem endOf_append (stop : Nat) (ts us : List Lexeme) :
    endOf stop (ts ++ us) = endOf (endOf stop ts) us :=
  List.foldl_append ..

theorem extent_cons (l : Lexeme) (ts : List Lexeme) :
    Phrase.extent (l :: ts) = ⟨l.span.start, endOf l.span.stop ts⟩ := by
  have hlast : ∀ (ts : List Lexeme) (l : Lexeme),
      ((l :: ts).getLast (by simp)).span.stop = endOf l.span.stop ts := by
    intro ts
    induction ts with
    | nil => intro l; rfl
    | cons t ts ih => intro l; rw [List.getLast_cons (by simp)]; exact ih t
  rw [← hlast, Phrase.extent, tokensSpan, List.head?_cons, List.getLast?_eq_some_getLast (by simp)]

/-- The next token is not wanted, or there is none. -/
def Halts (want : Token → Option α) (rest : List Lexeme) : Prop :=
  ∀ l ∈ rest.head?, want l.token = none

theorem halts_nil (want : Token → Option α) : Halts want [] := by simp [Halts]

theorem halts_cons {want : Token → Option α} {l : Lexeme} {rest : List Lexeme}
    (h : want l.token = none) : Halts want (l :: rest) := by
  simpa [Halts] using h

theorem Halts.take? {want : Token → Option α} {s : Cursor} (h : Halts want s.rest) :
    s.take? want = none := by
  obtain ⟨_ | ⟨l, rest⟩, stop, missed⟩ := s
  · rfl
  · rw [Cursor.take?_cons, h l (by simp), Option.map_none]

theorem Rule.take_eq_ok {want : Token → Option α} {e : Expected} {s : Cursor}
    {p : Parsed s (α × Span)} (h : Rule.take want e s = .ok p) :
    ∃ l rest, s.rest = l :: rest ∧ want l.token = some p.value.1 ∧ l.span = p.value.2 ∧
      p.next = ⟨rest, l.span.stop, []⟩ := by
  obtain ⟨_ | ⟨l, rest⟩, stop, missed⟩ := s
  · cases h
  · simp only [Rule.take, Cursor.take?_cons] at h
    cases hl : want l.token with
    | none =>
      rw [hl] at h
      cases h
    | some a =>
      rw [hl] at h
      cases h
      exact ⟨l, rest, rfl, hl, rfl, rfl⟩

theorem Rule.take_eq_error {want : Token → Option α} {e : Expected} {s : Cursor} {f : Failure}
    (h : Rule.take want e s = .error f) :
    Halts want s.rest ∧ f = ⟨s.rest, (s.miss e).missed⟩ := by
  obtain ⟨_ | ⟨l, rest⟩, stop, missed⟩ := s
  · cases h
    exact ⟨halts_nil want, rfl⟩
  · simp only [Rule.take, Cursor.take?_cons] at h
    cases hl : want l.token with
    | none =>
      rw [hl] at h
      cases h
      exact ⟨halts_cons hl, rfl⟩
    | some a =>
      rw [hl] at h
      cases h

theorem Rule.tryTake_eq_ok {want : Token → Option α} {e : Expected} {s : Cursor}
    {p : Parsed s (Option (α × Span))} (h : Rule.tryTake want e s = .ok p) :
    p.value = none ∧ Halts want s.rest ∧ p.next = s.miss e ∨
      ∃ a l rest, p.value = some (a, l.span) ∧ s.rest = l :: rest ∧ want l.token = some a ∧
        p.next = ⟨rest, l.span.stop, []⟩ := by
  obtain ⟨_ | ⟨l, rest⟩, stop, missed⟩ := s
  · cases h
    exact .inl ⟨rfl, halts_nil want, rfl⟩
  · simp only [Rule.tryTake, Cursor.take?_cons] at h
    cases hl : want l.token with
    | none =>
      rw [hl] at h
      cases h
      exact .inl ⟨rfl, halts_cons hl, rfl⟩
    | some a =>
      rw [hl] at h
      cases h
      exact .inr ⟨a, l, rest, rfl, rfl, hl, rfl⟩

theorem Rule.tryTake_ne_error {want : Token → Option α} {e : Expected} {s : Cursor} {f : Failure} :
    Rule.tryTake want e s ≠ .error f := by
  unfold Rule.tryTake
  split <;> nofun

/-- Before `ts` and then `rest`, and after a token that ends at `stop`, the rule takes `ts`
and gives `a`. -/
def Rule.Reads (r : Rule α) (stop : Nat) (ts : List Lexeme) (a : α) (rest : List Lexeme) : Prop :=
  ∀ s : Cursor, s.rest = ts ++ rest → s.stop = stop →
    ∃ p : Parsed s α, r s = .ok p ∧ p.value = a ∧ p.next.rest = rest ∧ p.next.stop = endOf stop ts

namespace Rule.Reads

variable {r : Rule α} {f : α → Rule β} {stop : Nat} {ts us rest : List Lexeme} {a : α} {b : β}

theorem pure : Rule.Reads (Pure.pure a) stop [] a rest :=
  fun s hrest hstop => ⟨⟨a, s, Nat.le_refl _⟩, rfl, rfl, hrest, hstop⟩

theorem pure_eq {a' : α} (h : a' = a) : Rule.Reads (Pure.pure a') stop [] a rest :=
  h ▸ pure

theorem here : Rule.here.Reads stop [] stop rest :=
  fun s hrest hstop => ⟨⟨s.stop, s, Nat.le_refl _⟩, rfl, hstop, hrest, hstop⟩

theorem take {want : Token → Option α} {l : Lexeme} (h : want l.token = some a) (e : Expected) :
    (Rule.take want e).Reads stop [l] (a, l.span) rest := by
  rintro ⟨_, _, missed⟩ rfl rfl
  refine ⟨⟨(a, l.span), ⟨rest, l.span.stop, []⟩, Nat.le_succ _⟩, ?_, rfl, rfl, rfl⟩
  simp only [Rule.take, List.cons_append, List.nil_append, Cursor.take?_cons, h, Option.map_some]

theorem tryTake {want : Token → Option α} {l : Lexeme} (h : want l.token = some a)
    (e : Expected) : (Rule.tryTake want e).Reads stop [l] (some (a, l.span)) rest := by
  rintro ⟨_, _, missed⟩ rfl rfl
  refine ⟨⟨some (a, l.span), ⟨rest, l.span.stop, []⟩, Nat.le_succ _⟩, ?_, rfl, rfl, rfl⟩
  simp only [Rule.tryTake, List.cons_append, List.nil_append, Cursor.take?_cons, h,
    Option.map_some]

theorem tryTake_none {want : Token → Option α} (h : Halts want rest) (e : Expected) :
    (Rule.tryTake want e).Reads stop [] none rest := by
  intro s hrest hstop
  refine ⟨⟨none, s.miss e, Nat.le_refl _⟩, ?_, rfl, hrest, hstop⟩
  have hnone : s.take? want = none := Halts.take? (by rwa [hrest])
  simp only [Rule.tryTake, hnone]

theorem bind (hr : r.Reads stop ts a (us ++ rest))
    (hf : (f a).Reads (endOf stop ts) us b rest) : (r >>= f).Reads stop (ts ++ us) b rest := by
  intro s hrest hstop
  rw [List.append_assoc] at hrest
  obtain ⟨p, hp, rfl, hnext, hend⟩ := hr s hrest hstop
  obtain ⟨q, hq, hvalue, hnext', hend'⟩ := hf p.next hnext hend
  refine ⟨p.after q, ?_, hvalue, hnext', ?_⟩
  · simp only [Bind.bind, hp, hq]
  · rw [endOf_append]
    exact hend'

/-- A token, and what follows it. -/
theorem token {l : Lexeme} (hr : r.Reads stop [l] a (us ++ rest))
    (hf : (f a).Reads l.span.stop us b rest) : (r >>= f).Reads stop (l :: us) b rest :=
  bind hr hf

/-- Nothing, and what follows. -/
theorem skip (hr : r.Reads stop [] a (us ++ rest)) (hf : (f a).Reads stop us b rest) :
    (r >>= f).Reads stop us b rest :=
  bind hr hf

/-- A phrase, and nothing after it. -/
theorem last (hr : r.Reads stop ts a rest) (hf : (f a).Reads (endOf stop ts) [] b rest) :
    (r >>= f).Reads stop ts b rest := by
  have h : (r >>= f).Reads stop (ts ++ []) b rest := bind hr hf
  rwa [List.append_nil] at h

theorem map {g : α → β} (h : r.Reads stop ts a rest) : (g <$> r).Reads stop ts (g a) rest :=
  last (f := Pure.pure ∘ g) h pure

theorem discard (h : r.Reads stop ts a rest) : (discard r).Reads stop ts PUnit.unit rest :=
  map (g := Function.const α PUnit.unit) h

theorem keyword (k : Keyword) (span : Span) :
    (Source.keyword k).Reads stop [k.lexeme span] span rest :=
  map (take (a := ()) (by simp [exactly, Keyword.lexeme]) _)

theorem keyword? (k : Keyword) (span : Span) :
    (Source.keyword? k).Reads stop [k.lexeme span] (some span) rest :=
  map (tryTake (a := ()) (by simp [exactly, Keyword.lexeme]) _)

theorem keyword?_none {k : Keyword} (h : Halts (exactly (.keyword k)) rest) :
    (Source.keyword? k).Reads stop [] none rest :=
  map (tryTake_none h _)

theorem mark (y : Symbol) (span : Span) :
    (Functor.discard (Source.symbol y)).Reads stop [y.lexeme span] PUnit.unit rest :=
  discard (map (a := ((), span)) (take (by simp [exactly, Symbol.lexeme]) _))

theorem symbol? (y : Symbol) (span : Span) :
    (Source.symbol? y).Reads stop [y.lexeme span] (some span) rest :=
  map (tryTake (a := ()) (by simp [exactly, Symbol.lexeme]) _)

theorem symbol?_none {y : Symbol} (h : Halts (exactly (.symbol y)) rest) :
    (Source.symbol? y).Reads stop [] none rest :=
  map (tryTake_none h _)

theorem ident (x : Ident) : Source.ident.Reads stop [x.lexeme] x rest :=
  map (take (l := x.lexeme) (a := x.name) rfl _)

theorem ident? (x : Ident) : Source.ident?.Reads stop [x.lexeme] (some x) rest :=
  map (tryTake (l := x.lexeme) (a := x.name) rfl _)

theorem ident?_none (h : Halts identName rest) : Source.ident?.Reads stop [] none rest :=
  map (tryTake_none h _)

theorem int (n : Number) : Source.int.Reads stop [n.lexeme] n rest :=
  map (take (l := n.lexeme) (a := n.value) rfl _)

theorem int? (n : Number) : Source.int?.Reads stop [n.lexeme] (some n) rest :=
  map (tryTake (l := n.lexeme) (a := n.value) rfl _)

theorem int?_none (h : Halts intValue rest) : Source.int?.Reads stop [] none rest :=
  map (tryTake_none h _)

end Rule.Reads

end Bankflow.Source
