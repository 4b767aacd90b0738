import Bankflow.Source.SyntaxError
import Bankflow.Source.Tree

/-!
# Reading tokens

A `Rule` reads from a cursor over the tokens and either gives a value and the
cursor after it, or fails. Rules look one token ahead and never go back, and a
rule that takes nothing leaves a note of what it would have taken. So a failure
is at the first token that fits nowhere, with everything that was tried there,
in the order in which it was tried.

A rule returns its result with a proof that no tokens were added, and taking a
token one that a token is gone (`Taken.lt`); recursive rules end by these.
-/

namespace Bankflow.Source

structure Cursor where
  /-- The tokens that are left. -/
  rest : List Lexeme
  /-- Where the last token that was taken ends. -/
  stop : Nat
  /-- What was tried and not found at the next token, in this order. -/
  missed : List Expected
  deriving DecidableEq, Repr

/-- Where reading failed, and what was tried there. -/
structure Failure where
  rest : List Lexeme
  expected : List Expected
  deriving DecidableEq, Repr

namespace Cursor

/-- The number of tokens left. -/
def size (s : Cursor) : Nat := s.rest.length

/-- The cursor with a note that `e` was not found. -/
def miss (s : Cursor) (e : Expected) : Cursor :=
  { s with missed := if e ∈ s.missed then s.missed else s.missed ++ [e] }

@[simp] theorem size_miss (s : Cursor) (e : Expected) : (s.miss e).size = s.size := rfl

@[simp] theorem rest_miss (s : Cursor) (e : Expected) : (s.miss e).rest = s.rest := rfl

@[simp] theorem stop_miss (s : Cursor) (e : Expected) : (s.miss e).stop = s.stop := rfl

end Cursor

/-- A token taken at `s`, as what it was taken for. -/
structure Taken (s : Cursor) (α : Type) where
  value : α
  span : Span
  next : Cursor
  lt : next.size < s.size

/-- The next token, if it is one that `want` accepts. -/
def Cursor.take? {α : Type} (s : Cursor) (want : Token → Option α) : Option (Taken s α) :=
  match h : s.rest with
  | [] => none
  | l :: rest =>
    match want l.token with
    | some a => some ⟨a, l.span, ⟨rest, l.span.stop, []⟩, by simp [size, h]⟩
    | none => none

/-- What a rule read from `s`, and the cursor after it. -/
structure Parsed (s : Cursor) (α : Type) where
  value : α
  next : Cursor
  le : next.size ≤ s.size

namespace Parsed

variable {s : Cursor} {α β : Type}

/-- A result after another one, seen from where the first began. -/
def after (a : Parsed s α) (b : Parsed a.next β) : Parsed s β :=
  ⟨b.value, b.next, Nat.le_trans b.le a.le⟩

end Parsed

/-- A result after a token, seen from the token. -/
def Taken.after {s : Cursor} {α β : Type} (t : Taken s α) (b : Parsed t.next β) : Parsed s β :=
  ⟨b.value, b.next, Nat.le_trans b.le (Nat.le_of_lt t.lt)⟩

/-- A way to read an `α`. -/
def Rule (α : Type) : Type := (s : Cursor) → Except Failure (Parsed s α)

namespace Rule

variable {α β : Type}

instance : Monad Rule where
  pure a := fun s => .ok ⟨a, s, Nat.le_refl _⟩
  bind r f := fun s =>
    match r s with
    | .error e => .error e
    | .ok a =>
      match f a.value a.next with
      | .error e => .error e
      | .ok b => .ok (a.after b)

instance : LawfulMonad Rule :=
  LawfulMonad.mk' Rule
    (fun r => by
      funext s
      simp only [Functor.map]
      cases r s <;> rfl)
    (fun a f => by
      funext s
      simp only [Bind.bind, Pure.pure]
      cases f a s <;> rfl)
    (fun r f g => by
      funext s
      simp only [Bind.bind]
      cases r s with
      | error e => rfl
      | ok a =>
        dsimp only [Parsed.after]
        cases f a.value a.next with
        | error e => rfl
        | ok b =>
          dsimp only
          cases g b.value b.next <;> rfl)

theorem bind_eq_ok {r : Rule α} {f : α → Rule β} {s : Cursor} {c : Parsed s β}
    (h : (r >>= f) s = .ok c) :
    ∃ a b, r s = .ok a ∧ f a.value a.next = .ok b ∧ c = a.after b := by
  simp only [Bind.bind] at h
  split at h
  · cases h
  · next a ha =>
    split at h
    · cases h
    · next b hb =>
      cases h
      exact ⟨a, b, ha, hb, rfl⟩

theorem bind_eq_error {r : Rule α} {f : α → Rule β} {s : Cursor} {e : Failure}
    (h : (r >>= f) s = .error e) :
    r s = .error e ∨ ∃ a, r s = .ok a ∧ f a.value a.next = .error e := by
  simp only [Bind.bind] at h
  split at h
  · next hr =>
    cases h
    exact .inl hr
  · next a ha =>
    split at h
    · next hf =>
      cases h
      exact .inr ⟨a, ha, hf⟩
    · cases h

/-- Takes a token that `want` accepts and fails on any other. -/
def take (want : Token → Option α) (e : Expected) : Rule (α × Span) := fun s =>
  match s.take? want with
  | some t => .ok ⟨(t.value, t.span), t.next, Nat.le_of_lt t.lt⟩
  | none => .error ⟨s.rest, (s.miss e).missed⟩

/-- Takes a token that `want` accepts and stays before any other. -/
def tryTake (want : Token → Option α) (e : Expected) : Rule (Option (α × Span)) := fun s =>
  match s.take? want with
  | some t => .ok ⟨some (t.value, t.span), t.next, Nat.le_of_lt t.lt⟩
  | none => .ok ⟨none, s.miss e, Nat.le_refl _⟩

/-- Where the last token that was taken ends. -/
def here : Rule Nat := fun s => .ok ⟨s.stop, s, Nat.le_refl _⟩

end Rule

/-! ## Single tokens -/

/-- Accepts exactly one token. -/
def exactly (t : Token) (u : Token) : Option Unit := if u = t then some () else none

def identName : Token → Option String
  | .ident name => some name
  | _ => none

def intValue : Token → Option Int64
  | .int v => some v
  | _ => none

/-- A keyword, and where it starts. -/
def keyword (k : Keyword) : Rule Span :=
  (·.2) <$> Rule.take (exactly (.keyword k)) (.keyword k)

def symbol (y : Symbol) : Rule Span :=
  (·.2) <$> Rule.take (exactly (.symbol y)) (.symbol y)

def keyword? (k : Keyword) : Rule (Option Span) :=
  Option.map (·.2) <$> Rule.tryTake (exactly (.keyword k)) (.keyword k)

def symbol? (y : Symbol) : Rule (Option Span) :=
  Option.map (·.2) <$> Rule.tryTake (exactly (.symbol y)) (.symbol y)

def ident : Rule Ident := (fun (name, span) => ⟨name, span⟩) <$> Rule.take identName .ident

def ident? : Rule (Option Ident) :=
  Option.map (fun (name, span) => ⟨name, span⟩) <$> Rule.tryTake identName .ident

def int : Rule Number := (fun (v, span) => ⟨v, span⟩) <$> Rule.take intValue .something

def int? : Rule (Option Number) :=
  Option.map (fun (v, span) => ⟨v, span⟩) <$> Rule.tryTake intValue .something

/-! ## Lists -/

/-- Any number of newlines. -/
def newlines (s : Cursor) : Except Failure (Parsed s Unit) :=
  match s.take? (exactly .newline) with
  | none => .ok ⟨(), s.miss .newline, Nat.le_refl _⟩
  | some t =>
    match newlines t.next with
    | .error e => .error e
    | .ok r => .ok (t.after r)
termination_by s.size
decreasing_by exact t.lt

/-- More items, each after a comma. -/
def moreItems {α : Type} (item : Rule α) (s : Cursor) : Except Failure (Parsed s (List α)) :=
  match s.take? (exactly (.symbol .comma)) with
  | none => .ok ⟨[], s.miss (.symbol .comma), Nat.le_refl _⟩
  | some t =>
    match item t.next with
    | .error e => .error e
    | .ok a =>
      match moreItems item a.next with
      | .error e => .error e
      | .ok r => .ok (t.after (a.after ⟨a.value :: r.value, r.next, r.le⟩))
termination_by s.size
decreasing_by exact Nat.lt_of_le_of_lt a.le t.lt

/-- One item or more, with commas between them. -/
def commaList {α : Type} (item : Rule α) : Rule (List α) := do
  let first ← item
  let rest ← moreItems item
  return first :: rest

/-- Items on lines of their own, as long as `item?` finds one. -/
def lines {α : Type} (item? : Rule (Option α)) (s : Cursor) :
    Except Failure (Parsed s (List α)) :=
  match item? s with
  | .error e => .error e
  | .ok a =>
    match a.value with
    | none => .ok ⟨[], a.next, a.le⟩
    | some x =>
      match a.next.take? (exactly .newline) with
      | none => .ok ⟨[x], a.next.miss .newline, a.le⟩
      | some t =>
        match newlines t.next with
        | .error e => .error e
        | .ok n =>
          match lines item? n.next with
          | .error e => .error e
          | .ok r => .ok (a.after (t.after (n.after ⟨x :: r.value, r.next, r.le⟩)))
termination_by s.size
decreasing_by exact Nat.lt_of_le_of_lt n.le (Nat.lt_of_lt_of_le t.lt a.le)

end Bankflow.Source
