import Bankflow.Proofs.Source.Grammar

/-!
# Reading with rewinding

The grammar once more, as forms that are read without any look ahead. What cannot be read is
undone: an optional or a repeated part that fails is left out, however many tokens it took, and
of two alternatives the second is tried where the first began (`Form.Runs`). A failure is
known by the tests that failed at the furthest token, in the order in which they were made
(`Failure.note`), no matter which form failed in the end.

A form is read in one way at most (`Runs.deterministic`). Tests that are made a second time
tell nothing new (`Runs.again`).
-/

namespace Bankflow.Source

/-- Where reading is. -/
structure Place where
  /-- The tokens that are left. -/
  rest : List Lexeme
  /-- Where the last token that was taken ends. -/
  stop : Nat

/-! ## The furthest failure -/

namespace Failure

/-- The failed tests at the furthest token after one more, for `e` at the first of `rest`. -/
def note (f : Failure) (rest : List Lexeme) (e : Expected) : Failure :=
  if rest.length < f.rest.length then ⟨rest, [e]⟩
  else if rest.length = f.rest.length then
    { f with expected := if e ∈ f.expected then f.expected else f.expected ++ [e] }
  else f

/-- All that `f` tells is told by `g`, or `g` is further. -/
def Below (f g : Failure) : Prop :=
  g.rest.length < f.rest.length ∨ g.rest = f.rest ∧ ∀ e ∈ f.expected, e ∈ g.expected

variable {f g h : Failure} {rest : List Lexeme} {e : Expected}

theorem Below.refl (f : Failure) : f.Below f := .inr ⟨rfl, fun _ h => h⟩

theorem Below.trans (hfg : f.Below g) (hgh : g.Below h) : f.Below h := by
  rcases hfg with hfg | ⟨hfg, hexpected⟩
  · rcases hgh with hgh | ⟨hgh, -⟩
    · exact .inl (Nat.lt_trans hgh hfg)
    · exact .inl (hgh ▸ hfg)
  · rcases hgh with hgh | ⟨hgh, hexpected'⟩
    · exact .inl (hfg ▸ hgh)
    · exact .inr ⟨hgh.trans hfg, fun e he => hexpected' e (hexpected e he)⟩

theorem below_note : f.Below (f.note rest e) := by
  unfold note
  split
  · next hlt => exact .inl hlt
  · split
    · refine .inr ⟨rfl, fun e' he' => ?_⟩
      dsimp only
      split
      · exact he'
      · exact List.mem_append_left _ he'
    · exact .refl f

/-- A test before the furthest token is of no interest. -/
theorem note_of_lt (h : f.rest.length < rest.length) : f.note rest e = f := by
  rw [note, if_neg (Nat.lt_asymm h), if_neg (Nat.ne_of_gt h)]

theorem note_of_mem (hrest : f.rest.length = rest.length) (he : e ∈ f.expected) :
    f.note rest e = f := by
  rw [note, if_neg (Nat.lt_irrefl _ <| hrest ▸ ·), if_pos hrest.symm, if_pos he]

/-- A test that was made is not made anew. -/
theorem note_of_below (h : (f.note rest e).Below g) : g.note rest e = g := by
  have hnoted : (f.note rest e).rest.length < rest.length ∨
      (f.note rest e).rest.length = rest.length ∧ e ∈ (f.note rest e).expected := by
    unfold note
    split
    · exact .inr ⟨rfl, List.mem_singleton_self e⟩
    · split
      · next heq =>
        refine .inr ⟨heq.symm, ?_⟩
        dsimp only
        split
        · assumption
        · exact List.mem_append_right _ (List.mem_singleton_self e)
      · exact .inl (by omega)
  rcases h with hlt | ⟨hrest, hexpected⟩
  · exact note_of_lt (by omega)
  · rcases hnoted with hlt | ⟨hlength, he⟩
    · exact note_of_lt (hrest ▸ hlt)
    · exact note_of_mem (hrest ▸ hlength) (hexpected e he)

end Failure

/-! ## Forms -/

/-- The forms that others refer to, with what they give. -/
inductive Name : Type → Type where
  | unary : Name Index
  | expr : Name Index
  | loop : Name (LoopHead × LoopBody)

inductive Form : Type → Type 1 where
  /-- A token that `want` accepts. -/
  | take {α : Type} (want : Lexeme → Option α) (e : Expected) : Form α
  /-- The end of the tokens. -/
  | finish {α : Type} (a : α) : Form α
  | pure {α : Type} (a : α) : Form α
  /-- Where the last token that was taken ends. -/
  | here : Form Nat
  | bind {α β : Type} (p : Form α) (k : α → Form β) : Form β
  | choice {α : Type} (p q : Form α) : Form α
  /-- As many times as it can be read. -/
  | many {α β : Type} (p : Form α) (k : List α → β) : Form β
  | call {α : Type} (n : Name α) : Form α

namespace Form

variable {α β : Type}

instance : Monad Form where
  pure := Form.pure
  bind := Form.bind

/-- A form, or `a` in its place. -/
def orElse (p : Form α) (a : α) : Form α := .choice p (pure a)

def opt (p : Form α) : Form (Option α) := orElse (some <$> p) none

/-! ### Tokens and lists -/

def test (want : Token → Option α) (e : Expected) : Form (α × Span) :=
  .take (fun l => (want l.token).map fun a => (a, l.span)) e

def keyword (k : Keyword) : Form Span := (·.2) <$> test (exactly (.keyword k)) (.keyword k)

def symbol (y : Symbol) : Form Span := (·.2) <$> test (exactly (.symbol y)) (.symbol y)

def ident : Form Ident := (fun x => ⟨x.1, x.2⟩) <$> test identName .ident

def int : Form Number := (fun x => ⟨x.1, x.2⟩) <$> test intValue .something

def newline : Form (Unit × Span) := test (exactly .newline) .newline

def newlines : Form Unit := .many newline fun _ => ()

/-- One newline or more. -/
def lineBreak : Form Unit := do
  let _ ← newline
  newlines

/-- Items that each come after a comma. -/
def moreItems (item : Form α) : Form (List α) :=
  .many (do let _ ← symbol .comma; item) id

def commaList (item : Form α) : Form (List α) := do
  let first ← item
  let rest ← moreItems item
  return first :: rest

/-- Items that each come after a line break, and perhaps a line break after the last. -/
def moreLines (item : Form α) : Form (List α) := do
  let rest ← .many (do lineBreak; item) id
  let _ ← opt lineBreak
  return rest

def lines (item : Form α) : Form (List α) :=
  .orElse (do
    let first ← item
    let rest ← moreLines item
    return first :: rest) []

/-! ### Index expressions -/

/-- Operands that each come after an operator, from left to right. -/
def operands (op : Token → Option IndexOp) (operand : Form Index) (left : Index) : Form Index :=
  .many (do
    let sign ← test op .something
    let right ← operand
    return (sign.1, right)) fun more => more.foldl (fun left x => .binary x.1 left x.2) left

def unary : Form Index :=
  .choice
    (do
      let minus ← symbol .minus
      let e ← .call .unary
      return .neg e ⟨minus.start, ← .here⟩)
    (.choice (.int <$> int) (.choice (.var <$> ident)
      (do
        let _ ← symbol .lparen
        let e ← .call .expr
        let _ ← symbol .rparen
        return e)))

def term : Form Index := do
  let left ← .call .unary
  operands productOp (.call .unary) left

def expr : Form Index := do
  let left ← term
  operands sumOp term left

/-! ### Loops -/

def signed : Form Int64 := do
  let minus ← opt (symbol .minus)
  let n ← int
  return if minus.isSome then -n.value else n.value

def openBlock : Form Unit := do
  let _ ← symbol .lbrace
  newlines

def closeBlock : Form Unit := do
  newlines
  let _ ← symbol .rbrace
  return ()

def loopHead (start : Nat) : Form LoopHead := do
  let var ← ident
  let _ ← symbol .equals
  let lower ← signed
  let _ ← keyword .upTo
  let upper ← signed
  let step ← .orElse (do let _ ← keyword .step; some <$> int) none
  let pipeline ← opt (keyword .pipeline)
  openBlock
  return ⟨var, lower, upper, step, pipeline.isSome, ⟨start, start⟩⟩

def access : Form Access := do
  let key ← .choice ((.read, ·) <$> keyword .read) ((.write, ·) <$> keyword .write)
  let array ← ident
  let _ ← symbol .lbracket
  let indices ← commaList (.call .expr)
  let _ ← symbol .rbracket
  return ⟨key.1, array, indices, ⟨key.2.start, ← .here⟩⟩

/-- An item of a body, put before the rest of it. -/
def item : Form (LoopBody → LoopBody) :=
  .choice ((fun l => .loop l.1 l.2) <$> .call .loop) (.access <$> access)

def loop : Form (LoopHead × LoopBody) := do
  let span ← keyword .loop
  let head ← loopHead span.start
  let items ← lines item
  closeBlock
  let stop ← .here
  return ({ head with span := ⟨span.start, stop⟩ }, Phrase.bodyOf items)

/-! ### Statements -/

def setting : Form Statement := do
  let span ← keyword .set
  let name ← ident
  let _ ← symbol .equals
  let value : SettingValue ← .choice (.int <$> int) (.ident <$> ident)
  return ⟨.setting name value, ⟨span.start, ← .here⟩⟩

def array : Form Statement := do
  let span ← keyword .array
  let name ← ident
  let _ ← symbol .lbracket
  let shape ← commaList int
  let _ ← symbol .rbracket
  let _ ← symbol .colon
  let elementType ← ident
  let memorySpace ← .orElse (do let _ ← symbol .atSign; some <$> int) none
  return ⟨.array ⟨name, shape, elementType, memorySpace⟩, ⟨span.start, ← .here⟩⟩

def names : Form (List Ident) := do
  let _ ← symbol .lparen
  let all ← .orElse (commaList ident) []
  let _ ← symbol .rparen
  return all

def node : Form Node := do
  let span ← keyword .node
  let name ← ident
  let inputs ← names
  let outputs ← .orElse (do let _ ← symbol .arrow; names) []
  return ⟨name, inputs, outputs, ⟨span.start, ← .here⟩⟩

def region : Form Statement := do
  let span ← keyword .region
  let name ← ident
  openBlock
  let nodes ← lines node
  closeBlock
  return ⟨.region name nodes, ⟨span.start, ← .here⟩⟩

def statement : Form Statement :=
  .choice setting (.choice array (.choice
    ((fun l => ⟨.loop l.1 l.2, l.1.span⟩) <$> .call .loop) region))

def statements : Form (List Statement) := do
  newlines
  let all ← lines statement
  newlines
  .finish all

end Form

def Name.form {α : Type} : Name α → Form α
  | unary => .unary
  | expr => .expr
  | loop => .loop

/-! ## Reading -/

/-- How a form is read at a place: what it gives and where that ends, or that it fails, with
the furthest failure before and after. -/
inductive Form.Runs :
    {α : Type} → Form α → Place → Failure → Option (α × Place) → Failure → Prop where
  | take {α : Type} {want : Lexeme → Option α} {e : Expected} {l : Lexeme} {a : α}
      {rest : List Lexeme} {stop : Nat} {f : Failure} (h : want l = some a) :
      Runs (.take want e) ⟨l :: rest, stop⟩ f (some (a, ⟨rest, l.span.stop⟩)) f
  | miss {α : Type} {want : Lexeme → Option α} {e : Expected} {s : Place} {f : Failure}
      (h : ∀ l ∈ s.rest.head?, want l = none) :
      Runs (.take want e) s f none (f.note s.rest e)
  | finish {α : Type} {a : α} {stop : Nat} {f : Failure} :
      Runs (.finish a) ⟨[], stop⟩ f (some (a, ⟨[], stop⟩)) f
  | unfinished {α : Type} {a : α} {s : Place} {f : Failure} (h : s.rest ≠ []) :
      Runs (.finish a) s f none (f.note s.rest .endOfInput)
  | pure {α : Type} {a : α} {s : Place} {f : Failure} : Runs (.pure a) s f (some (a, s)) f
  | here {s : Place} {f : Failure} : Runs .here s f (some (s.stop, s)) f
  | bind {α β : Type} {p : Form α} {k : α → Form β} {s t : Place} {f g h : Failure} {a : α}
      {o : Option (β × Place)} (hp : Runs p s f (some (a, t)) g) (hk : Runs (k a) t g o h) :
      Runs (.bind p k) s f o h
  | fail {α β : Type} {p : Form α} {k : α → Form β} {s : Place} {f g : Failure}
      (hp : Runs p s f none g) : Runs (.bind p k) s f none g
  | left {α : Type} {p q : Form α} {s : Place} {f g : Failure} {x : α × Place}
      (hp : Runs p s f (some x) g) : Runs (.choice p q) s f (some x) g
  /-- The second alternative starts where the first one did. -/
  | right {α : Type} {p q : Form α} {s : Place} {f g h : Failure} {o : Option (α × Place)}
      (hp : Runs p s f none g) (hq : Runs q s g o h) : Runs (.choice p q) s f o h
  | more {α β : Type} {p : Form α} {k : List α → β} {s t : Place} {f g h : Failure} {a : α}
      {o : Option (β × Place)} (hp : Runs p s f (some (a, t)) g)
      (hmany : Runs (.many p fun as => k (a :: as)) t g o h) : Runs (.many p k) s f o h
  /-- What the last try took is given back. -/
  | enough {α β : Type} {p : Form α} {k : List α → β} {s : Place} {f g : Failure}
      (hp : Runs p s f none g) : Runs (.many p k) s f (some (k [], s)) g
  | call {α : Type} {n : Name α} {s : Place} {f g : Failure} {o : Option (α × Place)}
      (h : Runs n.form s f o g) : Runs (.call n) s f o g

namespace Form.Runs

variable {α β γ : Type} {p q : Form α} {k : α → Form β} {s t : Place} {f g h : Failure}
  {o : Option (α × Place)}

theorem deterministic (hr : p.Runs s f o g) :
    ∀ {o' : Option (α × Place)} {g' : Failure}, p.Runs s f o' g' → o = o' ∧ g = g' := by
  induction hr with
  | take h =>
    intro o' g' hr'
    cases hr' with
    | take h' => exact ⟨by rw [Option.some.inj (h.symm.trans h')], rfl⟩
    | miss h' => cases h.symm.trans (h' _ rfl)
  | miss h =>
    intro o' g' hr'
    cases hr' with
    | take h' => cases h'.symm.trans (h _ rfl)
    | miss => exact ⟨rfl, rfl⟩
  | finish =>
    intro o' g' hr'
    cases hr' with
    | finish => exact ⟨rfl, rfl⟩
    | unfinished h' => exact absurd rfl h'
  | unfinished h =>
    intro o' g' hr'
    cases hr' with
    | finish => exact absurd rfl h
    | unfinished => exact ⟨rfl, rfl⟩
  | pure =>
    intro o' g' hr'
    cases hr'
    exact ⟨rfl, rfl⟩
  | here =>
    intro o' g' hr'
    cases hr'
    exact ⟨rfl, rfl⟩
  | bind _ _ ihp ihk =>
    intro o' g' hr'
    cases hr' with
    | bind hp' hk' =>
      obtain ⟨heq, rfl⟩ := ihp hp'
      cases heq
      exact ihk hk'
    | fail hp' => cases (ihp hp').1
  | fail _ ihp =>
    intro o' g' hr'
    cases hr' with
    | bind hp' => cases (ihp hp').1
    | fail hp' => exact ⟨rfl, (ihp hp').2⟩
  | left _ ihp =>
    intro o' g' hr'
    cases hr' with
    | left hp' => exact ihp hp'
    | right hp' => cases (ihp hp').1
  | right _ _ ihp ihq =>
    intro o' g' hr'
    cases hr' with
    | left hp' => cases (ihp hp').1
    | right hp' hq' =>
      obtain ⟨-, rfl⟩ := ihp hp'
      exact ihq hq'
  | more _ _ ihp ihmany =>
    intro o' g' hr'
    cases hr' with
    | more hp' hmany' =>
      obtain ⟨heq, rfl⟩ := ihp hp'
      cases heq
      exact ihmany hmany'
    | enough hp' => cases (ihp hp').1
  | enough _ ihp =>
    intro o' g' hr'
    cases hr' with
    | more hp' => cases (ihp hp').1
    | enough hp' => exact ⟨rfl, (ihp hp').2⟩
  | call _ ih =>
    intro o' g' hr'
    cases hr' with
    | call h' => exact ih h'

/-- What is known of failures does not get lost. -/
theorem keeps (hr : p.Runs s f o g) : f.Below g := by
  induction hr with
  | take => exact .refl _
  | miss => exact Failure.below_note
  | finish => exact .refl _
  | unfinished => exact Failure.below_note
  | pure => exact .refl _
  | here => exact .refl _
  | bind _ _ ihp ihk => exact ihp.trans ihk
  | fail _ ihp => exact ihp
  | left _ ihp => exact ihp
  | right _ _ ihp ihq => exact ihp.trans ihq
  | more _ _ ihp ihmany => exact ihp.trans ihmany
  | enough _ ihp => exact ihp
  | call _ ih => exact ih

/-- Read again at the same place, a form does the same and tells nothing new. -/
theorem again (hr : p.Runs s f o g) : ∀ {h : Failure}, g.Below h → p.Runs s h o h := by
  induction hr with
  | take hwant => exact fun _ => .take hwant
  | miss hwant =>
    intro h hbelow
    exact (Failure.note_of_below hbelow).subst (motive := Runs _ _ h none) (.miss hwant)
  | finish => exact fun _ => .finish
  | unfinished hrest =>
    intro h hbelow
    exact (Failure.note_of_below hbelow).subst (motive := Runs _ _ h none) (.unfinished hrest)
  | pure => exact fun _ => .pure
  | here => exact fun _ => .here
  | bind _ hk ihp ihk => exact fun hbelow => .bind (ihp (hk.keeps.trans hbelow)) (ihk hbelow)
  | fail _ ihp => exact fun hbelow => .fail (ihp hbelow)
  | left _ ihp => exact fun hbelow => .left (ihp hbelow)
  | right _ hq ihp ihq => exact fun hbelow => .right (ihp (hq.keeps.trans hbelow)) (ihq hbelow)
  | more _ hmany ihp ihmany =>
    exact fun hbelow => .more (ihp (hmany.keeps.trans hbelow)) (ihmany hbelow)
  | enough _ ihp => exact fun hbelow => .enough (ihp hbelow)
  | call _ ih => exact fun hbelow => .call (ih hbelow)

/-! ### How a form was read -/

theorem of_bind {o : Option (β × Place)} (hr : (p >>= k).Runs s f o g) :
    (∃ a t h, p.Runs s f (some (a, t)) h ∧ (k a).Runs t h o g) ∨ o = none ∧ p.Runs s f none g := by
  cases hr with
  | bind hp hk => exact .inl ⟨_, _, _, hp, hk⟩
  | fail hp => exact .inr ⟨rfl, hp⟩

theorem of_map {m : α → β} {o : Option (β × Place)} (hr : (m <$> p).Runs s f o g) :
    ∃ o', p.Runs s f o' g ∧ o = o'.map fun x => (m x.1, x.2) := by
  rcases of_bind (k := Pure.pure ∘ m) hr with ⟨a, t, h, hp, hpure⟩ | ⟨rfl, hp⟩
  · cases hpure
    exact ⟨_, hp, rfl⟩
  · exact ⟨none, hp, rfl⟩

theorem of_orElse {a : α} (hr : (p.orElse a).Runs s f o g) :
    (∃ x, o = some x ∧ p.Runs s f (some x) g) ∨ o = some (a, s) ∧ p.Runs s f none g := by
  cases hr with
  | left hp => exact .inl ⟨_, rfl, hp⟩
  | right hp hpure =>
    cases hpure
    exact .inr ⟨rfl, hp⟩

theorem ne_none_of_eq_many (hr : p.Runs s f o g) :
    ∀ {q : Form γ} {k : List γ → α}, p = .many q k → o ≠ none := by
  induction hr with
  | more _ _ _ ih =>
    intro q k heq
    cases heq
    exact ih rfl
  | enough => exact fun _ => Option.some_ne_none _
  | _ => nofun

/-! ### Forms that are put together in another way -/

theorem map {m : α → β} {a : α} (hr : p.Runs s f (some (a, t)) g) :
    (m <$> p).Runs s f (some (m a, t)) g :=
  .bind hr .pure

/-- A part that is read any number of times is read once, and then again, or not at all. -/
theorem many {k : List α → β} {o : Option (β × Place)}
    (hr : (Form.orElse (p >>= fun a => .many p fun as => k (a :: as)) (k [])).Runs s f o g) :
    (Form.many p k).Runs s f o g := by
  rcases of_orElse hr with ⟨x, rfl, hmore⟩ | ⟨rfl, hnone⟩
  · rcases of_bind hmore with ⟨a, t, h, hp, hmany⟩ | ⟨hx, -⟩
    · exact .more hp hmany
    · cases hx
  · rcases of_bind hnone with ⟨a, t, h, -, hmany⟩ | ⟨-, hp⟩
    · exact absurd rfl (hmany.ne_none_of_eq_many rfl)
    · exact .enough hp

theorem many_map {q : Form γ} {k : List γ → α} {m : α → β} {o : Option (β × Place)}
    (hr : (m <$> Form.many q k).Runs s f o g) :
    (Form.many q fun as => m (k as)).Runs s f o g := by
  obtain ⟨o, hmany, rfl⟩ := of_map hr
  clear hr
  generalize hp : Form.many q k = p at hmany
  induction hmany with
  | more hstep _ _ ih =>
    cases hp
    exact .more hstep (ih rfl)
  | enough hstep =>
    cases hp
    exact .enough hstep
  | _ => cases hp

/-! ### Tokens and lines -/

theorem test {want : Token → Option α} {e : Expected} {l : Lexeme} {rest : List Lexeme}
    {stop : Nat} {a : α} (h : want l.token = some a) : (Form.test want e).Runs ⟨l :: rest, stop⟩ f
      (some ((a, l.span), ⟨rest, l.span.stop⟩)) f :=
  .take (by rw [h, Option.map_some])

theorem test_miss {want : Token → Option α} {e : Expected}
    (h : ∀ l ∈ s.rest.head?, want l.token = none) :
    (Form.test want e).Runs s f none (f.note s.rest e) :=
  .miss fun l hl => by rw [h l hl, Option.map_none]

/-- Without a line break there are no more lines. -/
theorem moreLines_of_fail (hbreak : Form.lineBreak.Runs s f none g) :
    (Form.moreLines p).Runs s f (some ([], s)) g :=
  .bind (.enough (.fail hbreak)) (.bind (.right (.fail (hbreak.again (.refl g))) .pure) .pure)

theorem moreLines_ne_none {o : Option (List α × Place)} (hr : (Form.moreLines p).Runs s f o g) :
    o ≠ none := by
  rcases of_bind hr with ⟨as, t, h, -, hmap⟩ | ⟨-, hmany⟩
  · obtain ⟨o', hopt, rfl⟩ := of_map (m := fun _ => as) hmap
    rcases of_orElse hopt with ⟨x, rfl, -⟩ | ⟨rfl, -⟩
    · exact Option.some_ne_none _
    · exact Option.some_ne_none _
  · exact absurd rfl (hmany.ne_none_of_eq_many rfl)

theorem lines_ne_none {o : Option (List α × Place)} (hr : (Form.lines p).Runs s f o g) :
    o ≠ none := by
  rcases of_orElse hr with ⟨x, rfl, -⟩ | ⟨rfl, -⟩
  · exact Option.some_ne_none _
  · exact Option.some_ne_none _

/-- After a line break, more lines are lines. If there are none, the line break is taken
twice: to look for an item, and as the one after the last. -/
theorem moreLines {x : List α × Place} (hbreak : Form.lineBreak.Runs s f (some ((), t)) g)
    (hlines : (Form.lines p).Runs t g (some x) h) : (Form.moreLines p).Runs s f (some x) h := by
  rcases of_orElse hlines with ⟨y, hxy, hitems⟩ | ⟨hx, hnone⟩
  · cases hxy
    rcases of_bind hitems with ⟨a, u, g', hp, hmap⟩ | ⟨hx, -⟩
    · obtain ⟨o, hmore, ho⟩ := of_map (m := (a :: ·)) hmap
      rcases of_bind hmore with ⟨as, v, g'', hmany, hmap'⟩ | ⟨rfl, -⟩
      · obtain ⟨o', hopt, rfl⟩ := of_map (m := fun _ => as) hmap'
        cases o' with
        | none => cases ho
        | some y =>
          cases ho
          exact .bind (.more (.bind hbreak hp) (many_map (m := (a :: ·)) (.map hmany)))
            (.map hopt)
      · cases ho
    · cases hx
  · cases hx
    rcases of_bind hnone with ⟨a, u, g', -, hmap⟩ | ⟨-, hp⟩
    · obtain ⟨o, hmore, ho⟩ := of_map (m := (a :: ·)) hmap
      exact absurd (Option.map_eq_none_iff.mp ho.symm) hmore.moreLines_ne_none
    · exact .bind (.enough (.bind hbreak hp)) (.map (.left (.map (hbreak.again hp.keeps))))

theorem moreLines_of_newline {m : List α → β} {o : Option (β × Place)} {a : Unit × Span}
    (hnewline : Form.newline.Runs s f (some (a, t)) g)
    (hrest : (Form.newlines >>= fun _ => m <$> Form.lines p).Runs t g o h) :
    (m <$> Form.moreLines p).Runs s f o h := by
  rcases of_bind hrest with ⟨_, u, g', hnewlines, hmap⟩ | ⟨-, hnewlines⟩
  · obtain ⟨o', hlines, rfl⟩ := of_map hmap
    cases o' with
    | none => exact absurd rfl hlines.lines_ne_none
    | some x => exact .map (moreLines (.bind hnewline hnewlines) hlines)
  · exact absurd rfl (hnewlines.ne_none_of_eq_many rfl)

end Form.Runs

/-! ## Whole sources -/

/-- What reading tokens ends in, in a source of this many bytes: a program, or the syntax
error of the furthest failure. -/
inductive Rewinds (tokens : List Lexeme) (length : Nat) : Except SyntaxError Program → Prop where
  | ok {all : List Statement} {s : Place} {f : Failure}
      (h : Form.statements.Runs ⟨tokens, 0⟩ ⟨tokens, []⟩ (some (all, s)) f) :
      Rewinds tokens length (.ok ⟨all, tokensSpan tokens length⟩)
  | error {f : Failure} (h : Form.statements.Runs ⟨tokens, 0⟩ ⟨tokens, []⟩ none f) :
      Rewinds tokens length (.error (f.error length))

theorem Rewinds.unique {tokens : List Lexeme} {length : Nat} {r r' : Except SyntaxError Program}
    (h : Rewinds tokens length r) (h' : Rewinds tokens length r') : r = r' := by
  cases h with
  | ok h =>
    cases h' with
    | ok h' =>
      cases (h.deterministic h').1
      rfl
    | error h' => cases (h.deterministic h').1
  | error h =>
    cases h' with
    | ok h' => cases (h.deterministic h').1
    | error h' => rw [(h.deterministic h').2]

end Bankflow.Source
