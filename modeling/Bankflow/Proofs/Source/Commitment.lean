import Bankflow.Proofs.Source.Rewinding
import Bankflow.Proofs.Source.Rules

/-!
# Committing to a token loses nothing

The rules of the parser never go back. They read what the forms of the grammar read with
rewinding, and fail with the furthest failure of these (`Rule.Mimics`).

Where a rule fails for good, a form may go on: it gives up an optional or a repeated part and
stands before its first token again. By then reading failed further on, and the token is one
that nothing takes which may come next (`Form.Waits`). So the form stays where it is until
something is required, and the failure that counts is the one of the rule.
-/

namespace Bankflow.Source

variable {α β γ δ : Type}

def Cursor.place (s : Cursor) : Place := ⟨s.rest, s.stop⟩

/-! ## Failures at a cursor -/

/-- A cursor notes what failed at its own token, and nothing failed further on. -/
def Failure.At (f : Failure) (s : Cursor) : Prop :=
  f.rest = s.rest ∧ f.expected = s.missed ∨ s.rest.length < f.rest.length ∧ s.missed = []

namespace Failure.At

variable {f : Failure} {s : Cursor}

theorem note_eq (h : f.At s) (e : Expected) :
    f.note s.rest e = ⟨s.rest, (s.miss e).missed⟩ := by
  rcases h with ⟨hrest, hmissed⟩ | ⟨hlt, hmissed⟩
  · rw [note, hrest, if_neg (Nat.lt_irrefl _), if_pos rfl, Cursor.miss, hmissed]
  · rw [note, if_pos hlt, Cursor.miss, hmissed]
    rfl

theorem miss (h : f.At s) (e : Expected) : (f.note s.rest e).At (s.miss e) := by
  rw [h.note_eq]
  exact .inl ⟨rfl, rfl⟩

theorem length_le (h : f.At s) : s.rest.length ≤ f.rest.length := by
  rcases h with ⟨hrest, -⟩ | ⟨hlt, -⟩
  · exact Nat.le_of_eq (congrArg List.length hrest.symm)
  · exact Nat.le_of_lt hlt

theorem take {l : Lexeme} {rest : List Lexeme} (h : f.At s) (hrest : s.rest = l :: rest)
    (stop : Nat) : f.At ⟨rest, stop, []⟩ := by
  have hle := h.length_le
  rw [hrest, List.length_cons] at hle
  exact .inr ⟨hle, rfl⟩

end Failure.At

/-! ## Forms that stay where they are -/

/-- The next token is in `K`, and reading has already failed further on. -/
structure Stuck (K : Token → Prop) (e : Failure) (s : Place) : Prop where
  further : e.rest.length < s.rest.length
  next : ∃ l ∈ s.rest.head?, K l.token

theorem Stuck.mono {K K' : Token → Prop} {e : Failure} {s : Place} (h : Stuck K e s)
    (hK : ∀ t, K t → K' t) : Stuck K' e s := by
  obtain ⟨l, hl, ht⟩ := h.next
  exact ⟨h.further, l, hl, hK _ ht⟩

/-- Stuck before a token in `F`, the form fails or takes nothing, and the latter only if the
token is in `K`. -/
def Form.Waits (p : Form α) (F K : Token → Prop) : Prop :=
  ∀ ⦃e : Failure⦄ ⦃s : Place⦄, Stuck F e s →
    ∃ o, p.Runs s e o e ∧ ∀ x ∈ o, x.2 = s ∧ Stuck K e s

/-- No token at all. -/
def never (_ : Token) : Prop := False

namespace Form.Waits

variable {p q : Form α} {k : α → Form β} {F K : Token → Prop}

theorem exists_runs {e : Failure} {s : Place} (h : p.Waits F K) (hs : Stuck F e s) :
    ∃ o, p.Runs s e o e ∧ ∀ x ∈ o, Stuck K e x.2 := by
  obtain ⟨o, hp, ho⟩ := h hs
  refine ⟨o, hp, fun x hx => ?_⟩
  obtain ⟨hplace, hstuck⟩ := ho x hx
  exact hplace ▸ hstuck

/-- The second alternative, where the first one failed further on. -/
theorem exists_runs_right {f e : Failure} {s : Place} (h : p.Waits F K) (hs : Stuck F e s)
    (hq : q.Runs s f none e) : ∃ o, (Form.choice q p).Runs s f o e ∧ ∀ x ∈ o, Stuck K e x.2 := by
  obtain ⟨o, hp, ho⟩ := h.exists_runs hs
  exact ⟨o, .right hq hp, ho⟩

theorem pure {a : α} (hK : ∀ t, F t → K t) : (Pure.pure a : Form α).Waits F K := by
  intro e s h
  refine ⟨_, .pure, ?_⟩
  rintro _ ⟨⟩
  exact ⟨rfl, h.mono hK⟩

theorem here (hK : ∀ t, F t → K t) : Form.here.Waits F K := by
  intro e s h
  refine ⟨_, .here, ?_⟩
  rintro _ ⟨⟩
  exact ⟨rfl, h.mono hK⟩

theorem test {want : Token → Option α} {e : Expected} (h : ∀ t, F t → want t = none) :
    (Form.test want e).Waits F K := by
  intro e' s hs
  obtain ⟨l, hl, ht⟩ := hs.next
  have hmiss : Halts want s.rest := by
    intro l' hl'
    cases hl.symm.trans hl'
    exact h _ ht
  refine ⟨none, ?_, nofun⟩
  exact (Failure.note_of_lt hs.further).subst (motive := Form.Runs _ s e' none) (.test_miss hmiss)

theorem finish {a : α} : (Form.finish a).Waits F K := by
  intro e s hs
  obtain ⟨l, hl, -⟩ := hs.next
  have hrest : s.rest ≠ [] := by
    intro hnil
    rw [hnil] at hl
    cases hl
  refine ⟨none, ?_, nofun⟩
  exact (Failure.note_of_lt hs.further).subst (motive := Form.Runs _ s e none) (.unfinished hrest)

theorem of_never : p.Waits never K := by
  rintro e s ⟨-, l, -, hl⟩
  exact hl.elim

/-- What comes after a form that fails does not matter. -/
theorem reject (h : p.Waits F never) : (p >>= k).Waits F K := by
  intro e s hs
  obtain ⟨_ | x, hp, hx⟩ := h hs
  · exact ⟨none, .fail hp, nofun⟩
  · obtain ⟨-, -, l, -, hl⟩ := hx x rfl
    exact hl.elim

theorem bind (h : p.Waits F F) (hk : ∀ a, (k a).Waits F K) : (p >>= k).Waits F K := by
  intro e s hs
  obtain ⟨_ | ⟨a, t⟩, hp, hx⟩ := h hs
  · exact ⟨none, .fail hp, nofun⟩
  · obtain ⟨rfl, -⟩ := hx _ rfl
    obtain ⟨o, hk, ho⟩ := hk a hs
    exact ⟨o, .bind hp hk, ho⟩

theorem choice (hp : p.Waits F K) (hq : q.Waits F K) : (Form.choice p q).Waits F K := by
  intro e s hs
  obtain ⟨_ | x, hp, hx⟩ := hp hs
  · obtain ⟨o, hq, ho⟩ := hq hs
    exact ⟨o, .right hp hq, ho⟩
  · exact ⟨some x, .left hp, hx⟩

theorem orElse {a : α} (hp : p.Waits F K) (hK : ∀ t, F t → K t) : (p.orElse a).Waits F K :=
  choice hp (pure hK)

theorem map {m : α → β} (h : p.Waits F K) : (m <$> p).Waits F K := by
  intro e s hs
  obtain ⟨_ | ⟨a, t⟩, hp, hx⟩ := h hs
  · exact ⟨none, .fail hp, nofun⟩
  · refine ⟨some (m a, t), .map hp, ?_⟩
    rintro _ ⟨⟩
    exact hx _ rfl

theorem keyword {k : Keyword} (h : ∀ t, F t → exactly (.keyword k) t = none) :
    (Form.keyword k).Waits F K :=
  map (test h)

theorem symbol {y : Symbol} (h : ∀ t, F t → exactly (.symbol y) t = none) :
    (Form.symbol y).Waits F K :=
  map (test h)

theorem opt (h : p.Waits F K) (hK : ∀ t, F t → K t) : p.opt.Waits F K := orElse (map h) hK

theorem many {k : List α → β} (h : p.Waits F never) (hK : ∀ t, F t → K t) :
    (Form.many p k).Waits F K := by
  intro e s hs
  obtain ⟨_ | x, hp, hx⟩ := h hs
  · refine ⟨_, .enough hp, ?_⟩
    rintro _ ⟨⟩
    exact ⟨rfl, hs.mono hK⟩
  · obtain ⟨-, -, l, -, hl⟩ := hx x rfl
    exact hl.elim

theorem call {n : Name α} (h : n.form.Waits F K) : (Form.call n).Waits F K := by
  intro e s hs
  obtain ⟨o, hn, ho⟩ := h hs
  exact ⟨o, .call hn, ho⟩

end Form.Waits

/-! ## Rules and their forms -/

/-- Before fewer than `n` tokens, the rule does what the form does. Where it fails, the form
fails too or is stuck before a token in `K`, with the same failure as the furthest. -/
structure Rule.Mimics (n : Nat) (r : Rule β) (p : Form α) (out : α → β) (K : Token → Prop) :
    Prop where
  ok : ∀ (s : Cursor) (f : Failure) (b : Parsed s β), s.size < n → f.At s → r s = .ok b →
    ∃ a g, b.value = out a ∧ p.Runs s.place f (some (a, b.next.place)) g ∧ g.At b.next
  error : ∀ (s : Cursor) (f e : Failure), s.size < n → f.At s → r s = .error e →
    ∃ o, p.Runs s.place f o e ∧ e.rest.length ≤ s.rest.length ∧ ∀ x ∈ o, Stuck K e x.2

/-- Before fewer than `n` tokens, the rule finds what the form reads, and takes a token then,
or finds nothing and the form fails. Only a token in `F` makes it go on, and where it then
fails, the form fails too or is stuck before a token in `K`. -/
structure Rule.Attempts (n : Nat) (r : Rule (Option α)) (p : Form α) (F K : Token → Prop) :
    Prop where
  found : ∀ (s : Cursor) (f : Failure) (b : Parsed s (Option α)) (a : α), s.size < n → f.At s →
    r s = .ok b → b.value = some a →
      (∃ g, p.Runs s.place f (some (a, b.next.place)) g ∧ g.At b.next) ∧
        b.next.size < s.size ∧ ∃ l ∈ s.rest.head?, F l.token
  missing : ∀ (s : Cursor) (f : Failure) (b : Parsed s (Option α)), s.size < n → f.At s →
    r s = .ok b → b.value = none →
      ∃ g, p.Runs s.place f none g ∧ g.At b.next ∧ b.next.place = s.place
  error : ∀ (s : Cursor) (f e : Failure), s.size < n → f.At s → r s = .error e →
    Stuck F e s.place ∧ ∃ o, p.Runs s.place f o e ∧ ∀ x ∈ o, Stuck K e x.2

namespace Rule.Mimics

variable {n m : Nat} {r : Rule β} {p p' : Form α} {out : α → β} {K K' : Token → Prop}

theorem zero : r.Mimics 0 p out K :=
  ⟨fun _ _ _ h => absurd h (Nat.not_lt_zero _), fun _ _ _ h => absurd h (Nat.not_lt_zero _)⟩

theorem mono (h : r.Mimics m p out K) (hnm : n ≤ m) : r.Mimics n p out K :=
  ⟨fun s f b hs => h.ok s f b (Nat.lt_of_lt_of_le hs hnm),
    fun s f e hs => h.error s f e (Nat.lt_of_lt_of_le hs hnm)⟩

/-- A form that does what another one does. -/
theorem of_runs (h : r.Mimics n p out K)
    (hruns : ∀ {s f o g}, p.Runs s f o g → p'.Runs s f o g) : r.Mimics n p' out K where
  ok s f b hs hf hb := by
    obtain ⟨a, g, hvalue, hp, hg⟩ := h.ok s f b hs hf hb
    exact ⟨a, g, hvalue, hruns hp, hg⟩
  error s f e hs hf he := by
    obtain ⟨o, hp, hle, ho⟩ := h.error s f e hs hf he
    exact ⟨o, hruns hp, hle, ho⟩

theorem pure {a : α} {b : β} (h : b = out a) : Rule.Mimics n (Pure.pure b) (Pure.pure a) out K where
  ok s f b hs hf hb := by
    cases hb
    exact ⟨a, f, h, .pure, hf⟩
  error s f e hs hf he := by cases he

theorem here : Rule.here.Mimics n Form.here id K where
  ok s f b hs hf hb := by
    cases hb
    exact ⟨s.stop, f, rfl, .here, hf⟩
  error s f e hs hf he := by cases he

/-- A rule that leaves fewer than `m` tokens, and what follows it. -/
theorem bind_of_size {f : β → Rule δ} {k : α → Form γ} {out' : γ → δ} (hr : r.Mimics n p out K)
    (hsize : ∀ s b, s.size < n → r s = .ok b → b.next.size < m)
    (hf : ∀ a, (f (out a)).Mimics m (k a) out' K') (hwaits : ∀ a, (k a).Waits K K') :
    (r >>= f).Mimics n (p >>= k) out' K' where
  ok s g c hs hg hc := by
    obtain ⟨b, d, hb, hd, rfl⟩ := bind_eq_ok hc
    obtain ⟨a, g', hvalue, hp, hg'⟩ := hr.ok s g b hs hg hb
    rw [hvalue] at hd
    obtain ⟨c, g'', hvalue', hk, hg''⟩ := (hf a).ok b.next g' d (hsize s b hs hb) hg' hd
    exact ⟨c, g'', hvalue', .bind hp hk, hg''⟩
  error s g e hs hg he := by
    rcases bind_eq_error he with hb | ⟨b, hb, hd⟩
    · obtain ⟨_ | ⟨a, t⟩, hp, hle, ho⟩ := hr.error s g e hs hg hb
      · exact ⟨none, .fail hp, hle, nofun⟩
      · obtain ⟨o, hk, ho'⟩ := (hwaits a).exists_runs (ho _ rfl)
        exact ⟨o, .bind hp hk, hle, ho'⟩
    · obtain ⟨a, g', hvalue, hp, hg'⟩ := hr.ok s g b hs hg hb
      rw [hvalue] at hd
      obtain ⟨o, hk, hle, ho⟩ := (hf a).error b.next g' e (hsize s b hs hb) hg' hd
      exact ⟨o, .bind hp hk, Nat.le_trans hle b.le, ho⟩

theorem bind {f : β → Rule δ} {k : α → Form γ} {out' : γ → δ} (hr : r.Mimics n p out K)
    (hf : ∀ a, (f (out a)).Mimics n (k a) out' K') (hwaits : ∀ a, (k a).Waits K K') :
    (r >>= f).Mimics n (p >>= k) out' K' :=
  bind_of_size hr (fun _ b hs _ => Nat.lt_of_le_of_lt b.le hs) hf hwaits

/-- A form that does not get stuck, and what follows it. -/
theorem seq {f : β → Rule δ} {k : α → Form γ} {out' : γ → δ} (hr : r.Mimics n p out never)
    (hf : ∀ a, (f (out a)).Mimics n (k a) out' K') : (r >>= f).Mimics n (p >>= k) out' K' :=
  bind hr hf fun _ => .of_never

theorem map {m : β → δ} {m' : α → γ} {out' : γ → δ} (h : r.Mimics n p out K)
    (hout : ∀ a, m (out a) = out' (m' a)) : (m <$> r).Mimics n (m' <$> p) out' K :=
  bind (f := Pure.pure ∘ m) (k := Pure.pure ∘ m') h (fun a => pure (hout a)) fun _ =>
    .pure fun _ => id

/-- A rule for something that a form leads to. -/
theorem through (m : β → δ) (h : r.Mimics n p out K) :
    (m <$> r).Mimics n p (fun a => m (out a)) K where
  ok s f c hs hf hc := by
    obtain ⟨b, d, hb, hd, rfl⟩ := bind_eq_ok (f := Pure.pure ∘ m) hc
    cases hd
    obtain ⟨a, g, hvalue, hp, hg⟩ := h.ok s f b hs hf hb
    exact ⟨a, g, congrArg m hvalue, hp, hg⟩
  error s f e hs hf he := by
    rcases bind_eq_error (f := Pure.pure ∘ m) he with hb | ⟨b, -, hd⟩
    · exact h.error s f e hs hf hb
    · cases hd

theorem discard (h : r.Mimics n p out K) : (discard r).Mimics n p (fun _ => PUnit.unit) K :=
  through (Function.const β PUnit.unit) h

theorem call {name : Name α} (h : r.Mimics n name.form out K) : r.Mimics n (.call name) out K :=
  h.of_runs .call

/-- A rule that never fails. -/
theorem total (h : r.Mimics n p out K) (hr : ∀ s e, r s ≠ .error e) : r.Mimics n p out K' where
  ok := h.ok
  error s _ e _ _ he := absurd he (hr s e)

/-- An optional part, and something else without it. -/
theorem cases {r₁ : Rule (Option γ)} {p₁ : Form γ} {h : Option γ → Rule β} {q : γ → Form α}
    {F K₁ : Token → Prop} (hm : n ≤ m + 1) (h₁ : r₁.Attempts n p₁ F K₁)
    (hsome : ∀ a, (h (some a)).Mimics m (q a) out K) (hnone : (h none).Mimics n p out K)
    (hq : ∀ a, (q a).Waits K₁ K) (hwaits : p.Waits F K) :
    (r₁ >>= h).Mimics n (.choice (p₁ >>= q) p) out K where
  ok s f c hs hf hc := by
    obtain ⟨b, d, hb, hd, rfl⟩ := bind_eq_ok hc
    cases hvalue : b.value with
    | none =>
      obtain ⟨g, hfail, hg, hplace⟩ := h₁.missing s f b hs hf hb hvalue
      rw [hvalue] at hd
      obtain ⟨a, g', hvalue', hp, hg'⟩ := hnone.ok b.next g d (Nat.lt_of_le_of_lt b.le hs) hg hd
      rw [hplace] at hp
      exact ⟨a, g', hvalue', .right (.fail hfail) hp, hg'⟩
    | some a =>
      obtain ⟨⟨g, hp, hg⟩, hlt, -⟩ := h₁.found s f b a hs hf hb hvalue
      rw [hvalue] at hd
      obtain ⟨a', g', hvalue', hq, hg'⟩ := (hsome a).ok b.next g d (by omega) hg hd
      exact ⟨a', g', hvalue', .left (.bind hp hq), hg'⟩
  error s f e hs hf he := by
    -- the first alternative ends alike, or the second one is tried before a token in `F`
    have hleft : ∀ o, Stuck F e s.place → (p₁ >>= q).Runs s.place f o e →
        (∀ x ∈ o, Stuck K e x.2) → ∃ o, (Form.choice (p₁ >>= q) p).Runs s.place f o e ∧
          e.rest.length ≤ s.rest.length ∧ ∀ x ∈ o, Stuck K e x.2 := by
      rintro (_ | x) hstuck hruns ho
      · obtain ⟨o, hp, ho⟩ := hwaits.exists_runs_right hstuck hruns
        exact ⟨o, hp, Nat.le_of_lt hstuck.further, ho⟩
      · exact ⟨some x, .left hruns, Nat.le_of_lt hstuck.further, ho⟩
    rcases bind_eq_error he with hb | ⟨b, hb, hd⟩
    · obtain ⟨hstuck, _ | ⟨a, t⟩, hp₁, ho⟩ := h₁.error s f e hs hf hb
      · exact hleft none hstuck (.fail hp₁) nofun
      · obtain ⟨o, hruns, ho'⟩ := (hq a).exists_runs (ho _ rfl)
        exact hleft o hstuck (.bind hp₁ hruns) ho'
    · cases hvalue : b.value with
      | none =>
        obtain ⟨g, hfail, hg, hplace⟩ := h₁.missing s f b hs hf hb hvalue
        rw [hvalue] at hd
        obtain ⟨o, hp, hle, ho⟩ := hnone.error b.next g e (Nat.lt_of_le_of_lt b.le hs) hg hd
        rw [hplace] at hp
        exact ⟨o, .right (.fail hfail) hp, Nat.le_trans hle b.le, ho⟩
      | some a =>
        obtain ⟨⟨g, hp₁, hg⟩, hlt, hnext⟩ := h₁.found s f b a hs hf hb hvalue
        rw [hvalue] at hd
        obtain ⟨o, hruns, hle, ho⟩ := (hsome a).error b.next g e (by omega) hg hd
        exact hleft o ⟨Nat.lt_of_le_of_lt hle hlt, hnext⟩ (.bind hp₁ hruns) ho

/-- An optional part or something else without it, and what follows either. -/
theorem cases_bind {ε : Type} {r₁ : Rule (Option γ)} {p₁ : Form γ} {h : Option γ → Rule β}
    {h' : γ → Rule δ} {r' : Rule δ} {f : δ → Rule β} {q : γ → Form ε} {p : Form ε}
    {k : ε → Form α} {out' : ε → δ} {F L : Token → Prop} (h₁ : r₁.Attempts n p₁ F never)
    (hsome : ∀ a, h (some a) = h' a >>= f) (hnone : h none = r' >>= f)
    (hq : ∀ a, (h' a).Mimics n (q a) out' L) (hp : r'.Mimics n p out' L)
    (hwaits : p.Waits F L) (hf : ∀ a, (f (out' a)).Mimics n (k a) out K)
    (hk : ∀ a, (k a).Waits L K) :
    (r₁ >>= h).Mimics n (.choice (p₁ >>= q) p >>= k) out K := by
  have heq : r₁ >>= h = (r₁ >>= fun o => o.elim r' h') >>= f := by
    rw [LawfulMonad.bind_assoc]
    congr 1
    funext o
    cases o with
    | none => exact hnone
    | some a => exact hsome a
  rw [heq]
  exact bind (cases (Nat.le_succ n) h₁ hq hp (fun _ => .of_never) hwaits) hf hk

/-- A part that is left out if it is not found. -/
theorem opt {r : Rule (Option α)} {F : Token → Prop} (h : r.Attempts n p F never)
    (hF : ∀ t, F t → K t) : r.Mimics n p.opt id K := by
  have hcases : (r >>= Pure.pure).Mimics n (.choice (p >>= Pure.pure ∘ some) (Pure.pure none))
      id K :=
    cases (Nat.le_succ n) h (fun _ => pure rfl) (pure rfl) (fun _ => .of_never) (.pure hF)
  rwa [bind_pure] at hcases

/-- A part that is read any number of times and starts with a token of its own. -/
theorem many {r₁ : Rule (Option γ)} {p₁ : Form γ} {h : Option γ → Rule β} {q : γ → Form α}
    {step : Form δ} {k : List δ → α} {F : Token → Prop} (hm : n ≤ m + 1)
    (h₁ : r₁.Attempts n p₁ F never) (hsome : ∀ a, (h (some a)).Mimics m (q a) out K)
    (hnone : h none = Pure.pure (out (k []))) (hF : ∀ t, F t → K t)
    (hstep : ∀ {s f o g}, (p₁ >>= q).Runs s f o g →
      (step >>= fun a => Form.many step fun as => k (a :: as)).Runs s f o g) :
    (r₁ >>= h).Mimics n (.many step k) out K := by
  have hnone' : (h none).Mimics n (Pure.pure (k [])) out K := hnone ▸ pure rfl
  refine (cases hm h₁ hsome hnone' (fun _ => .of_never) (.pure hF)).of_runs fun hruns => .many ?_
  cases hruns with
  | left hp => exact .left (hstep hp)
  | right hp hq => exact .right (hstep hp) hq

end Rule.Mimics

namespace Rule.Attempts

variable {n m : Nat} {r r' : Rule (Option α)} {p q : Form α} {F K : Token → Prop}

theorem zero : r.Attempts 0 p F K :=
  ⟨fun _ _ _ _ h => absurd h (Nat.not_lt_zero _), fun _ _ _ h => absurd h (Nat.not_lt_zero _),
    fun _ _ _ h => absurd h (Nat.not_lt_zero _)⟩

theorem mono (h : r.Attempts m p F K) (hnm : n ≤ m) : r.Attempts n p F K :=
  ⟨fun s f b a hs => h.found s f b a (Nat.lt_of_lt_of_le hs hnm),
    fun s f b hs => h.missing s f b (Nat.lt_of_lt_of_le hs hnm),
    fun s f e hs => h.error s f e (Nat.lt_of_lt_of_le hs hnm)⟩

/-- A rule whose form cannot get stuck. -/
theorem fails (h : r.Attempts n p F never) {s : Cursor} {f e : Failure} (hs : s.size < n)
    (hf : f.At s) (he : r s = .error e) : Stuck F e s.place ∧ p.Runs s.place f none e := by
  obtain ⟨hstuck, _ | x, hp, ho⟩ := h.error s f e hs hf he
  · exact ⟨hstuck, hp⟩
  · obtain ⟨-, l, -, hl⟩ := ho x rfl
    exact hl.elim

theorem call {name : Name α} (h : r.Attempts n name.form F K) : r.Attempts n (.call name) F K where
  found s f b a hs hf hb ha := by
    obtain ⟨⟨g, hp, hg⟩, hnext⟩ := h.found s f b a hs hf hb ha
    exact ⟨⟨g, .call hp, hg⟩, hnext⟩
  missing s f b hs hf hb ha := by
    obtain ⟨g, hp, hg⟩ := h.missing s f b hs hf hb ha
    exact ⟨g, .call hp, hg⟩
  error s f e hs hf he := by
    obtain ⟨hstuck, o, hp, ho⟩ := h.error s f e hs hf he
    exact ⟨hstuck, o, .call hp, ho⟩

/-- A part that is known by how it starts. -/
theorem begin {r₁ : Rule (Option γ)} {p₁ : Form γ} {h : Option γ → Rule (Option α)}
    {q : γ → Form α} (hm : n ≤ m + 1) (h₁ : r₁.Attempts n p₁ F never)
    (hnone : h none = Pure.pure none) (hsome : ∀ a, (h (some a)).Mimics m (q a) some K) :
    (r₁ >>= h).Attempts n (p₁ >>= q) F K where
  found s f c y hs hf hc hy := by
    obtain ⟨b, d, hb, hd, rfl⟩ := bind_eq_ok hc
    cases hvalue : b.value with
    | none =>
      rw [hvalue, hnone] at hd
      cases hd
      cases hy
    | some a =>
      obtain ⟨⟨g, hp, hg⟩, hlt, hnext⟩ := h₁.found s f b a hs hf hb hvalue
      rw [hvalue] at hd
      obtain ⟨a', g', hvalue', hq, hg'⟩ := (hsome a).ok b.next g d (by omega) hg hd
      cases hy.symm.trans hvalue'
      exact ⟨⟨g', .bind hp hq, hg'⟩, Nat.lt_of_le_of_lt d.le hlt, hnext⟩
  missing s f c hs hf hc hy := by
    obtain ⟨b, d, hb, hd, rfl⟩ := bind_eq_ok hc
    cases hvalue : b.value with
    | none =>
      obtain ⟨g, hp, hg, hplace⟩ := h₁.missing s f b hs hf hb hvalue
      rw [hvalue, hnone] at hd
      cases hd
      exact ⟨g, .fail hp, hg, hplace⟩
    | some a =>
      obtain ⟨⟨g, -, hg⟩, hlt, -⟩ := h₁.found s f b a hs hf hb hvalue
      rw [hvalue] at hd
      obtain ⟨a', -, hvalue', -, -⟩ := (hsome a).ok b.next g d (by omega) hg hd
      cases hy.symm.trans hvalue'
  error s f e hs hf he := by
    rcases bind_eq_error he with hb | ⟨b, hb, hd⟩
    · obtain ⟨hstuck, hp⟩ := h₁.fails hs hf hb
      exact ⟨hstuck, none, .fail hp, nofun⟩
    · cases hvalue : b.value with
      | none =>
        rw [hvalue, hnone] at hd
        cases hd
      | some a =>
        obtain ⟨⟨g, hp, hg⟩, hlt, hnext⟩ := h₁.found s f b a hs hf hb hvalue
        rw [hvalue] at hd
        obtain ⟨o, hq, hle, ho⟩ := (hsome a).error b.next g e (by omega) hg hd
        exact ⟨⟨Nat.lt_of_le_of_lt hle hlt, hnext⟩, o, .bind hp hq, ho⟩

theorem map {m : α → β} (h : r.Attempts n p F never) :
    (Option.map m <$> r).Attempts n (m <$> p) F K :=
  begin (h := Pure.pure ∘ Option.map m) (q := Pure.pure ∘ m) (Nat.le_succ n) h rfl
    fun _ => .pure rfl

theorem orElse {F₁ F₂ : Token → Prop} (h : r.Attempts n p F₁ K) (h' : r'.Attempts n q F₂ K)
    (hF₁ : ∀ t, F₁ t → F t) (hF₂ : ∀ t, F₂ t → F t) (hwaits : q.Waits F₁ never) :
    (r.orElse r').Attempts n (.choice p q) F K where
  found s f c y hs hf hc hy := by
    obtain ⟨b, d, hb, hd, rfl⟩ := bind_eq_ok hc
    cases hvalue : b.value with
    | none =>
      obtain ⟨g, hp, hg, hplace⟩ := h.missing s f b hs hf hb hvalue
      rw [hvalue] at hd
      obtain ⟨⟨g', hq, hg'⟩, hlt, l, hl, ht⟩ :=
        h'.found b.next g d y (Nat.lt_of_le_of_lt b.le hs) hg hd hy
      rw [hplace] at hq
      have hrest : b.next.rest = s.rest := congrArg Place.rest hplace
      exact ⟨⟨g', .right hp hq, hg'⟩, Nat.lt_of_lt_of_le hlt b.le, l, hrest ▸ hl, hF₂ _ ht⟩
    | some a =>
      obtain ⟨⟨g, hp, hg⟩, hlt, l, hl, ht⟩ := h.found s f b a hs hf hb hvalue
      rw [hvalue] at hd
      cases hd
      cases hy
      exact ⟨⟨g, .left hp, hg⟩, hlt, l, hl, hF₁ _ ht⟩
  missing s f c hs hf hc hy := by
    obtain ⟨b, d, hb, hd, rfl⟩ := bind_eq_ok hc
    cases hvalue : b.value with
    | none =>
      obtain ⟨g, hp, hg, hplace⟩ := h.missing s f b hs hf hb hvalue
      rw [hvalue] at hd
      obtain ⟨g', hq, hg', hplace'⟩ :=
        h'.missing b.next g d (Nat.lt_of_le_of_lt b.le hs) hg hd hy
      rw [hplace] at hq
      exact ⟨g', .right hp hq, hg', hplace'.trans hplace⟩
    | some a =>
      rw [hvalue] at hd
      cases hd
      cases hy
  error s f e hs hf he := by
    rcases bind_eq_error he with hb | ⟨b, hb, hd⟩
    · obtain ⟨hstuck, _ | x, hp, ho⟩ := h.error s f e hs hf hb
      · obtain ⟨o, hruns, ho⟩ := hwaits.exists_runs_right hstuck hp
        exact ⟨hstuck.mono hF₁, o, hruns, fun x hx => (ho x hx).mono fun _ => False.elim⟩
      · exact ⟨hstuck.mono hF₁, some x, .left hp, ho⟩
    · cases hvalue : b.value with
      | none =>
        obtain ⟨g, hp, hg, hplace⟩ := h.missing s f b hs hf hb hvalue
        rw [hvalue] at hd
        obtain ⟨hstuck, o, hq, ho⟩ := h'.error b.next g e (Nat.lt_of_le_of_lt b.le hs) hg hd
        rw [hplace] at hq hstuck
        exact ⟨hstuck.mono hF₂, o, .right hp hq, ho⟩
      | some a =>
        rw [hvalue] at hd
        cases hd

/-- What another rule finds, or an alternative to it. -/
theorem alternative {r₁ : Rule (Option γ)} {p₁ : Form γ} {h : Option γ → Rule (Option α)}
    {m : γ → α} {F₁ F₂ : Token → Prop} (h₁ : r₁.Attempts n p₁ F₁ never)
    (hsome : ∀ a, h (some a) = Pure.pure (some (m a))) (hnone : (h none).Attempts n q F₂ K)
    (hF₁ : ∀ t, F₁ t → F t) (hF₂ : ∀ t, F₂ t → F t) (hwaits : q.Waits F₁ never) :
    (r₁ >>= h).Attempts n (.choice (m <$> p₁) q) F K := by
  have heq : r₁ >>= h = (Option.map m <$> r₁).orElse (h none) := by
    rw [Rule.orElse, bind_map_left]
    congr 1
    funext o
    cases o with
    | none => rfl
    | some a => exact hsome a
  rw [heq]
  exact orElse (map h₁) hnone hF₁ hF₂ hwaits

end Rule.Attempts

/-! ## Single tokens -/

namespace Rule

variable {n : Nat} {K : Token → Prop}

theorem Mimics.take {want : Token → Option α} {e : Expected} :
    (Rule.take want e).Mimics n (Form.test want e) id K where
  ok s f b _ hf hb := by
    obtain ⟨l, rest, hrest, hl, hspan, hnext⟩ := take_eq_ok hb
    refine ⟨b.value, f, rfl, ?_, ?_⟩
    · rw [hnext, Cursor.place, hrest, ← Prod.eta b.value, ← hspan]
      exact .test hl
    · rw [hnext]
      exact hf.take hrest _
  error s f e' _ hf he := by
    obtain ⟨hhalts, rfl⟩ := take_eq_error he
    refine ⟨none, ?_, Nat.le_refl _, nofun⟩
    rw [← hf.note_eq]
    exact .test_miss hhalts

theorem Attempts.tryTake {want : Token → Option α} {e : Expected} {F : Token → Prop}
    (hF : ∀ t a, want t = some a → F t) :
    (Rule.tryTake want e).Attempts n (Form.test want e) F never where
  found s f b x _ hf hb hx := by
    rcases tryTake_eq_ok hb with ⟨hnone, -⟩ | ⟨a, l, rest, hvalue, hrest, hl, hnext⟩
    · cases hx.symm.trans hnone
    · cases hx.symm.trans hvalue
      refine ⟨⟨f, ?_, ?_⟩, ?_, l, ?_, hF _ _ hl⟩
      · rw [hnext, Cursor.place, hrest]
        exact .test hl
      · rw [hnext]
        exact hf.take hrest _
      · rw [hnext, Cursor.size, Cursor.size, hrest]
        exact Nat.lt_succ_self _
      · rw [hrest]
        rfl
  missing s f b _ hf hb hx := by
    rcases tryTake_eq_ok hb with ⟨-, hhalts, hnext⟩ | ⟨a, l, rest, hvalue, -⟩
    · rw [hnext]
      exact ⟨_, .test_miss hhalts, hf.miss e, rfl⟩
    · cases hx.symm.trans hvalue
  error s f e' _ _ he := absurd he tryTake_ne_error

/-- A token that may be missing, before a form that does not fail for want of it. -/
theorem Mimics.tryTake_bind {want : Token → Option γ} {e : Expected}
    {h : Option (γ × Span) → Rule β} {p : Form α} {q : γ × Span → Form α} {out : α → β} {a : α}
    (hsome : ∀ x, (h (some x)).Mimics n (q x) out K) (hnone : h none = Pure.pure (out a))
    (hfound : ∀ {s t f f' g o x}, (Form.test want e).Runs s f (some (x, t)) f' →
      (q x).Runs t f' o g → p.Runs s f o g)
    (hmissing : ∀ {s f g}, (Form.test want e).Runs s f none g → p.Runs s f (some (a, s)) g) :
    (Rule.tryTake want e >>= h).Mimics n p out K := by
  have htry : (Rule.tryTake want e).Attempts n (Form.test want e) (fun _ => True) never :=
    .tryTake fun _ _ _ => trivial
  constructor
  · intro s f c hs hf hc
    obtain ⟨b, d, hb, hd, rfl⟩ := bind_eq_ok hc
    cases hvalue : b.value with
    | none =>
      obtain ⟨g, hmiss, hg, hplace⟩ := htry.missing s f b hs hf hb hvalue
      rw [hvalue, hnone] at hd
      cases hd
      refine ⟨a, g, rfl, ?_, hg⟩
      show p.Runs s.place f (some (a, b.next.place)) g
      rw [hplace]
      exact hmissing hmiss
    | some x =>
      obtain ⟨⟨g, hx, hg⟩, hlt, -⟩ := htry.found s f b x hs hf hb hvalue
      rw [hvalue] at hd
      obtain ⟨a', g', hvalue', hq, hg'⟩ := (hsome x).ok b.next g d (Nat.lt_trans hlt hs) hg hd
      exact ⟨a', g', hvalue', hfound hx hq, hg'⟩
  · intro s f e' hs hf he
    rcases bind_eq_error he with hb | ⟨b, hb, hd⟩
    · exact absurd hb tryTake_ne_error
    · cases hvalue : b.value with
      | none =>
        rw [hvalue, hnone] at hd
        cases hd
      | some x =>
        obtain ⟨⟨g, hx, hg⟩, hlt, -⟩ := htry.found s f b x hs hf hb hvalue
        rw [hvalue] at hd
        obtain ⟨o, hq, hle, ho⟩ := (hsome x).error b.next g e' (Nat.lt_trans hlt hs) hg hd
        exact ⟨o, hfound hx hq, Nat.le_trans hle b.le, ho⟩

/-! ### Keywords, symbols, names and numbers -/

theorem Mimics.keyword (k : Keyword) : (Source.keyword k).Mimics n (Form.keyword k) id K :=
  map take fun _ => rfl

theorem Mimics.symbol (y : Symbol) : (Source.symbol y).Mimics n (Form.symbol y) id K :=
  map take fun _ => rfl

/-- A symbol whose place is not kept, and what follows before one token less. -/
theorem Mimics.mark (y : Symbol) {f : Unit → Rule β} {k : Span → Form α} {out : α → β}
    (hf : ∀ span, (f ()).Mimics n (k span) out K) :
    (Functor.discard (Source.symbol y) >>= f).Mimics (n + 1) (Form.symbol y >>= k) out K := by
  refine bind_of_size (.discard (.symbol y)) (fun s b hs hb => ?_) hf fun _ => .of_never
  obtain ⟨c, _, hc, hpure, rfl⟩ := bind_eq_ok (f := Pure.pure ∘ Function.const Span PUnit.unit) hb
  cases hpure
  obtain ⟨t, _, ht, hpure, rfl⟩ := bind_eq_ok (f := Pure.pure ∘ Prod.snd) hc
  cases hpure
  obtain ⟨l, rest, hrest, -, -, hnext⟩ := take_eq_ok ht
  show t.next.size < n
  rw [hnext]
  rw [Cursor.size, hrest] at hs
  exact Nat.lt_of_succ_lt_succ hs

theorem Mimics.ident : Source.ident.Mimics n Form.ident id K := map take fun _ => rfl

theorem Mimics.int : Source.int.Mimics n Form.int id K := map take fun _ => rfl

theorem mem_of_exactly {t u : Token} {a : Unit} (h : exactly t u = some a) : u ∈ [t] := by
  simpa [exactly] using h

theorem Attempts.keyword? (k : Keyword) :
    (Source.keyword? k).Attempts n (Form.keyword k) (· ∈ [.keyword k]) never :=
  map (tryTake fun _ _ => mem_of_exactly)

theorem Attempts.symbol? (y : Symbol) :
    (Source.symbol? y).Attempts n (Form.symbol y) (· ∈ [.symbol y]) never :=
  map (tryTake fun _ _ => mem_of_exactly)

theorem Attempts.ident? :
    Source.ident?.Attempts n Form.ident (fun t => ∃ name, t = .ident name) never :=
  map (tryTake fun
    | .ident name, _, _ => ⟨name, rfl⟩)

theorem Attempts.int? : Source.int?.Attempts n Form.int (fun t => ∃ v, t = .int v) never :=
  map (tryTake fun
    | .int v, _, _ => ⟨v, rfl⟩)

theorem Attempts.newline? : (Rule.tryTake (exactly .newline) .newline).Attempts n Form.newline
    (· ∈ [.newline]) never :=
  tryTake fun _ _ => mem_of_exactly

end Rule

end Bankflow.Source
