import Bankflow.Proofs.Source.Derivable
import Bankflow.Proofs.Source.LookAhead
import Bankflow.Proofs.Source.Reading

/-!
# One phrase for each list of tokens

Two phrases of a kind with the same tokens, or with tokens that begin the same list, are
equal, provided that what follows does not continue them. So tokens that are parsed to a
program are the tokens of exactly one phrase, and the program is its tree.
-/

namespace Bankflow.Source

variable {α δ : Type} {rest rest' : List Lexeme}

/-! ## Single tokens -/

@[simp] theorem Keyword.lexeme_eq_iff {k k' : Keyword} {a b : Span} :
    k.lexeme a = k'.lexeme b ↔ k = k' ∧ a = b := by
  simp [Keyword.lexeme]

@[simp] theorem Symbol.lexeme_eq_iff {y y' : Symbol} {a b : Span} :
    y.lexeme a = y'.lexeme b ↔ y = y' ∧ a = b := by
  simp [Symbol.lexeme]

@[simp] theorem Ident.lexeme_eq_iff {x x' : Ident} : x.lexeme = x'.lexeme ↔ x = x' := by
  cases x; cases x'; simp [Ident.lexeme]

@[simp] theorem Number.lexeme_eq_iff {n n' : Number} : n.lexeme = n'.lexeme ↔ n = n' := by
  cases n; cases n'; simp [Number.lexeme]

@[simp] theorem newline_eq_iff {a b : Span} : newline a = newline b ↔ a = b := by
  simp [newline]

theorem Halts.ne_cons {want : Token → Option α} {l : Lexeme} {a : α} (h : Halts want rest)
    (hl : want l.token = some a) : rest ≠ l :: rest' := by
  rintro rfl
  have hnone := h l rfl
  rw [hl] at hnone
  cases hnone

namespace Phrase

/-! ## Index expressions -/

theorem ProductSign.productOp_token (s : ProductSign) : productOp s.token = some s.op := by
  cases s <;> rfl

theorem ProductSign.token_inj {s s' : ProductSign} (h : s.token = s'.token) : s = s' := by
  cases s <;> cases s' <;> simp_all [ProductSign.token]

theorem SumSign.sumOp_token (s : SumSign) : sumOp s.token = some s.op := by
  cases s <;> rfl

theorem SumSign.token_inj {s s' : SumSign} (h : s.token = s'.token) : s = s' := by
  cases s <;> cases s' <;> simp_all [SumSign.token]

mutual

theorem Unary.append_inj : ∀ (u u' : Unary) {rest rest' : List Lexeme},
    u.tokens ++ rest = u'.tokens ++ rest' → u = u' ∧ rest = rest'
  | .neg minus e, u', rest, rest', h => by
    cases u' with
    | neg minus' e' =>
      simp only [Unary.tokens, List.cons_append, List.cons.injEq, Symbol.lexeme_eq_iff,
        true_and] at h
      obtain ⟨rfl, hrest⟩ := e.append_inj e' h.2
      exact ⟨by rw [h.1], hrest⟩
    | _ => simp [Unary.tokens, Symbol.lexeme, Number.lexeme, Ident.lexeme] at h
  | .int n, u', rest, rest', h => by
    cases u' with
    | int n' => simpa [Unary.tokens] using h
    | _ => simp [Unary.tokens, Symbol.lexeme, Number.lexeme, Ident.lexeme] at h
  | .var x, u', rest, rest', h => by
    cases u' with
    | var x' => simpa [Unary.tokens] using h
    | _ => simp [Unary.tokens, Symbol.lexeme, Number.lexeme, Ident.lexeme] at h
  | .brackets left e right, u', rest, rest', h => by
    cases u' with
    | brackets left' e' right' =>
      simp only [Unary.tokens, List.cons_append, List.append_assoc, List.nil_append,
        List.cons.injEq, Symbol.lexeme_eq_iff, true_and] at h
      obtain ⟨rfl, htail⟩ := e.append_inj e' (halts_cons rfl) (halts_cons rfl) (halts_cons rfl)
        (halts_cons rfl) h.2
      simp only [List.cons.injEq, Symbol.lexeme_eq_iff, true_and] at htail
      exact ⟨by rw [h.1, htail.1], htail.2⟩
    | _ => simp [Unary.tokens, Symbol.lexeme, Number.lexeme, Ident.lexeme] at h

theorem Factors.append_inj : ∀ (f f' : Factors) {rest rest' : List Lexeme},
    Halts productOp rest → Halts productOp rest' →
    f.tokens ++ rest = f'.tokens ++ rest' → f = f' ∧ rest = rest'
  | .done, .done, _, _, _, _, h => ⟨rfl, h⟩
  | .done, .more sign _ _ _, _, _, hrest, _, h => by
    exact absurd h (hrest.ne_cons sign.productOp_token)
  | .more sign _ _ _, .done, _, _, _, hrest', h => by
    exact absurd h.symm (hrest'.ne_cons sign.productOp_token)
  | .more sign span u f, .more sign' span' u' f', rest, rest', hrest, hrest', h => by
    simp only [Factors.tokens, List.cons_append, List.append_assoc, List.cons.injEq,
      Lexeme.mk.injEq] at h
    obtain ⟨⟨hsign, rfl⟩, h⟩ := h
    obtain ⟨rfl, hf⟩ := u.append_inj u' h
    obtain ⟨rfl, hends⟩ := f.append_inj f' hrest hrest' hf
    exact ⟨by rw [ProductSign.token_inj hsign], hends⟩

theorem Term.append_inj : ∀ (t t' : Term) {rest rest' : List Lexeme},
    Halts productOp rest → Halts productOp rest' →
    t.tokens ++ rest = t'.tokens ++ rest' → t = t' ∧ rest = rest'
  | .mk u f, .mk u' f', rest, rest', hrest, hrest', h => by
    simp only [Term.tokens, List.append_assoc] at h
    obtain ⟨rfl, hf⟩ := u.append_inj u' h
    obtain ⟨rfl, hends⟩ := f.append_inj f' hrest hrest' hf
    exact ⟨rfl, hends⟩

theorem Summands.append_inj : ∀ (f f' : Summands) {rest rest' : List Lexeme},
    Halts productOp rest → Halts sumOp rest → Halts productOp rest' → Halts sumOp rest' →
    f.tokens ++ rest = f'.tokens ++ rest' → f = f' ∧ rest = rest'
  | .done, .done, _, _, _, _, _, _, h => ⟨rfl, h⟩
  | .done, .more sign _ _ _, _, _, _, hrest, _, _, h => by
    exact absurd h (hrest.ne_cons sign.sumOp_token)
  | .more sign _ _ _, .done, _, _, _, _, _, hrest', h => by
    exact absurd h.symm (hrest'.ne_cons sign.sumOp_token)
  | .more sign span t f, .more sign' span' t' f', rest, rest', hp, hs, hp', hs', h => by
    simp only [Summands.tokens, List.cons_append, List.append_assoc, List.cons.injEq,
      Lexeme.mk.injEq] at h
    obtain ⟨⟨hsign, rfl⟩, h⟩ := h
    obtain ⟨rfl, hf⟩ := t.append_inj t' (f.halts_productOp hp) (f'.halts_productOp hp') h
    obtain ⟨rfl, hends⟩ := f.append_inj f' hp hs hp' hs' hf
    exact ⟨by rw [SumSign.token_inj hsign], hends⟩

theorem Expr.append_inj : ∀ (e e' : Expr) {rest rest' : List Lexeme},
    Halts productOp rest → Halts sumOp rest → Halts productOp rest' → Halts sumOp rest' →
    e.tokens ++ rest = e'.tokens ++ rest' → e = e' ∧ rest = rest'
  | .mk t f, .mk t' f', rest, rest', hp, hs, hp', hs', h => by
    simp only [Expr.tokens, List.append_assoc] at h
    obtain ⟨rfl, hf⟩ := t.append_inj t' (f.halts_productOp hp) (f'.halts_productOp hp') h
    obtain ⟨rfl, hends⟩ := f.append_inj f' hp hs hp' hs' hf
    exact ⟨rfl, hends⟩

end

/-! ## Lists -/

/-- A phrase that its tokens determine wherever `follows` holds of what comes next. -/
def DelimitedAt (tokens : δ → List Lexeme) (follows : List Lexeme → Prop) (d : δ) : Prop :=
  ∀ ⦃d' : δ⦄ ⦃rest rest' : List Lexeme⦄, follows rest → follows rest' →
    tokens d ++ rest = tokens d' ++ rest' → d = d' ∧ rest = rest'

/-- Phrases that are all determined by their tokens. -/
def Delimited (tokens : δ → List Lexeme) (follows : List Lexeme → Prop) : Prop :=
  ∀ ⦃d : δ⦄, DelimitedAt tokens follows d

theorem delimited_newlines : Delimited (List.map newline) (Halts (exactly .newline)) := by
  intro blank blank' rest rest' hrest hrest' h
  induction blank generalizing blank' with
  | nil =>
    cases blank' with
    | nil => exact ⟨rfl, h⟩
    | cons => exact absurd h (hrest.ne_cons rfl)
  | cons span blank ih =>
    cases blank' with
    | nil => exact absurd h.symm (hrest'.ne_cons rfl)
    | cons span' blank' =>
      simp only [List.map_cons, List.cons_append, List.cons.injEq, newline_eq_iff] at h
      obtain ⟨rfl, hends⟩ := ih h.2
      exact ⟨by rw [h.1], hends⟩

theorem Delimited.mono {tokens : δ → List Lexeme} {follows follows' : List Lexeme → Prop}
    (h : Delimited tokens follows) (himp : ∀ rest, follows' rest → follows rest) :
    Delimited tokens follows' :=
  fun _ _ _ _ hrest hrest' => h (himp _ hrest) (himp _ hrest')

section Items

variable {tokens : δ → List Lexeme} {follows ends : List Lexeme → Prop}

/-- A part that may be left out, where something else follows than how it starts. -/
theorem Delimited.option (h : Delimited tokens follows)
    (hstart : ∀ d rest rest', follows rest → rest ≠ tokens d ++ rest') :
    Delimited (fun o : Option δ => o.elim [] tokens) follows
  | none, none, _, _, _, _, heq => ⟨rfl, heq⟩
  | none, some d, _, _, hrest, _, heq => absurd heq (hstart d _ _ hrest)
  | some d, none, _, _, _, hrest', heq => absurd heq.symm (hstart d _ _ hrest')
  | some d, some d', _, _, hrest, hrest', heq => by
    obtain ⟨rfl, hends⟩ := h hrest hrest' heq
    exact ⟨rfl, hends⟩

theorem Delimited.moreItems (h : Delimited tokens follows)
    (hcomma : ∀ span rest, follows (Symbol.comma.lexeme span :: rest)) :
    Delimited (fun more : List (Span × δ) =>
        more.flatMap fun (comma, d) => Symbol.comma.lexeme comma :: tokens d)
      fun rest => follows rest ∧ Halts (exactly (.symbol .comma)) rest := by
  intro more more' rest rest' hrest hrest' heq
  induction more generalizing more' with
  | nil =>
    cases more' with
    | nil => exact ⟨rfl, heq⟩
    | cons => exact absurd heq (hrest.2.ne_cons rfl)
  | cons first more ih =>
    cases more' with
    | nil => exact absurd heq.symm (hrest'.2.ne_cons rfl)
    | cons first' more' =>
      obtain ⟨comma, d⟩ := first
      obtain ⟨comma', d'⟩ := first'
      simp only [List.flatMap_cons, List.cons_append, List.append_assoc, List.cons.injEq,
        Symbol.lexeme_eq_iff, true_and] at heq
      obtain ⟨rfl, hmore⟩ := h (follows_more follows hcomma hrest.1 more)
        (follows_more follows hcomma hrest'.1 more') heq.2
      obtain ⟨rfl, hends⟩ := ih hmore
      exact ⟨by rw [heq.1], hends⟩

theorem Delimited.commaList (h : Delimited tokens follows)
    (hcomma : ∀ span rest, follows (Symbol.comma.lexeme span :: rest)) :
    Delimited (CommaList.tokens tokens)
      fun rest => follows rest ∧ Halts (exactly (.symbol .comma)) rest := by
  rintro ⟨first, more⟩ ⟨first', more'⟩ rest rest' hrest hrest' heq
  simp only [CommaList.tokens, List.append_assoc] at heq
  obtain ⟨rfl, hmore⟩ := h (follows_more follows hcomma hrest.1 more)
    (follows_more follows hcomma hrest'.1 more') heq
  obtain ⟨rfl, hends⟩ := h.moreItems hcomma hrest hrest' hmore
  exact ⟨rfl, hends⟩

theorem Lines.delimitedAt (l : Lines δ) (h : ∀ d ∈ l.tree id, DelimitedAt tokens follows d)
    (hhead : ∀ d rest, Halts (exactly .newline) (tokens d ++ rest))
    (hbreak : ∀ span rest, follows (newline span :: rest))
    (hfollows : ∀ rest, ends rest → follows rest)
    (hnewline : ∀ rest, ends rest → Halts (exactly .newline) rest)
    (hstart : ∀ d rest rest', ends rest → rest ≠ tokens d ++ rest') :
    DelimitedAt (Lines.tokens tokens) ends l := by
  intro l' rest rest' hrest hrest' heq
  induction l generalizing l' with
  | done =>
    cases l' with
    | done => exact ⟨rfl, heq⟩
    | last d => exact absurd heq (hstart d _ _ hrest)
    | next d =>
      simp only [Lines.tokens, List.append_assoc, List.cons_append] at heq
      exact absurd heq (hstart d _ _ hrest)
  | last d =>
    cases l' with
    | done => exact absurd heq.symm (hstart d _ _ hrest')
    | last d' =>
      obtain ⟨rfl, hrests⟩ := h d List.mem_cons_self (hfollows _ hrest) (hfollows _ hrest') heq
      exact ⟨rfl, hrests⟩
    | next d' =>
      simp only [Lines.tokens, List.append_assoc, List.cons_append] at heq
      obtain ⟨-, hrests⟩ := h d List.mem_cons_self (hfollows _ hrest) (hbreak _ _) heq
      exact absurd hrests ((hnewline _ hrest).ne_cons rfl)
  | next d first blank l ih =>
    have hd := h d List.mem_cons_self
    have hl : ∀ d ∈ l.tree id, _ := fun d hmem => h d (List.mem_cons_of_mem _ hmem)
    simp only [Lines.tokens, List.append_assoc, List.cons_append] at heq
    cases l' with
    | done => exact absurd heq.symm (hstart d _ _ hrest')
    | last d' =>
      obtain ⟨-, hrests⟩ := hd (hbreak _ _) (hfollows _ hrest') heq
      exact absurd hrests.symm ((hnewline _ hrest').ne_cons rfl)
    | next d' first' blank' l' =>
      simp only [Lines.tokens, List.append_assoc, List.cons_append] at heq
      obtain ⟨rfl, hrests⟩ := hd (hbreak _ _) (hbreak _ _) heq
      simp only [List.cons.injEq, newline_eq_iff] at hrests
      obtain ⟨rfl, hlines⟩ := delimited_newlines (l.halts_newline hhead (hnewline _ hrest))
        (l'.halts_newline hhead (hnewline _ hrest')) hrests.2
      obtain ⟨rfl, hends⟩ := ih hl hlines
      exact ⟨by rw [hrests.1], hends⟩

end Items

/-! ## Loops -/

theorem delimited_signed : Delimited Signed.tokens fun _ => True := by
  rintro ⟨minus, number⟩ ⟨minus', number'⟩ rest rest' - - h
  have hminus : Delimited (fun o : Option Span => o.elim [] fun span => [Symbol.minus.lexeme span])
      (Halts (exactly (.symbol .minus))) :=
    .option (fun _ _ _ _ _ _ h => by simpa using h) fun _ _ _ h => h.ne_cons rfl
  simp only [Signed.tokens, List.append_assoc, List.cons_append, List.nil_append] at h
  obtain ⟨rfl, hnumber⟩ := hminus (halts_cons rfl) (halts_cons rfl) h
  simp only [List.cons.injEq, Number.lexeme_eq_iff] at hnumber
  exact ⟨by rw [hnumber.1], hnumber.2⟩

theorem delimited_access : Delimited Access.tokens fun _ => True := by
  rintro ⟨kind, keyword, array, left, indices, right⟩ ⟨kind', keyword', array', left', indices',
    right'⟩ rest rest' - - h
  have hindices : Delimited (CommaList.tokens Expr.tokens) fun rest =>
      (Halts productOp rest ∧ Halts sumOp rest) ∧ Halts (exactly (.symbol .comma)) rest :=
    .commaList (fun _ _ _ _ h h' => Expr.append_inj _ _ h.1 h.2 h'.1 h'.2)
      fun _ _ => ⟨halts_cons rfl, halts_cons rfl⟩
  simp only [Access.tokens, List.append_assoc, List.cons_append, List.nil_append,
    List.cons.injEq, Keyword.lexeme_eq_iff, Ident.lexeme_eq_iff, Symbol.lexeme_eq_iff,
    true_and] at h
  obtain ⟨⟨hkind, rfl⟩, rfl, rfl, h⟩ := h
  obtain ⟨rfl, hright⟩ := hindices ⟨⟨halts_cons rfl, halts_cons rfl⟩, halts_cons rfl⟩
    ⟨⟨halts_cons rfl, halts_cons rfl⟩, halts_cons rfl⟩ h
  simp only [List.cons.injEq, Symbol.lexeme_eq_iff, true_and] at hright
  obtain ⟨rfl, hrest⟩ := hright
  have : kind = kind' := by cases kind <;> cases kind' <;> simp_all [accessKeyword]
  exact ⟨by rw [this], hrest⟩

theorem delimited_head : Delimited Head.tokens (Halts (exactly .newline)) := by
  rintro ⟨var, equals, lower, upTo, upper, step, pipeline, left, blank⟩ ⟨var', equals', lower',
    upTo', upper', step', pipeline', left', blank'⟩ rest rest' hrest hrest' h
  have hstep : Delimited (fun o : Option (Span × Number) =>
        o.elim [] fun p => [Keyword.step.lexeme p.1, p.2.lexeme])
      (Halts (exactly (.keyword .step))) :=
    .option (fun _ _ _ _ _ _ h => by simpa [Prod.ext_iff, and_assoc] using h)
      fun _ _ _ h => h.ne_cons rfl
  have hpipeline : Delimited (fun o : Option Span =>
        o.elim [] fun span => [Keyword.pipeline.lexeme span])
      (Halts (exactly (.keyword .pipeline))) :=
    .option (fun _ _ _ _ _ _ h => by simpa using h) fun _ _ _ h => h.ne_cons rfl
  have hhalts : ∀ (o : Option Span) left rest, Halts (exactly (.keyword .step))
      ((o.elim [] fun span => [Keyword.pipeline.lexeme span]) ++
        Symbol.lbrace.lexeme left :: rest) := by
    rintro (_ | _) left rest <;> exact halts_cons rfl
  simp only [Head.tokens, List.append_assoc, List.cons_append, List.cons.injEq,
    Ident.lexeme_eq_iff, Symbol.lexeme_eq_iff, true_and] at h
  obtain ⟨rfl, rfl, h⟩ := h
  obtain ⟨rfl, h₁⟩ := delimited_signed trivial trivial h
  simp only [List.cons.injEq, Keyword.lexeme_eq_iff, true_and] at h₁
  obtain ⟨rfl, h₂⟩ := h₁
  obtain ⟨rfl, h₃⟩ := delimited_signed trivial trivial h₂
  obtain ⟨rfl, h₄⟩ := hstep (hhalts _ _ _) (hhalts _ _ _) h₃
  obtain ⟨rfl, h₅⟩ := hpipeline (halts_cons rfl) (halts_cons rfl) h₄
  simp only [List.cons.injEq, Symbol.lexeme_eq_iff, true_and] at h₅
  obtain ⟨rfl, h₆⟩ := h₅
  obtain ⟨rfl, hends⟩ := delimited_newlines hrest hrest' h₆
  exact ⟨rfl, hends⟩

theorem Access.ne_loop (a : Access) (l : Loop) : a.tokens ++ rest ≠ l.tokens ++ rest' := by
  have h : Halts (exactly (.keyword .loop)) (a.tokens ++ rest) := a.halts rfl rfl
  cases l
  exact h.ne_cons rfl

theorem Item.ne_rbrace (i : Item) (right : Span) :
    Symbol.rbrace.lexeme right :: rest ≠ i.tokens ++ rest' := by
  cases i with
  | loop l =>
    cases l
    exact fun h => by simp [Item.tokens, Loop.tokens, Symbol.lexeme, Keyword.lexeme] at h
  | access a =>
    exact fun h => by simp [Item.tokens, Access.tokens, Symbol.lexeme, Keyword.lexeme] at h

mutual

theorem Loop.delimitedAt : ∀ l : Loop, DelimitedAt Loop.tokens (fun _ => True) l
  | .mk keyword head items right => by
    rintro ⟨keyword', head', items', right'⟩ rest rest' - - h
    have hitems : DelimitedAt (Lines.tokens Item.tokens)
        (fun rest => ∃ right tail, rest = Symbol.rbrace.lexeme right :: tail) items := by
      refine Lines.delimitedAt items (Items.delimitedAt items) (fun i _ => i.halts_newline)
        (fun _ _ => trivial) (fun _ _ => trivial) ?_ ?_
      · rintro _ ⟨right, tail, rfl⟩
        exact halts_cons rfl
      · rintro i _ _ ⟨right, tail, rfl⟩
        exact i.ne_rbrace right
    simp only [Loop.tokens, List.append_assoc, List.cons_append, List.nil_append,
      List.cons.injEq, Keyword.lexeme_eq_iff, true_and] at h
    obtain ⟨rfl, hlines⟩ := delimited_head (Items.halts_newline items (halts_cons rfl))
      (Items.halts_newline items' (halts_cons rfl)) h.2
    rw [Items.tokens_eq, Items.tokens_eq] at hlines
    obtain ⟨rfl, hright⟩ := hitems ⟨_, _, rfl⟩ ⟨_, _, rfl⟩ hlines
    simp only [List.cons.injEq, Symbol.lexeme_eq_iff, true_and] at hright
    exact ⟨by rw [h.1, hright.1], hright.2⟩

theorem Item.delimitedAt : ∀ i : Item, DelimitedAt Item.tokens (fun _ => True) i
  | .loop l => by
    rintro (l' | a) rest rest' - - h
    · obtain ⟨rfl, hrest⟩ := l.delimitedAt trivial trivial h
      exact ⟨rfl, hrest⟩
    · exact absurd h.symm (a.ne_loop l)
  | .access a => by
    rintro (l | a') rest rest' - - h
    · exact absurd h (a.ne_loop l)
    · obtain ⟨rfl, hrest⟩ := delimited_access trivial trivial h
      exact ⟨rfl, hrest⟩

theorem Items.delimitedAt : ∀ items : Lines Item,
    ∀ i ∈ items.tree id, DelimitedAt Item.tokens (fun _ => True) i
  | .done => nofun
  | .last i => List.forall_mem_singleton.mpr i.delimitedAt
  | .next i _ _ items => List.forall_mem_cons.mpr ⟨i.delimitedAt, Items.delimitedAt items⟩

end

/-! ## Statements -/

theorem delimited_setting : Delimited Setting.tokens fun _ => True := by
  rintro ⟨keyword, name, equals, value⟩ ⟨keyword', name', equals', value'⟩ rest rest' - - h
  simp only [Setting.tokens, List.cons_append, List.nil_append, List.cons.injEq,
    Keyword.lexeme_eq_iff, Ident.lexeme_eq_iff, Symbol.lexeme_eq_iff, true_and] at h
  obtain ⟨rfl, rfl, rfl, hvalue, hrest⟩ := h
  refine ⟨?_, hrest⟩
  cases value with
  | int n =>
    cases value' with
    | int n' => rw [Number.lexeme_eq_iff.mp hvalue]
    | ident x' => simp [Number.lexeme, Ident.lexeme] at hvalue
  | ident x =>
    cases value' with
    | int n' => simp [Number.lexeme, Ident.lexeme] at hvalue
    | ident x' => rw [Ident.lexeme_eq_iff.mp hvalue]

theorem delimited_array : Delimited Array.tokens (Halts (exactly (.symbol .atSign))) := by
  rintro ⟨keyword, name, left, shape, right, colon, type, space⟩ ⟨keyword', name', left', shape',
    right', colon', type', space'⟩ rest rest' hrest hrest' h
  have hshape : Delimited (CommaList.tokens fun n : Number => [n.lexeme])
      fun rest => True ∧ Halts (exactly (.symbol .comma)) rest :=
    .commaList (fun _ _ _ _ _ _ h => by simpa using h) fun _ _ => trivial
  have hspace : Delimited (fun o : Option (Span × Number) =>
        o.elim [] fun p => [Symbol.atSign.lexeme p.1, p.2.lexeme])
      (Halts (exactly (.symbol .atSign))) :=
    .option (fun _ _ _ _ _ _ h => by simpa [Prod.ext_iff, and_assoc] using h)
      fun _ _ _ h => h.ne_cons rfl
  simp only [Array.tokens, List.append_assoc, List.cons_append, List.cons.injEq,
    Keyword.lexeme_eq_iff, Ident.lexeme_eq_iff, Symbol.lexeme_eq_iff, true_and] at h
  obtain ⟨rfl, rfl, rfl, h⟩ := h
  obtain ⟨rfl, h₁⟩ := hshape ⟨trivial, halts_cons rfl⟩ ⟨trivial, halts_cons rfl⟩ h
  simp only [List.cons.injEq, Ident.lexeme_eq_iff, Symbol.lexeme_eq_iff, true_and] at h₁
  obtain ⟨rfl, rfl, rfl, h₂⟩ := h₁
  obtain ⟨rfl, hends⟩ := hspace hrest hrest' h₂
  exact ⟨rfl, hends⟩

theorem delimited_names : Delimited Names.tokens fun _ => True := by
  rintro ⟨left, all, right⟩ ⟨left', all', right'⟩ rest rest' - - h
  have hall : Delimited (fun o : Option (CommaList Ident) =>
        o.elim [] fun l => l.tokens fun x => [x.lexeme])
      fun rest => Halts identName rest ∧ Halts (exactly (.symbol .comma)) rest :=
    .option (.mono (.commaList (fun _ _ _ _ _ _ h => by simpa using h) fun _ _ => trivial)
      fun _ h => ⟨trivial, h.2⟩) fun _ _ _ h => h.1.ne_cons rfl
  simp only [Names.tokens, List.append_assoc, List.cons_append, List.nil_append, List.cons.injEq,
    Symbol.lexeme_eq_iff, true_and] at h
  obtain ⟨rfl, h⟩ := h
  obtain ⟨rfl, hright⟩ := hall ⟨halts_cons rfl, halts_cons rfl⟩ ⟨halts_cons rfl, halts_cons rfl⟩ h
  simp only [List.cons.injEq, Symbol.lexeme_eq_iff, true_and] at hright
  exact ⟨by rw [hright.1], hright.2⟩

theorem delimited_node : Delimited Node.tokens (Halts (exactly (.symbol .arrow))) := by
  rintro ⟨keyword, name, inputs, outputs⟩ ⟨keyword', name', inputs', outputs'⟩ rest rest' hrest
    hrest' h
  have houtputs : Delimited (fun o : Option (Span × Names) =>
        o.elim [] fun p => Symbol.arrow.lexeme p.1 :: p.2.tokens)
      (Halts (exactly (.symbol .arrow))) := by
    refine .option ?_ fun _ _ _ h => h.ne_cons rfl
    rintro ⟨span, l⟩ ⟨span', l'⟩ rest rest' - - h
    simp only [List.cons_append, List.cons.injEq, Symbol.lexeme_eq_iff, true_and] at h
    obtain ⟨rfl, hrest⟩ := delimited_names trivial trivial h.2
    exact ⟨by rw [h.1], hrest⟩
  simp only [Node.tokens, List.append_assoc, List.cons_append, List.cons.injEq,
    Keyword.lexeme_eq_iff, Ident.lexeme_eq_iff, true_and] at h
  obtain ⟨rfl, rfl, h⟩ := h
  obtain ⟨rfl, h₁⟩ := delimited_names trivial trivial h
  obtain ⟨rfl, hends⟩ := houtputs hrest hrest' h₁
  exact ⟨rfl, hends⟩

theorem delimited_region : Delimited Region.tokens fun _ => True := by
  rintro ⟨keyword, name, left, blank, nodes, right⟩ ⟨keyword', name', left', blank', nodes',
    right'⟩ rest rest' - - h
  have hnodes : Delimited (Lines.tokens Node.tokens)
      fun rest => ∃ right rest', rest = Symbol.rbrace.lexeme right :: rest' := by
    refine fun l => l.delimitedAt (fun d _ => @delimited_node d) (fun _ _ => halts_cons rfl)
      (fun _ _ => halts_cons rfl) ?_ ?_ ?_
    · rintro _ ⟨right, rest, rfl⟩
      exact halts_cons rfl
    · rintro _ ⟨right, rest, rfl⟩
      exact halts_cons rfl
    · rintro node _ rest' ⟨right, rest, rfl⟩ h
      simp [Node.tokens, Symbol.lexeme, Keyword.lexeme] at h
  have hhalts : ∀ (l : Lines Node) right rest, Halts (exactly .newline)
      (l.tokens Node.tokens ++ Symbol.rbrace.lexeme right :: rest) := fun l _ _ =>
    l.halts_newline (fun _ _ => halts_cons rfl) (halts_cons rfl)
  simp only [Region.tokens, List.append_assoc, List.cons_append, List.nil_append,
    List.cons.injEq, Keyword.lexeme_eq_iff, Ident.lexeme_eq_iff, Symbol.lexeme_eq_iff,
    true_and] at h
  obtain ⟨rfl, rfl, rfl, h⟩ := h
  obtain ⟨rfl, h₁⟩ := delimited_newlines (hhalts _ _ _) (hhalts _ _ _) h
  obtain ⟨rfl, hright⟩ := hnodes ⟨_, _, rfl⟩ ⟨_, _, rfl⟩ h₁
  simp only [List.cons.injEq, Symbol.lexeme_eq_iff, true_and] at hright
  exact ⟨by rw [hright.1], hright.2⟩

/-- The keyword that a statement starts with. -/
def Statement.keyword : Statement → Keyword
  | setting _ => .set
  | array _ => .array
  | loop _ => .loop
  | region _ => .region

theorem Statement.exists_tokens_eq (s : Statement) :
    ∃ span tail, s.tokens = s.keyword.lexeme span :: tail := by
  cases s with
  | loop l => cases l; exact ⟨_, _, rfl⟩
  | _ => exact ⟨_, _, rfl⟩

theorem delimited_statement : Delimited Statement.tokens (Halts (exactly (.symbol .atSign))) := by
  intro s s' rest rest' hrest hrest' h
  have hkeyword : s.keyword = s'.keyword := by
    obtain ⟨_, _, hs⟩ := s.exists_tokens_eq
    obtain ⟨_, _, hs'⟩ := s'.exists_tokens_eq
    rw [hs, hs'] at h
    exact (Keyword.lexeme_eq_iff.mp (List.cons.inj h).1).1
  cases s <;> cases s' <;> try cases hkeyword
  case setting.setting s s' =>
    obtain ⟨rfl, hends⟩ := delimited_setting trivial trivial h
    exact ⟨rfl, hends⟩
  case array.array a a' =>
    obtain ⟨rfl, hends⟩ := delimited_array hrest hrest' h
    exact ⟨rfl, hends⟩
  case loop.loop l l' =>
    obtain ⟨rfl, hends⟩ := l.delimitedAt trivial trivial h
    exact ⟨rfl, hends⟩
  case region.region r r' =>
    obtain ⟨rfl, hends⟩ := delimited_region trivial trivial h
    exact ⟨rfl, hends⟩

/-- A program has one derivation. -/
theorem Program.tokens_injective : Function.Injective Program.tokens := by
  rintro ⟨blank, statements⟩ ⟨blank', statements'⟩ h
  have hstatements : Delimited (Lines.tokens Statement.tokens) (· = []) := by
    refine fun l => l.delimitedAt (fun d _ => @delimited_statement d)
      (fun s _ => s.halts_newline) (fun _ _ => halts_cons rfl) ?_ ?_ ?_
    · rintro _ rfl
      exact halts_nil _
    · rintro _ rfl
      exact halts_nil _
    · rintro s _ rest' rfl h
      obtain ⟨_, _, hs⟩ := s.exists_tokens_eq
      simp [hs] at h
  have hhalts : ∀ l : Lines Statement, Halts (exactly .newline) (l.tokens Statement.tokens) := by
    intro l
    simpa using l.halts_newline (fun s _ => s.halts_newline) (halts_nil _)
  obtain ⟨rfl, hlines⟩ := delimited_newlines (hhalts _) (hhalts _) h
  obtain ⟨rfl, -⟩ := hstatements rfl rfl (congrArg (· ++ []) hlines)
  rfl

end Phrase

/-- Tokens are parsed to a program exactly when they are derived from the grammar; then the
derivation is the only one, and the program is its tree. What they are parsed to is what they
are read as by ordered choice with rewinding. -/
theorem programOf_eq_ok_iff_derived (tokens : List Lexeme) (length : Nat) :
    ((∃ p, programOf tokens length = .ok p) ↔ ∃ d : Phrase.Program, d.tokens = tokens) ∧
      (∀ d : Phrase.Program, d.tokens = tokens →
        programOf tokens length = .ok (d.tree length) ∧
          ∀ d' : Phrase.Program, d'.tokens = tokens → d' = d) ∧
      ∀ r, Rewinds tokens length r ↔ r = programOf tokens length := by
  refine ⟨⟨fun ⟨_, h⟩ => Phrase.Program.exists_of_programOf h, ?_⟩, ?_, fun r => rewinds_iff⟩
  · rintro ⟨d, rfl⟩
    exact ⟨_, d.programOf_tokens length⟩
  · rintro d rfl
    exact ⟨d.programOf_tokens length, fun d' h => Phrase.Program.tokens_injective h⟩

end Bankflow.Source
