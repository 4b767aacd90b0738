import Bankflow.Design.OfProgram
import Bankflow.Proofs.Expr.Value
import Bankflow.Proofs.Source.Printing

/-!
# The text of an expression reads back

Read as an index in a scope that numbers its names, the text of an expression gives the
expression again, folded (`Expr.rebuild`): the grouping of the phrase is that of the tree,
and what was written as a difference becomes a sum again. The least word has no text that
can be read, so it must not occur.
-/

namespace Bankflow

open Source

/-! ## Longer phrases -/

namespace Source.Phrase

/-- Summands with one more at the end. -/
def Summands.snoc (sign : SumSign) (span : Span) (t : Term) : Summands → Summands
  | .done => .more sign span t .done
  | .more sign' span' t' rest => .more sign' span' t' (rest.snoc sign span t)

theorem Summands.tokens_snoc (sign : SumSign) (span : Span) (t : Term) :
    ∀ f : Summands, (f.snoc sign span t).tokens = f.tokens ++ ⟨sign.token, span⟩ :: t.tokens
  | .done => by simp [Summands.snoc, Summands.tokens]
  | .more .. => by simp [Summands.snoc, Summands.tokens, tokens_snoc]

theorem Summands.tree_snoc (sign : SumSign) (span : Span) (t : Term) :
    ∀ (f : Summands) (left : Index),
      (f.snoc sign span t).tree left = .binary sign.op (f.tree left) t.tree
  | .done, _ => rfl
  | .more _ _ _ f, _ => tree_snoc sign span t f _

/-- A sum with one more summand. -/
def Expr.snoc (sign : SumSign) (span : Span) (t : Term) : Expr → Expr
  | .mk first rest => .mk first (rest.snoc sign span t)

theorem Expr.tokens_snoc (sign : SumSign) (span : Span) (t : Term) (e : Expr) :
    (e.snoc sign span t).tokens = e.tokens ++ ⟨sign.token, span⟩ :: t.tokens := by
  cases e
  simp [Expr.snoc, Expr.tokens, Summands.tokens_snoc]

theorem Expr.tree_snoc (sign : SumSign) (span : Span) (t : Term) (e : Expr) :
    (e.snoc sign span t).tree = .binary sign.op e.tree t.tree := by
  cases e
  exact Summands.tree_snoc sign span t _ _

/-- Factors with one more at the end. -/
def Factors.snoc (sign : ProductSign) (span : Span) (u : Unary) : Factors → Factors
  | .done => .more sign span u .done
  | .more sign' span' u' rest => .more sign' span' u' (rest.snoc sign span u)

theorem Factors.tokens_snoc (sign : ProductSign) (span : Span) (u : Unary) :
    ∀ f : Factors, (f.snoc sign span u).tokens = f.tokens ++ ⟨sign.token, span⟩ :: u.tokens
  | .done => by simp [Factors.snoc, Factors.tokens]
  | .more .. => by simp [Factors.snoc, Factors.tokens, tokens_snoc]

theorem Factors.tree_snoc (sign : ProductSign) (span : Span) (u : Unary) :
    ∀ (f : Factors) (left : Index),
      (f.snoc sign span u).tree left = .binary sign.op (f.tree left) u.tree
  | .done, _ => rfl
  | .more _ _ _ f, _ => tree_snoc sign span u f _

/-- A product with one more factor. -/
def Term.snoc (sign : ProductSign) (span : Span) (u : Unary) : Term → Term
  | .mk first rest => .mk first (rest.snoc sign span u)

theorem Term.tokens_snoc (sign : ProductSign) (span : Span) (u : Unary) (t : Term) :
    (t.snoc sign span u).tokens = t.tokens ++ ⟨sign.token, span⟩ :: u.tokens := by
  cases t
  simp [Term.snoc, Term.tokens, Factors.tokens_snoc]

theorem Term.tree_snoc (sign : ProductSign) (span : Span) (u : Unary) (t : Term) :
    (t.snoc sign span u).tree = .binary sign.op t.tree u.tree := by
  cases t
  exact Factors.tree_snoc sign span u _ _

end Source.Phrase

/-! ## Folded expressions -/

namespace Expr

/-- The expression built again from its leaves, with constants folded. -/
def rebuild : Expr → Expr
  | const v => const v
  | dim k => dim k
  | node op l r => combine op l.rebuild r.rebuild

/-- The constants that occur, from left to right. -/
def constants : Expr → List Int64
  | const v => [v]
  | dim _ => []
  | node _ l r => l.constants ++ r.constants

theorem combine_cases (op : Op) (l r : Expr) :
    combine op l r = node op l r ∨ ∃ v, combine op l r = const v := by
  unfold combine
  split
  · split
    · exact .inr ⟨_, rfl⟩
    · exact .inl rfl
  · exact .inl rfl

theorem rebuild_combine {l r : Expr} (hl : l.rebuild = l) (hr : r.rebuild = r) (op : Op) :
    (combine op l r).rebuild = combine op l r := by
  rcases combine_cases op l r with h | ⟨v, h⟩
  · rw [h, rebuild, hl, hr, h]
  · rw [h, rebuild]

theorem rebuild_build {a b : Expr} (ha : a.rebuild = a) (hb : b.rebuild = b) (op : IndexOp) :
    (op.build a b).rebuild = op.build a b := by
  cases op with
  | sub => exact rebuild_combine ha (rebuild_combine hb rfl .mul) .add
  | _ => exact rebuild_combine ha hb _

/-- The expressions of indices are folded. -/
theorem rebuild_lower? {scope : Scope} {i : Index} {e : Expr} (h : i.lower? scope = some e) :
    e.rebuild = e := by
  induction i generalizing e with
  | int n =>
    cases h
    rfl
  | var x =>
    obtain ⟨k, -, rfl⟩ := Option.map_eq_some_iff.mp h
    rfl
  | neg i _ ih =>
    obtain ⟨a, ha, rfl⟩ := Option.map_eq_some_iff.mp h
    exact rebuild_combine (ih ha) rfl .mul
  | binary op l r ihl ihr =>
    simp only [Index.lower?, Option.bind_eq_bind, Option.bind_eq_some_iff, Option.some.injEq] at h
    obtain ⟨a, ha, b, hb, rfl⟩ := h
    exact rebuild_build (ihl ha) (ihr hb) op

theorem mem_dims_of_mem_combine {op : Op} {l r : Expr} {k : Nat} (hk : k ∈ (combine op l r).dims) :
    k ∈ l.dims ∨ k ∈ r.dims := by
  rcases combine_cases op l r with h | ⟨v, h⟩ <;> rw [h] at hk
  · exact List.mem_append.mp hk
  · cases hk

theorem mem_dims_of_mem_build {op : IndexOp} {a b : Expr} {k : Nat} (hk : k ∈ (op.build a b).dims) :
    k ∈ a.dims ∨ k ∈ b.dims := by
  cases op with
  | sub =>
    refine (mem_dims_of_mem_combine hk).imp_right fun hneg => ?_
    exact (mem_dims_of_mem_combine hneg).resolve_right List.not_mem_nil
  | _ => exact mem_dims_of_mem_combine hk

/-- The dimensions of an index are variables of its scope. -/
theorem find?_of_mem_dims {scope : Scope} {i : Index} {e : Expr} {k : Nat}
    (h : i.lower? scope = some e) (hk : k ∈ e.dims) : ∃ name, scope.find? name = some k := by
  induction i generalizing e with
  | int n =>
    cases h
    cases hk
  | var x =>
    obtain ⟨j, hj, rfl⟩ := Option.map_eq_some_iff.mp h
    obtain rfl := List.mem_singleton.mp hk
    exact ⟨x.name, hj⟩
  | neg i _ ih =>
    obtain ⟨a, ha, rfl⟩ := Option.map_eq_some_iff.mp h
    exact ih ha ((mem_dims_of_mem_combine hk).resolve_right List.not_mem_nil)
  | binary op l r ihl ihr =>
    simp only [Index.lower?, Option.bind_eq_bind, Option.bind_eq_some_iff, Option.some.injEq] at h
    obtain ⟨a, ha, b, hb, rfl⟩ := h
    exact (mem_dims_of_mem_build hk).elim (ihl ha) (ihr hb)

theorem neg_const {u v : Int64} (h : u.toInt = -v.toInt) : -(const u) = const v := by
  have happly : Op.apply .mul u (-1) = some v := by
    refine Word.ofInt?_eq_some_iff.mpr ?_
    rw [h, show (-1 : Int64).toInt = -1 from rfl]
    omega
  show combine .mul (const u) (const (-1)) = const v
  rw [combine, happly]

/-! ## Phrases of expressions -/

/-- What can be read back: each dimension has a name that the scope knows by its number,
and no constant is the least word. -/
structure Readable (names : List String) (scope : Scope) (e : Expr) : Prop where
  dims : ∀ k ∈ e.dims, ∃ name, names[k]? = some name ∧ IsName name ∧ scope.find? name = some k
  constants : Int64.minValue ∉ e.constants

theorem Readable.left {names : List String} {scope : Scope} {op : Op} {l r : Expr}
    (h : (node op l r).Readable names scope) : l.Readable names scope where
  dims k hk := h.dims k (List.mem_append_left _ hk)
  constants hmem := h.constants (List.mem_append_left _ hmem)

theorem Readable.right {names : List String} {scope : Scope} {op : Op} {l r : Expr}
    (h : (node op l r).Readable names scope) : r.Readable names scope where
  dims k hk := h.dims k (List.mem_append_right _ hk)
  constants hmem := h.constants (List.mem_append_right _ hmem)

theorem Readable.least_lt {names : List String} {scope : Scope} {v : Int64}
    (h : (const v).Readable names scope) : Word.least < v.toInt := by
  refine Int.lt_iff_le_and_ne.mpr ⟨Word.least_le_toInt v, fun heq => h.constants ?_⟩
  rw [Int64.toInt_inj.mp (show Int64.minValue.toInt = v.toInt from heq)]
  exact List.mem_singleton_self v

/-- The text of an expression at each place is a phrase of the kind that may stand there. -/
structure Printed (names : List String) (scope : Scope) (e : Expr) : Prop where
  alone : Prints (e.textAt names .alone) Phrase.Expr.tokens
    fun d => d.tree.lower? scope = some e.rebuild
  summand : Prints (e.textAt names .summand) Phrase.Expr.tokens
    fun d => d.tree.lower? scope = some e.rebuild
  factor : Prints (e.textAt names .factor) Phrase.Term.tokens
    fun d => d.tree.lower? scope = some e.rebuild
  divisor : Prints (e.textAt names .divisor) Phrase.Unary.tokens
    fun d => d.tree.lower? scope = some e.rebuild

variable {names : List String} {scope : Scope}

theorem prints_term {s : String} {a : Expr}
    (h : Prints s Phrase.Unary.tokens fun d => d.tree.lower? scope = some a) :
    Prints s Phrase.Term.tokens fun d => d.tree.lower? scope = some a :=
  h.map (.mk · .done) (fun _ => List.append_nil _) fun _ hd => hd

theorem prints_expr {s : String} {a : Expr}
    (h : Prints s Phrase.Term.tokens fun d => d.tree.lower? scope = some a) :
    Prints s Phrase.Expr.tokens fun d => d.tree.lower? scope = some a :=
  h.map (.mk · .done) (fun _ => List.append_nil _) fun _ hd => hd

theorem prints_brackets {s : String} {a : Expr}
    (h : Prints s Phrase.Expr.tokens fun d => d.tree.lower? scope = some a) :
    Prints (bracket true s) Phrase.Unary.tokens fun d => d.tree.lower? scope = some a := by
  intro rest R _ hR
  show Lexes ("(" ++ s ++ ")" ++ rest) R
  rw [String.append_assoc, String.append_assoc]
  refine Lexes.mark .lparen nofun fun left => ?_
  refine h _ _ (Apart.append (by decide) (by decide)) fun d hd => ?_
  refine Lexes.mark .rparen nofun fun right => ?_
  simpa only [Phrase.Unary.tokens, List.cons_append, List.append_assoc, List.nil_append]
    using hR (.brackets left d right) hd

/-- An expression that never needs brackets. -/
theorem Printed.of_unary {e : Expr} {s : String} (htext : ∀ place, e.textAt names place = s)
    (h : Prints s Phrase.Unary.tokens fun d => d.tree.lower? scope = some e.rebuild) :
    e.Printed names scope := by
  constructor
  · rw [htext]; exact prints_expr (prints_term h)
  · rw [htext]; exact prints_expr (prints_term h)
  · rw [htext]; exact prints_term h
  · rw [htext]; exact h

theorem Printed.of_term {e : Expr} {s : String}
    (htext : ∀ place, e.textAt names place = bracket place.bracketsProduct s)
    (h : Prints s Phrase.Term.tokens fun d => d.tree.lower? scope = some e.rebuild) :
    e.Printed names scope := by
  constructor
  · rw [htext]; exact prints_expr h
  · rw [htext]; exact prints_expr h
  · rw [htext]; exact h
  · rw [htext]; exact prints_brackets (prints_expr h)

theorem Printed.of_expr {e : Expr} {s : String}
    (htext : ∀ place, e.textAt names place = bracket place.bracketsSum s)
    (h : Prints s Phrase.Expr.tokens fun d => d.tree.lower? scope = some e.rebuild) :
    e.Printed names scope := by
  constructor
  · rw [htext]; exact h
  · rw [htext]; exact h
  · rw [htext]; exact prints_term (prints_brackets h)
  · rw [htext]; exact prints_brackets h

/-! ## Leaves -/

theorem Printed.const {v : Int64} (hv : Word.least < v.toInt) : (const v).Printed names scope := by
  refine .of_unary (fun _ => rfl) ?_
  intro rest R hrest hR
  refine Lexes.integer hv hrest (fun span => hR (.int ⟨v, span⟩) rfl) fun u minus span hu => ?_
  exact hR (.neg minus (.int ⟨u, span⟩)) (congrArg some (neg_const hu))

theorem Printed.dim {k : Nat} {name : String} (hname : names[k]? = some name) (hs : IsName name)
    (hk : scope.find? name = some k) : (dim k).Printed names scope := by
  have htext : dimText names k = name := by rw [dimText, hname]
  refine .of_unary (fun _ => htext) fun rest R hrest hR => ?_
  refine Lexes.name hs hrest fun span => hR (.var ⟨name, span⟩) ?_
  show (scope.find? name).map Expr.dim = _
  rw [hk]
  rfl

/-! ## Products -/

theorem textAt_product {op : Op} (hop : op ≠ .add) (l r : Expr) (place : Place) :
    (node op l r).textAt names place = bracket place.bracketsProduct
      (l.textAt names .factor ++ " " ++ op.symbol ++ " " ++ r.textAt names .divisor) := by
  cases op with
  | add => exact absurd rfl hop
  | _ => rfl

/-- The sign of an operator other than `+`. -/
theorem exists_sign {op : Op} (hop : op ≠ .add) :
    ∃ sign : Phrase.ProductSign, sign.op.build = combine op ∧
      ∀ (rest : String) (R : List Lexeme → Prop),
        (∀ span, Lexes rest fun us => R (⟨sign.token, span⟩ :: us)) →
          Lexes (" " ++ op.symbol ++ " " ++ rest) R := by
  cases op with
  | add => exact absurd rfl hop
  | mul => exact ⟨.star, rfl, fun _ _ => .spacedMark .star 1 1 rfl nofun⟩
  | mod => exact ⟨.mod, rfl, fun _ _ => .spacedKeyword .mod 1 1 rfl nofun⟩
  | floorDiv => exact ⟨.floorDiv, rfl, fun _ _ => .spacedKeyword .floorDiv 1 1 rfl nofun⟩
  | ceilDiv => exact ⟨.ceilDiv, rfl, fun _ _ => .spacedKeyword .ceilDiv 1 1 rfl nofun⟩

theorem Printed.product {op : Op} (hop : op ≠ .add) {l r : Expr} (hl : l.Printed names scope)
    (hr : r.Printed names scope) : (node op l r).Printed names scope := by
  obtain ⟨sign, hbuild, hsign⟩ := exists_sign hop
  simp only [String.append_assoc] at hsign
  refine .of_term (textAt_product hop l r) fun rest R hrest hR => ?_
  simp only [String.append_assoc]
  refine hl.factor _ _ (Apart.append (by decide) (by decide)) fun t ht => ?_
  refine hsign _ _ fun span => ?_
  refine hr.divisor _ _ hrest fun u hu => ?_
  have hlower : (t.snoc sign span u).tree.lower? scope = some (node op l r).rebuild := by
    simp only [Phrase.Term.tree_snoc, Index.lower?, ht, hu, hbuild]
    rfl
  simpa only [Phrase.Term.tokens_snoc, List.append_assoc, List.cons_append] using hR _ hlower

/-! ## Sums -/

/-- What stands after the left side of a sum. -/
def sumTail (names : List String) (r : Expr) : String :=
  match r with
  | const c => if c < 0 then " - " ++ toString c.toInt.natAbs else " + " ++ toString c.toInt
  | node .mul x (const c) =>
    if c = -1 then " - " ++ x.textAt names .factor else " + " ++ r.textAt names .factor
  | _ => " + " ++ r.textAt names .factor

theorem textAt_sum (l r : Expr) (place : Place) :
    (node .add l r).textAt names place =
      bracket place.bracketsSum (l.textAt names .summand ++ sumTail names r) := by
  unfold sumTail
  split
  · rfl
  · rfl
  · next h₁ h₂ => rw [textAt, String.append_assoc] <;> assumption

/-- A right side is subtracted or added. -/
theorem sumTail_cases (names : List String) (r : Expr) :
    (∃ c, r = const c ∧ c.toInt < 0 ∧ sumTail names r = " - " ++ toString c.toInt.natAbs) ∨
      (∃ x, r = node .mul x (const (-1)) ∧ sumTail names r = " - " ++ x.textAt names .factor) ∨
        sumTail names r = " + " ++ r.textAt names .factor := by
  unfold sumTail
  split
  · next c =>
    split
    · next hc => exact .inl ⟨c, rfl, Int64.lt_iff_toInt_lt.mp hc, rfl⟩
    · exact .inr (.inr rfl)
  · next x c =>
    split
    · next hc => exact .inr (.inl ⟨x, hc ▸ rfl, rfl⟩)
    · exact .inr (.inr rfl)
  · exact .inr (.inr rfl)

/-- The phrase after the left side `a` of a sum: subtracting what it means, or adding it,
gives the sum. -/
theorem prints_sumTail {r : Expr} (hreadable : r.Readable names scope)
    (hr : r.Printed names scope)
    (hx : ∀ x, r = node .mul x (const (-1)) → x.Printed names scope) :
    Prints (sumTail names r)
      (fun d : Phrase.SumSign × Span × Phrase.Term => ⟨d.1.token, d.2.1⟩ :: d.2.2.tokens)
      fun d => ∃ b, d.2.2.tree.lower? scope = some b ∧
        ∀ a, d.1.op.build a b = combine .add a r.rebuild := by
  intro rest R hrest hR
  rcases sumTail_cases names r with ⟨c, rfl, hc, htail⟩ | ⟨x, rfl, htail⟩ | htail
  · obtain ⟨n, hn⟩ : ∃ n : Nat, c.toInt = -n := ⟨c.toInt.natAbs, by omega⟩
    obtain ⟨u, hu⟩ : ∃ u : Int64, u.toInt = n := by
      have hlo := hreadable.least_lt
      refine ⟨Int64.ofNat n, Word.toInt_ofNat_of_le ?_⟩
      simp only [Word.least, Word.greatest] at *
      omega
    rw [htail, hn, Int.natAbs_neg, Int.natAbs_natCast, String.append_assoc]
    refine Lexes.spacedMark .minus 1 1 rfl (by decide) fun span => ?_
    refine Lexes.natural hu hrest fun at₀ => ?_
    refine hR (.minus, span, .mk (.int ⟨u, at₀⟩) .done) ⟨const u, rfl, fun a => ?_⟩
    show a + -(const u) = a + const c
    rw [neg_const (v := c) (by omega)]
  · rw [htail, String.append_assoc]
    refine Lexes.spacedMark .minus 1 1 rfl (by decide) fun span => ?_
    refine (hx x rfl).factor _ _ hrest fun t ht => ?_
    exact hR (.minus, span, t) ⟨x.rebuild, ht, fun _ => rfl⟩
  · rw [htail, String.append_assoc]
    refine Lexes.spacedMark .plus 1 1 rfl nofun fun span => ?_
    refine hr.factor _ _ hrest fun t ht => ?_
    exact hR (.plus, span, t) ⟨r.rebuild, ht, fun _ => rfl⟩

theorem apart_sumTail (names : List String) (r : Expr) (rest : String) :
    Apart (sumTail names r ++ rest) := by
  rcases sumTail_cases names r with ⟨_, -, -, htail⟩ | ⟨_, -, htail⟩ | htail <;>
  · rw [htail, String.append_assoc]
    exact Apart.append (by decide) (by decide)

theorem Printed.sum {l r : Expr} (hreadable : r.Readable names scope)
    (hl : l.Printed names scope) (hr : r.Printed names scope)
    (hx : ∀ x, r = node .mul x (Expr.const (-1)) → x.Printed names scope) :
    (node .add l r).Printed names scope := by
  refine .of_expr (textAt_sum l r) fun rest R hrest hR => ?_
  rw [String.append_assoc]
  refine hl.summand _ _ (apart_sumTail names r rest) fun e he => ?_
  refine prints_sumTail hreadable hr hx _ _ hrest fun (sign, span, t) ⟨b, ht, hbuild⟩ => ?_
  have hlower : (e.snoc sign span t).tree.lower? scope = some (node .add l r).rebuild := by
    simp only [Phrase.Expr.tree_snoc, Index.lower?, he, ht]
    exact congrArg some (hbuild l.rebuild)
  simpa only [Phrase.Expr.tokens_snoc, List.append_assoc, List.cons_append] using hR _ hlower

/-- What can be read back is written so at every place. A product with `-1` has to be known
to its left side too, for that is all a sum writes of it. -/
theorem printed_of_readable {e : Expr} (h : e.Readable names scope) :
    e.Printed names scope ∧ ∀ x, e = node .mul x (const (-1)) → x.Printed names scope := by
  induction e with
  | const v => exact ⟨.const h.least_lt, nofun⟩
  | dim k =>
    obtain ⟨name, hname, hs, hk⟩ := h.dims k (List.mem_singleton_self k)
    exact ⟨.dim hname hs hk, nofun⟩
  | node op l r ihl ihr =>
    have hl := (ihl h.left).1
    have hr := ihr h.right
    refine ⟨?_, by rintro x ⟨⟩; exact hl⟩
    by_cases hop : op = .add
    · subst hop
      exact .sum h.right hl hr.1 hr.2
    · exact .product hop hl hr.1

/-- The text of an index's expression reads back, in a scope that numbers the names it is
written with. -/
theorem prints_textWith {i : Index} {e : Expr} (h : i.lower? scope = some e)
    (hnames : ∀ name k, scope.find? name = some k → names[k]? = some name ∧ IsName name)
    (hconst : Int64.minValue ∉ e.constants) :
    Prints (e.textWith names) Phrase.Expr.tokens fun d => d.tree.lower? scope = some e := by
  have hreadable : e.Readable names scope := by
    refine ⟨fun k hk => ?_, hconst⟩
    obtain ⟨name, hname⟩ := find?_of_mem_dims h hk
    exact ⟨name, (hnames name k hname).1, (hnames name k hname).2, hname⟩
  have hprints := (printed_of_readable hreadable).1.alone
  rwa [rebuild_lower? h] at hprints

end Expr

end Bankflow
