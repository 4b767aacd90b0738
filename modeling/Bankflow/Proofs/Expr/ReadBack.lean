import Bankflow.Proofs.Design.Meaning
import Bankflow.Proofs.Expr.Text
import Bankflow.Proofs.Source.Reading

/-!
# Writing and reading an expression folds it

The text of an expression can be read as an index by itself (`Source.Index.ofText?`), and
the expression of that index is the one that was written, folded from its leaves up
(`Expr.textWith_reads_back`). Folding keeps the result of every evaluation
(`Expr.eval_rebuild`) and changes nothing in expressions that were put together by
`Expr.combine` (`Expr.folded_iff_rebuild_eq`), so among these no two have the same text.
-/

namespace Bankflow

open Source

/-! ## Reading an index by itself -/

/-- The index that some tokens are, if all of them can be read as one. -/
def Source.Index.ofTokens? (tokens : List Lexeme) : Option Index :=
  match expr ⟨tokens, 0, []⟩ with
  | .ok p => if p.next.rest = [] then some p.value else none
  | .error _ => none

/-- The index that a text is, if nothing in it is stray. -/
def Source.Index.ofText? (text : String) : Option Index :=
  if (lex text).errors = [] then ofTokens? (lex text).tokens else none

theorem Source.Index.ofTokens?_tokens (d : Phrase.Expr) : ofTokens? d.tokens = some d.tree := by
  obtain ⟨p, hp, hvalue, hrest, -⟩ :=
    Phrase.Expr.reads 0 [] (halts_nil _) (halts_nil _) d ⟨d.tokens, 0, []⟩
      (List.append_nil _).symm rfl
  simp only [ofTokens?, hp, hrest, hvalue, if_true]

theorem Source.Index.exists_ofText?_of_prints {s : String} {P : Phrase.Expr → Prop}
    (h : Prints s Phrase.Expr.tokens P) : ∃ d, P d ∧ ofText? s = some d.tree := by
  have hlexes := h "" (fun us => ∃ d, P d ∧ us = d.tokens) rfl
    (fun d hd => Lexes.nil ⟨d, hd, List.append_nil _⟩) 0
  rw [String.append_empty] at hlexes
  obtain ⟨herrors, d, hd, htokens⟩ := hlexes
  have hnone : (lex s).errors = [] := herrors
  have htokens' : (lex s).tokens = d.tokens := htokens
  exact ⟨d, hd, by rw [ofText?, if_pos hnone, htokens', ofTokens?_tokens]⟩

/-- Each name is known by its place in the list. -/
def Scope.Numbers (scope : Scope) (names : List String) : Prop :=
  ∀ (k : Nat) (name : String), names[k]? = some name → scope.find? name = some k

theorem Scope.find?_zipIdx {names : List String} (h : names.Nodup) (start : Nat) {k : Nat}
    {name : String} (hk : names[k]? = some name) :
    Scope.find? (names.zipIdx start) name = some (start + k) := by
  induction names generalizing start k with
  | nil => cases hk
  | cons first names ih =>
    rw [List.nodup_cons] at h
    rw [List.zipIdx_cons, Scope.find?, List.find?_cons]
    cases k with
    | zero =>
      cases hk
      simp
    | succ k =>
      have hne : first ≠ name := by
        rintro rfl
        exact h.1 (List.mem_of_getElem? hk)
      have hrest := ih h.2 (start + 1) hk
      rw [Scope.find?] at hrest
      simp only [hne, decide_false, hrest, Nat.add_assoc, Nat.add_comm 1]

/-- Distinct names can be numbered by their places. -/
theorem Scope.numbers_zipIdx {names : List String} (h : names.Nodup) :
    Scope.Numbers names.zipIdx names := by
  intro k name hk
  rw [find?_zipIdx h 0 hk, Nat.zero_add]

namespace Expr

/-! ## Folded expressions -/

/-- Expressions that were put together by `combine`. -/
inductive Folded : Expr → Prop where
  | const (v : Int64) : Folded (const v)
  | dim (k : Nat) : Folded (dim k)
  | combine (op : Op) {l r : Expr} (left : Folded l) (right : Folded r) : Folded (combine op l r)

theorem Folded.rebuild_eq {e : Expr} (h : e.Folded) : e.rebuild = e := by
  induction h with
  | const v => rfl
  | dim k => rfl
  | combine op _ _ ihl ihr => exact rebuild_combine ihl ihr op

/-- What folding does not change was put together by `combine`. -/
theorem folded_iff_rebuild_eq {e : Expr} : e.Folded ↔ e.rebuild = e := by
  refine ⟨Folded.rebuild_eq, fun h => ?_⟩
  induction e with
  | const v => exact .const v
  | dim k => exact .dim k
  | node op l r ihl ihr =>
    rw [rebuild] at h
    rcases combine_cases op l.rebuild r.rebuild with hnode | ⟨v, hconst⟩
    · obtain ⟨-, hl, hr⟩ := node.injEq .. ▸ hnode.symm.trans h
      rw [hl, hr] at h
      exact h ▸ .combine op (ihl hl) (ihr hr)
    · rw [hconst] at h
      cases h

/-- Folding keeps the result of every evaluation, also where there is none. -/
theorem eval_rebuild (dims : List Int64) : ∀ e : Expr, e.rebuild.eval dims = e.eval dims
  | const _ => rfl
  | dim _ => rfl
  | node op l r => by
    rw [rebuild, eval_combine, eval, eval, eval_rebuild dims l, eval_rebuild dims r]

/-! ## Reading back -/

/-- No constant is the least word, and there is a name for every dimension. -/
structure Writable (names : List String) (e : Expr) : Prop where
  constants : Int64.minValue ∉ e.constants
  dims : ∀ k ∈ e.dims, k < names.length

theorem Writable.readable {names : List String} {e : Expr} (h : e.Writable names)
    (hnames : ∀ name ∈ names, IsName name) {scope : Scope} (hscope : scope.Numbers names) :
    e.Readable names scope := by
  refine ⟨fun k hk => ?_, h.constants⟩
  have hname := List.getElem?_eq_getElem (h.dims k hk)
  exact ⟨_, hname, hnames _ (List.mem_of_getElem? hname), hscope k _ hname⟩

theorem exists_ofText?_textWith {names : List String} {e : Expr} (h : e.Writable names)
    (hnames : ∀ name ∈ names, IsName name) {scope : Scope} (hscope : scope.Numbers names) :
    ∃ i, Index.ofText? (e.textWith names) = some i ∧ i.lower? scope = some e.rebuild := by
  obtain ⟨d, hd, hread⟩ := Index.exists_ofText?_of_prints
    (printed_of_readable (h.readable hnames hscope)).1.alone
  exact ⟨d.tree, hread, hd⟩

/-- The text of an expression reads back. If its dimensions have distinct names and no
constant is the least word, the whole text is an index, and in every scope that numbers the
names by their places this index is the expression, folded from its leaves up. Folding
keeps what `combine` put together, and the result of every evaluation. So two expressions
that `combine` put together are equal if they have the same text. -/
theorem textWith_reads_back (e : Expr) (names : List String) (hnames : ∀ name ∈ names, IsName name)
    (hdistinct : names.Nodup) (hwritable : e.Writable names) :
    (∃ i, Index.ofText? (e.textWith names) = some i ∧
      ∀ scope : Scope, scope.Numbers names → i.lower? scope = some e.rebuild) ∧
    (e.Folded ↔ e.rebuild = e) ∧
    (∀ point, e.rebuild.eval point = e.eval point) ∧
    ∀ e' : Expr, e.Folded → e'.Folded → e'.Writable names →
      e.textWith names = e'.textWith names → e = e' := by
  have hscope := Scope.numbers_zipIdx hdistinct
  obtain ⟨i, hi, hlower⟩ := exists_ofText?_textWith hwritable hnames hscope
  refine ⟨⟨i, hi, fun scope hs => ?_⟩, folded_iff_rebuild_eq, fun point => eval_rebuild point e, ?_⟩
  · obtain ⟨j, hj, hlower'⟩ := exists_ofText?_textWith hwritable hnames hs
    rw [hi] at hj
    cases hj
    exact hlower'
  · intro e' he he' hwritable' htext
    obtain ⟨j, hj, hlower'⟩ := exists_ofText?_textWith hwritable' hnames hscope
    rw [← htext, hi] at hj
    cases hj
    rw [hlower] at hlower'
    rw [← he.rebuild_eq, ← he'.rebuild_eq, Option.some.inj hlower']

/-- `-3 * j - (i - 5) floordiv (-2 * -1)`, as a tree that nothing folded. -/
def unfoldedIndex : Expr :=
  node .add (node .mul (const (-3)) (dim 1))
    (node .mul (node .floorDiv (node .add (dim 0) (const (-5)))
      (node .mul (const (-2)) (const (-1)))) (const (-1)))

/-- Its divisor is folded when it is read back. -/
theorem unfoldedIndex_reads_back :
    unfoldedIndex.textWith ["i", "j"] = "-3 * j - (i - 5) floordiv (-2 * -1)" ∧
      ∃ i, Index.ofText? "-3 * j - (i - 5) floordiv (-2 * -1)" = some i ∧
        i.lower? [("j", 1), ("i", 0)] = some unfoldedIndex.rebuild ∧
        unfoldedIndex.rebuild ≠ unfoldedIndex := by
  have hnames : ∀ name ∈ ["i", "j"], IsName name := by
    refine List.forall_mem_cons.mpr ⟨?_, List.forall_mem_singleton.mpr ?_⟩
    · exact ⟨⟨'i', [], rfl, rfl, List.forall_mem_nil _⟩, rfl⟩
    · exact ⟨⟨'j', [], rfl, rfl, List.forall_mem_nil _⟩, rfl⟩
  have hwritable : unfoldedIndex.Writable ["i", "j"] := ⟨by decide, by decide⟩
  have htext : unfoldedIndex.textWith ["i", "j"] = "-3 * j - (i - 5) floordiv (-2 * -1)" := rfl
  have hscope : Scope.Numbers [("j", 1), ("i", 0)] ["i", "j"] := by
    rintro (_ | _ | k) name hk
    · cases hk
      rfl
    · cases hk
      rfl
    · cases hk
  obtain ⟨⟨i, hi, hlower⟩, -⟩ :=
    textWith_reads_back unfoldedIndex ["i", "j"] hnames (by decide) hwritable
  exact ⟨htext, i, htext ▸ hi, hlower _ hscope, by decide⟩

end Expr

end Bankflow
