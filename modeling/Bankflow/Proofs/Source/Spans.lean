import Bankflow.Proofs.Source.FirstError
import Bankflow.Proofs.Source.Tiling
import Mathlib.Data.List.Induction

/-!
# Spans of a program

What a program keeps of its source are tokens and spans. Its names and numbers are tokens
(`Decl.WrittenIn`), since the grammar takes them from there, and the span of a larger part
reaches from one of its tokens to another (`CoveredBy`). Such spans lie within the source and
do not cut its characters (`CoveredBy.within`), and so do those of syntax errors
(`within_of_mem_errors`). At the span of a name stands the name (`Ident.holds`).
-/

namespace Bankflow

/-- The span begins and ends at characters of the source, or at its end. -/
structure Span.Within (source : String) (span : Span) : Prop where
  start_le : span.start ≤ span.stop
  stop_le : span.stop ≤ source.utf8ByteSize
  start_valid : String.Pos.Raw.IsValid source ⟨span.start⟩
  stop_valid : String.Pos.Raw.IsValid source ⟨span.stop⟩

namespace Source

/-- The span reaches from the first to the last of some of these tokens. -/
def CoveredBy (ts : List Lexeme) (span : Span) : Prop :=
  ∃ l us, (l :: us).Sublist ts ∧ span = Phrase.extent (l :: us)

/-! ## What a program is made of -/

section WrittenIn

variable (ts : List Lexeme)

/-- The variables of an index are tokens. -/
def Index.WrittenIn : Index → Prop
  | int _ => True
  | var x => x.lexeme ∈ ts
  | neg e _ => e.WrittenIn
  | binary _ l r => l.WrittenIn ∧ r.WrittenIn

structure Access.WrittenIn (a : Access) : Prop where
  array : a.array.lexeme ∈ ts
  indices : ∀ e ∈ a.indices, e.WrittenIn ts
  span : CoveredBy ts a.span

structure LoopHead.WrittenIn (h : LoopHead) : Prop where
  var : h.var.lexeme ∈ ts
  step : ∀ n, h.step = some n → n.lexeme ∈ ts

def BodyWrittenIn : LoopBody → Prop
  | .done => True
  | .access a rest => a.WrittenIn ts ∧ BodyWrittenIn rest
  | .loop h inner rest => h.WrittenIn ts ∧ BodyWrittenIn inner ∧ BodyWrittenIn rest

structure ArrayDecl.WrittenIn (d : ArrayDecl) : Prop where
  name : d.name.lexeme ∈ ts
  shape : ∀ n ∈ d.shape, n.lexeme ∈ ts
  space : ∀ n, d.memorySpace = some n → n.lexeme ∈ ts

structure Node.WrittenIn (n : Node) : Prop where
  name : n.name.lexeme ∈ ts
  span : CoveredBy ts n.span

/-- The names and numbers of a declaration are tokens, and its accesses and nodes cover
some. -/
def Decl.WrittenIn : Decl → Prop
  | .setting name value => name.lexeme ∈ ts ∧ CoveredBy ts value.span
  | .array d => d.WrittenIn ts
  | .loop h body => h.WrittenIn ts ∧ BodyWrittenIn ts body
  | .region name nodes => name.lexeme ∈ ts ∧ ∀ n ∈ nodes, n.WrittenIn ts

end WrittenIn

/-! ## Phrases -/

theorem coveredBy_of_mem {ts : List Lexeme} {l : Lexeme} (h : l ∈ ts) : CoveredBy ts l.span :=
  ⟨l, [], List.singleton_sublist.mpr h, rfl⟩

/-- The tokens of a phrase are in the source one after the other, and so are those of its
parts. -/
theorem parts_cons {l : Lexeme} {us ts : List Lexeme} (h : (l :: us).Sublist ts) :
    l ∈ ts ∧ us.Sublist ts :=
  ⟨h.subset List.mem_cons_self, (List.sublist_cons_self l us).trans h⟩

theorem parts_append {us vs ts : List Lexeme} (h : (us ++ vs).Sublist ts) :
    us.Sublist ts ∧ vs.Sublist ts :=
  ⟨(List.sublist_append_left us vs).trans h, (List.sublist_append_right us vs).trans h⟩

namespace Phrase

variable {ts : List Lexeme}

theorem CommaList.forall_mem_tree {α β : Type} {item : α → List Lexeme} {tree : α → β}
    {P : β → Prop} (hitem : ∀ a, (item a).Sublist ts → P (tree a)) {l : CommaList α}
    (h : (l.tokens item).Sublist ts) : ∀ b ∈ l.tree tree, P b := by
  obtain ⟨hfirst, hmore⟩ := parts_append h
  refine List.forall_mem_cons.mpr ⟨hitem _ hfirst, List.forall_mem_map.mpr fun a ha => hitem _ ?_⟩
  have hitems : (Symbol.comma.lexeme a.1 :: item a.2).Sublist ts := by
    rw [List.flatMap_def] at hmore
    exact (List.sublist_flatten_of_mem (List.mem_map_of_mem ha)).trans hmore
  exact (parts_cons hitems).2

theorem Lines.forall_mem_tree {α β : Type} {item : α → List Lexeme} {tree : α → β} {P : β → Prop}
    (hitem : ∀ a, (item a).Sublist ts → P (tree a)) :
    ∀ {l : Lines α}, (l.tokens item).Sublist ts → ∀ b ∈ l.tree tree, P b
  | .done, _ => List.forall_mem_nil _
  | .last a, h => List.forall_mem_singleton.mpr (hitem a h)
  | .next a _ _ rest, h => by
    obtain ⟨ha, hrest⟩ := parts_append h
    have hrest := (parts_append (parts_cons hrest).2).2
    exact List.forall_mem_cons.mpr ⟨hitem a ha, Lines.forall_mem_tree hitem hrest⟩

mutual

theorem Unary.writtenIn : ∀ {u : Unary}, u.tokens.Sublist ts → u.tree.WrittenIn ts
  | .neg _ _, h => by
    have hoperand := Unary.writtenIn (parts_cons h).2
    exact hoperand
  | .int _, _ => trivial
  | .var _, h => (parts_cons h).1
  | .brackets _ _ _, h => Expr.writtenIn (parts_append (parts_cons h).2).1

theorem Factors.writtenIn : ∀ {fs : Factors} {left : Index}, fs.tokens.Sublist ts →
    left.WrittenIn ts → (fs.tree left).WrittenIn ts
  | .done, _, _, hleft => hleft
  | .more sign _ factor _, left, h, hleft => by
    obtain ⟨hfactor, hrest⟩ := parts_append (parts_cons h).2
    have hproduct : (Index.binary sign.op left factor.tree).WrittenIn ts :=
      ⟨hleft, Unary.writtenIn hfactor⟩
    have hall := Factors.writtenIn hrest hproduct
    exact hall

theorem Term.writtenIn : ∀ {t : Term}, t.tokens.Sublist ts → t.tree.WrittenIn ts
  | .mk _ _, h => Factors.writtenIn (parts_append h).2 (Unary.writtenIn (parts_append h).1)

theorem Summands.writtenIn : ∀ {ss : Summands} {left : Index}, ss.tokens.Sublist ts →
    left.WrittenIn ts → (ss.tree left).WrittenIn ts
  | .done, _, _, hleft => hleft
  | .more sign _ summand _, left, h, hleft => by
    obtain ⟨hsummand, hrest⟩ := parts_append (parts_cons h).2
    have hsum : (Index.binary sign.op left summand.tree).WrittenIn ts :=
      ⟨hleft, Term.writtenIn hsummand⟩
    have hall := Summands.writtenIn hrest hsum
    exact hall

theorem Expr.writtenIn : ∀ {e : Expr}, e.tokens.Sublist ts → e.tree.WrittenIn ts
  | .mk _ _, h => Summands.writtenIn (parts_append h).2 (Term.writtenIn (parts_append h).1)

end

theorem Access.writtenIn {a : Access} (h : a.tokens.Sublist ts) : a.tree.WrittenIn ts := by
  obtain ⟨harray, hrest⟩ := parts_cons (parts_cons h).2
  have hindices := (parts_append (parts_cons hrest).2).1
  exact ⟨harray, CommaList.forall_mem_tree (fun _ => Expr.writtenIn) hindices, _, _, h, rfl⟩

theorem Head.writtenIn {h : Head} (hl : h.tokens.Sublist ts) (span : Span) :
    (h.tree span).WrittenIn ts := by
  refine ⟨(parts_cons hl).1, fun n hn => ?_⟩
  obtain ⟨⟨at₀, n'⟩, hstep, rfl⟩ := Option.map_eq_some_iff.mp hn
  refine hl.subset ?_
  simp [Head.tokens, hstep]

mutual

theorem Loop.writtenIn : ∀ {l : Loop}, l.tokens.Sublist ts →
    l.tree.1.WrittenIn ts ∧ BodyWrittenIn ts l.tree.2
  | .mk _ _ _ _, h => by
    obtain ⟨hhead, hrest⟩ := parts_append (parts_cons h).2
    exact ⟨Head.writtenIn hhead _, Items.writtenIn (parts_append hrest).1⟩

theorem Item.writtenIn : ∀ {i : Item} {rest : LoopBody}, i.tokens.Sublist ts →
    BodyWrittenIn ts rest → BodyWrittenIn ts (i.tree rest)
  | .loop _, _, h, hrest => ⟨(Loop.writtenIn h).1, (Loop.writtenIn h).2, hrest⟩
  | .access _, _, h, hrest => ⟨Access.writtenIn h, hrest⟩

theorem Items.writtenIn : ∀ {is : Items}, is.tokens.Sublist ts → BodyWrittenIn ts is.tree
  | .done, _ => trivial
  | .last _, h => Item.writtenIn h trivial
  | .next _ _ _ _, h => by
    obtain ⟨hitem, hrest⟩ := parts_append h
    exact Item.writtenIn hitem (Items.writtenIn (parts_append (parts_cons hrest).2).2)

end

theorem Array.writtenIn {a : Array} (h : a.tokens.Sublist ts) : a.tree.WrittenIn ts := by
  obtain ⟨hname, hrest⟩ := parts_cons (parts_cons h).2
  have hshape := (parts_append (parts_cons hrest).2).1
  have hnumbers : ∀ n ∈ a.shape.tree id, n.lexeme ∈ ts :=
    CommaList.forall_mem_tree (P := fun n : Number => n.lexeme ∈ ts)
      (fun n hn => (parts_cons hn).1) hshape
  refine ⟨hname, hnumbers, fun n hn => ?_⟩
  obtain ⟨⟨at₀, n'⟩, hspace, rfl⟩ := Option.map_eq_some_iff.mp hn
  refine h.subset ?_
  simp [Array.tokens, hspace]

theorem Setting.writtenIn {s : Setting} (h : s.tokens.Sublist ts) : s.tree.WrittenIn ts := by
  obtain ⟨hname, hrest⟩ := parts_cons (parts_cons h).2
  have hvalue := (parts_cons (parts_cons hrest).2).1
  refine ⟨hname, ?_⟩
  cases hs : s.value with
  | int n =>
    rw [hs] at hvalue
    exact coveredBy_of_mem hvalue
  | ident x =>
    rw [hs] at hvalue
    exact coveredBy_of_mem hvalue

theorem Node.writtenIn {n : Node} (h : n.tokens.Sublist ts) : n.tree.WrittenIn ts :=
  ⟨(parts_cons (parts_cons h).2).1, _, _, h, rfl⟩

theorem Region.writtenIn {r : Region} (h : r.tokens.Sublist ts) : r.tree.WrittenIn ts := by
  obtain ⟨hname, hrest⟩ := parts_cons (parts_cons h).2
  have hnodes := (parts_append (parts_append hrest).2).1
  exact ⟨hname, Lines.forall_mem_tree (fun _ => Node.writtenIn) hnodes⟩

theorem Statement.writtenIn :
    ∀ {s : Statement}, s.tokens.Sublist ts → s.tree.decl.WrittenIn ts
  | .setting _, h => Setting.writtenIn h
  | .array _, h => Array.writtenIn h
  | .loop _, h => Loop.writtenIn h
  | .region _, h => Region.writtenIn h

end Phrase

/-! ## Sources -/

/-- What was read from a source is written there. -/
theorem writtenIn_of_parse {source : String} {p : Program} (h : (parse source).program = some p) :
    (∀ s ∈ p.statements, s.decl.WrittenIn (lex source).tokens) ∧
      p.span = tokensSpan (lex source).tokens source.utf8ByteSize := by
  unfold parse at h
  dsimp only at h
  split at h
  · next q hq =>
    cases h
    obtain ⟨d, hd⟩ := Phrase.Program.exists_of_programOf hq
    have hall : d.tokens.Sublist (lex source).tokens := hd ▸ List.Sublist.refl _
    rw [← hd, d.programOf_tokens, Except.ok.injEq] at hq
    subst hq
    refine ⟨?_, by rw [← hd]; rfl⟩
    exact Phrase.Lines.forall_mem_tree
      (P := fun s : Statement => s.decl.WrittenIn (lex source).tokens)
      (fun _ => Phrase.Statement.writtenIn) (parts_append hall).2
  · cases h

variable {source : String} {span : Span}

theorem within_of_mem_spans (h : span ∈ (lex source).spans) : span.Within source := by
  obtain ⟨hlt, hstop, hvalid, hvalid'⟩ := lex_spans_bounded h
  exact ⟨Nat.le_of_lt hlt, hstop, hvalid, hvalid'⟩

theorem within_of_mem_tokens {l : Lexeme} (h : l ∈ (lex source).tokens) : l.span.Within source :=
  within_of_mem_spans (List.mem_append_left _ (List.mem_map_of_mem h))

/-- The end of a source is within it. -/
theorem within_end (source : String) :
    Span.Within source ⟨source.utf8ByteSize, source.utf8ByteSize⟩ := by
  have hvalid : String.Pos.Raw.IsValid source ⟨source.utf8ByteSize⟩ := by
    rw [utf8ByteSize_eq]
    exact isValid_width (List.append_nil _).symm
  exact ⟨Nat.le_refl _, Nat.le_refl _, hvalid, hvalid⟩

/-- Tokens in order reach from the start of the first to the end of the last. -/
theorem CoveredBy.within (h : CoveredBy (lex source).tokens span) : span.Within source := by
  obtain ⟨l, us, hsub, rfl⟩ := h
  have hl := within_of_mem_tokens (hsub.subset List.mem_cons_self)
  cases us using List.reverseRecOn with
  | nil => exact hl
  | append_singleton us m =>
    have hm := within_of_mem_tokens (hsub.subset (by simp : m ∈ l :: (us ++ [m])))
    have hextent : Phrase.extent (l :: (us ++ [m])) = ⟨l.span.start, m.span.stop⟩ := by
      simp [Phrase.extent, tokensSpan, List.getLast?_cons]
    have hle : l.span.stop ≤ m.span.start :=
      (List.pairwise_cons.mp ((lex_tokens_pairwise source).sublist hsub)).1 m (by simp)
    rw [hextent]
    refine ⟨?_, hm.stop_le, hl.start_valid, hm.stop_valid⟩
    exact Nat.le_trans (Nat.le_trans hl.start_le hle) hm.start_le

theorem within_tokensSpan (source : String) :
    (tokensSpan (lex source).tokens source.utf8ByteSize).Within source := by
  cases h : (lex source).tokens with
  | nil => exact within_end source
  | cons l us =>
    have hall : CoveredBy (lex source).tokens (Phrase.extent (l :: us)) :=
      ⟨l, us, h ▸ List.Sublist.refl _, rfl⟩
    exact hall.within

/-- A syntax error is at a token, at a stray character, or at the end. -/
theorem within_of_mem_errors {e : SyntaxError} (h : e ∈ (parse source).errors) :
    e.span.Within source := by
  have hlexed : ∀ e ∈ (lex source).errors, e.span.Within source := fun e he =>
    within_of_mem_spans (List.mem_append_right _ (List.mem_map_of_mem he))
  unfold parse at h
  dsimp only at h
  split at h
  · exact hlexed e h
  · next f hf =>
    rcases List.mem_append.mp h with h | h
    · exact hlexed e h
    · cases List.mem_singleton.mp h
      obtain ⟨ts, rest, expected, htokens, -, ⟨-, rfl⟩ | ⟨l, tail, rfl, rfl, -⟩⟩ :=
        programOf_eq_error hf
      · exact within_end source
      · exact within_of_mem_tokens (htokens ▸ List.mem_append_right _ List.mem_cons_self)

/-- At the span of a name stands the name, which has no quote in it. -/
theorem Ident.holds {x : Ident} (h : x.lexeme ∈ (lex source).tokens) :
    (∃ before after, Holds source x.span before x.name.toList after) ∧ '\'' ∉ x.name.toList := by
  obtain ⟨before, text, after, hholds, -, rfl, -, hwhole⟩ := mem_lex_tokens_iff_stands.mp h
  refine ⟨⟨before, after, hholds⟩, ?_⟩
  obtain ⟨c, cs, htext, hfirst, hmore⟩ := hwhole.forms
  rw [htext, List.mem_cons, not_or]
  refine ⟨?_, fun hmem => ?_⟩
  · rintro rfl
    exact absurd hfirst (by decide)
  · exact absurd (hmore _ hmem) (by decide)

end Source

end Bankflow
