import Bankflow.Proofs.Design.Meaning
import Bankflow.Proofs.Expr.Text
import Bankflow.Proofs.Source.Legal

/-!
# The text of loops reads back

The lines of a nest are a loop of the source language, and this loop is resolved to the
nest again (`Design.prints_nest`). It is not the loop that the nest came from: indices were
folded, and every step is written.
-/

namespace Bankflow

open Source hiding Access LoopHead LoopBody

/-! ## Accesses -/

theorem Source.Index.scoped_of_lower? {scope : Scope} :
    ∀ {i : Index} {e : Expr}, i.lower? scope = some e → i.Scoped (scope.map (·.1))
  | .int _, _, _ => trivial
  | .var x, _, h => by
    obtain ⟨k, hk, -⟩ := Option.map_eq_some_iff.mp h
    exact Scope.isSome_find?_iff.mp (Option.isSome_of_eq_some hk)
  | .neg i _, _, h => by
    obtain ⟨a, ha, -⟩ := Option.map_eq_some_iff.mp h
    exact scoped_of_lower? (i := i) ha
  | .binary op l r, _, h => by
    simp only [lower?, Option.bind_eq_bind, Option.bind_eq_some_iff] at h
    obtain ⟨a, ha, b, hb, -⟩ := h
    exact ⟨scoped_of_lower? ha, scoped_of_lower? hb⟩

theorem lowerAll?_eq_some_iff {scope : Scope} :
    ∀ {is : List Index} {es : List Expr},
      lowerAll? scope is = some es ↔ List.Forall₂ (·.lower? scope = some ·) is es
  | [], es => by
    rw [lowerAll?, List.forall₂_nil_left_iff, Option.some.injEq, eq_comm]
  | i :: is, es => by
    simp only [lowerAll?, Option.bind_eq_bind, Option.bind_eq_some_iff, Option.some.injEq,
      List.forall₂_cons_left_iff, lowerAll?_eq_some_iff]
    constructor
    · rintro ⟨a, ha, as, has, rfl⟩
      exact ⟨a, as, ha, has, rfl⟩
    · rintro ⟨a, as, ha, has, rfl⟩
      exact ⟨a, ha, as, has, rfl⟩

/-- What it takes for an access to be resolved. -/
theorem Access.ofSource?_eq_some_iff {memories : List Memory} {scope : Scope} {a : Source.Access}
    {x : Access} : Access.ofSource? memories scope a = some x ↔
      x.kind = a.kind ∧ memoryNamed? memories a.array.name = some x.array ∧
        List.Forall₂ (·.lower? scope = some ·) a.indices x.indices ∧
          ∃ m, memories[x.array]? = some m ∧ a.indices.length = m.rank := by
  rw [← lowerAll?_eq_some_iff]
  simp only [ofSource?, Option.bind_eq_bind, Option.bind_eq_some_iff]
  constructor
  · rintro ⟨i, hi, m, hm, h⟩
    split at h
    · next hrank =>
      obtain ⟨es, hes, h⟩ := Option.bind_eq_some_iff.mp h
      cases h
      exact ⟨rfl, hi, hes, m, hm, hrank⟩
    · cases h
  · rintro ⟨hkind, hi, hes, m, hm, hrank⟩
    refine ⟨x.array, hi, m, hm, ?_⟩
    rw [if_pos hrank, hes, ← hkind]
    rfl

/-- The accesses that are resolved are the well-formed ones. -/
theorem Access.exists_ofSource?_iff {memories : List Memory} {scope : Scope} {a : Source.Access} :
    (∃ x, Access.ofSource? memories scope a = some x) ↔
      a.WellFormed memories (scope.map (·.1)) := by
  constructor
  · rintro ⟨x, hx⟩
    obtain ⟨-, hi, hes, m, hm, hrank⟩ := ofSource?_eq_some_iff.mp hx
    exact ⟨⟨x.array, m, hi, hm, hrank⟩,
      forall_mem_of_forall₂ hes fun _ _ he => Index.scoped_of_lower? he⟩
  · intro h
    obtain ⟨i, m, hi, hm, hrank⟩ := h.array
    obtain ⟨es, -, hes⟩ := exists_lowerAll? h.known
    exact ⟨⟨i, es, a.kind⟩, ofSource?_eq_some_iff.mpr ⟨rfl, hi, hes, m, hm, hrank⟩⟩

/-- Arrays that can be written: each has a name and a dimension. -/
def Memory.IsLegal (m : Memory) : Prop := IsName m.name ∧ m.shape ≠ []

/-- The variables of the scope have their names in `vars`, at their numbers. -/
def Scope.Names (scope : Scope) (vars : List String) : Prop :=
  ∀ name k, scope.find? name = some k → vars[k]? = some name ∧ IsName name

/-- No index of the access has the least word as a constant. -/
def Access.Readable (x : Access) : Prop := ∀ e ∈ x.indices, Int64.minValue ∉ e.constants

variable {d : Design} {scope : Scope} {vars : List String}

theorem Design.arrayName_of_memoryNamed? {name : String} {i : Nat}
    (h : memoryNamed? d.memories name = some i) : d.arrayName i = name := by
  obtain ⟨hlt, hname, -⟩ := List.findIdx?_eq_some_iff_getElem.mp h
  rw [arrayName, List.getElem?_eq_getElem hlt]
  exact of_decide_eq_true hname

theorem prints_indices {is : List Index} {es : List Expr} (hne : es ≠ [])
    (h : List.Forall₂ (·.lower? scope = some ·) is es) (hscope : scope.Names vars)
    (hconst : ∀ e ∈ es, Int64.minValue ∉ e.constants) :
    Prints (", ".intercalate (es.map (Expr.textWith vars)))
      (Phrase.CommaList.tokens Phrase.Expr.tokens)
      fun l => List.Forall₂ (·.lower? scope = some ·) (l.tree Phrase.Expr.tree) es := by
  have hindex : ∀ e ∈ es, ∃ i : Index, i.lower? scope = some e :=
    forall_mem_of_forall₂ h.flip fun _ i hi => ⟨i, hi⟩
  have hprints := Phrase.CommaList.prints (Expr.textWith vars) hne fun e he => by
    obtain ⟨i, hi⟩ := hindex e he
    exact Expr.prints_textWith hi hscope (hconst e he)
  refine hprints.map id (fun _ => rfl) fun l hl => ?_
  rw [id, Phrase.CommaList.tree_eq_map, List.forall₂_map_left_iff]
  exact hl.flip

theorem Design.isLine_indent {s : String} (h : IsLine s) : ∀ depth, IsLine (indent depth ++ s)
  | 0 => h
  | depth + 1 => by
    rw [indent, List.replicate_succ, String.join_cons, String.append_assoc]
    exact IsLine.append (by decide) _

theorem Design.isLine_accessLine (d : Design) (vars : List String) (depth : Nat) (x : Access) :
    IsLine (d.accessLine vars depth x) := by
  simp only [accessLine, String.append_assoc]
  refine isLine_indent (IsLine.append ?_ _) depth
  cases x.kind <;> decide

/-- The line of an access is an access that is resolved to it. -/
theorem Design.prints_access {a : Source.Access} {x : Access}
    (hx : Access.ofSource? d.memories scope a = some x) (hmem : ∀ m ∈ d.memories, m.IsLegal)
    (hscope : scope.Names vars) (hconst : x.Readable) (depth : Nat) :
    Prints (d.accessLine vars depth x) Phrase.Access.tokens
      fun p => Access.ofSource? d.memories scope p.tree = some x := by
  obtain ⟨hkind, hi, hes, m, hm, hrank⟩ := Access.ofSource?_eq_some_iff.mp hx
  obtain ⟨hname, hshape⟩ := hmem m (List.mem_of_getElem? hm)
  have harray := arrayName_of_memoryNamed? hi
  rw [show m.name = a.array.name by rw [← harray, arrayName, hm]] at hname
  have hne : x.indices ≠ [] := by
    rw [← List.length_pos_iff, ← hes.length_eq, hrank]
    exact List.length_pos_iff.mpr hshape
  simp only [accessLine, harray, String.append_assoc]
  refine Prints.indent (fun rest R hrest hR => ?_) depth
  have htext : x.kind.text = (Phrase.accessKeyword x.kind).text := by cases x.kind <;> rfl
  simp only [String.append_assoc, htext]
  refine Lexes.keyword _ (Apart.append (by decide) (by decide)) fun keyword => Lexes.blank ?_
  refine Lexes.name hname (Apart.append (by decide) (by decide)) fun array => ?_
  refine Lexes.mark .lbracket nofun fun left => ?_
  refine prints_indices hne hes hscope hconst _ _ (Apart.append (by decide) (by decide))
    fun l hl => ?_
  refine Lexes.mark .rbracket nofun fun right => ?_
  have hp := hR ⟨x.kind, keyword, ⟨a.array.name, array⟩, left, l, right⟩
    (Access.ofSource?_eq_some_iff.mpr ⟨rfl, hi, hl, m, hm, by
      rw [← hrank, hes.length_eq]
      exact hl.length_eq⟩)
  simpa only [Phrase.Access.tokens, List.cons_append, List.append_assoc, List.nil_append] using hp

/-! ## Heads -/

/-- Two loops with the same variable, bounds, step and mark, and the first gives no zero
step. -/
structure Source.LoopHead.Matches (h' h : Source.LoopHead) : Prop where
  var_eq : h'.var.name = h.var.name
  lower_eq : h'.lower = h.lower
  upper_eq : h'.upper = h.upper
  step_eq : h'.stepOf = h.stepOf
  pipeline_eq : h'.pipeline = h.pipeline
  step_ne : ∀ n, h'.step = some n → n.value ≠ 0

theorem Source.LoopHead.Matches.ofSource_eq {h' h : Source.LoopHead} (hm : h'.Matches h)
    (id var : Nat) : LoopHead.ofSource id var h' = .ofSource id var h := by
  simp only [LoopHead.ofSource, hm.lower_eq, hm.upper_eq, hm.step_eq, hm.pipeline_eq]

theorem Source.LoopHead.stepOf_pos {h : Source.LoopHead} (hl : h.IsLegal) : 0 < h.stepOf.toInt := by
  unfold stepOf
  split
  · next n hn =>
    split
    · decide
    · next hne =>
      refine Int.lt_iff_le_and_ne.mpr ⟨hl.step n hn, fun h0 => hne (Int64.toInt_inj.mp ?_)⟩
      exact h0.symm
  · decide

theorem Design.isLine_headLine (vars : List String) (depth : Nat) (h : LoopHead) :
    IsLine (headLine vars depth h) := by
  simp only [headLine, String.append_assoc]
  exact isLine_indent (IsLine.append (by decide) _) depth

/-- The mark of a loop, if it has one. -/
theorem prints_pipeline (pipeline : Bool) :
    Prints (if pipeline then " pipeline" else "")
      (fun o : Option Span => o.elim [] fun span => [Keyword.pipeline.lexeme span])
      fun o => o.isSome = pipeline := by
  intro rest R hrest hR
  cases pipeline with
  | false => exact hR none rfl
  | true =>
    exact Lexes.spacedKeyword .pipeline 1 0 rfl (fun _ => hrest) fun span => hR (some span) rfl

theorem apart_pipeline (pipeline : Bool) (rest : String) :
    Apart ((if pipeline then " pipeline" else "") ++ (" \x7b" ++ rest)) := by
  cases pipeline with
  | false => exact Apart.append (s := " \x7b") (by decide) (by decide)
  | true => exact Apart.append (s := " pipeline") (by decide) (by decide)

/-- The line of a loop is its keyword and a head like the one it came from. -/
theorem Design.prints_headLine {h : Source.LoopHead} {var : Nat} (id : Nat) (hl : h.IsLegal)
    (hvar : vars[var]? = some h.var.name) (depth : Nat) :
    Prints (headLine vars depth (.ofSource id var h))
      (fun p : Span × Phrase.Head => Keyword.loop.lexeme p.1 :: { p.2 with blank := [] }.tokens)
      fun p => ∀ span, (p.2.tree span).Matches h := by
  have hpos := Source.LoopHead.stepOf_pos hl
  obtain ⟨n, hn⟩ := Int.eq_ofNat_of_zero_le (Int.le_of_lt hpos)
  have hne : h.stepOf ≠ 0 := fun h0 => by simp [h0] at hpos
  have hstep : toString h.stepOf.toInt = toString n := by rw [hn]; rfl
  simp only [headLine, LoopHead.ofSource, hvar, Option.getD_some, hstep, String.append_assoc]
  refine Prints.indent (fun rest R hrest hR => ?_) depth
  simp only [String.append_assoc]
  refine Lexes.spacedKeyword .loop 0 1 rfl Nat.one_ne_zero.elim fun keyword => ?_
  refine Lexes.name hl.var (Apart.append (by decide) (by decide)) fun x => ?_
  refine Lexes.spacedMark .equals 1 1 rfl (by decide) fun equals => ?_
  refine Phrase.Signed.prints hl.lower _ _ (Apart.append (by decide) (by decide)) fun lo hlo => ?_
  refine Lexes.spacedKeyword .upTo 1 1 rfl Nat.one_ne_zero.elim fun upTo => ?_
  refine Phrase.Signed.prints hl.upper _ _ (Apart.append (by decide) (by decide)) fun hi hhi => ?_
  refine Lexes.spacedKeyword .step 1 1 rfl Nat.one_ne_zero.elim fun step => ?_
  refine Lexes.natural hn (apart_pipeline h.pipeline rest) fun number => ?_
  refine prints_pipeline h.pipeline _ _ (Apart.append (by decide) (by decide)) fun pipeline hp => ?_
  refine Lexes.spacedMark .lbrace 1 0 rfl (by decide) fun left => ?_
  have hhead := hR (keyword, ⟨⟨h.var.name, x⟩, equals, lo, upTo, hi,
    some (step, ⟨h.stepOf, number⟩), pipeline, left, []⟩)
    fun _ => ⟨rfl, hlo, hhi, if_neg hne, hp, fun _ hsome => by cases hsome; exact hne⟩
  simpa only [Phrase.Head.tokens, Option.elim_some, List.map_nil, List.cons_append,
    List.append_assoc, List.nil_append] using hhead

/-! ## Bodies -/

/-- From position `k` on, the list has these elements. -/
def From (vars : List String) (k : Nat) (names : List String) : Prop :=
  ∃ before after, vars = before ++ (names ++ after) ∧ before.length = k

theorem From.cons {x : String} {k : Nat} {names : List String} (h : From vars k (x :: names)) :
    vars[k]? = some x ∧ From vars (k + 1) names := by
  obtain ⟨before, after, rfl, rfl⟩ := h
  refine ⟨by simp, before ++ [x], after, by simp, by simp⟩

theorem From.append {k : Nat} {names names' : List String} (h : From vars k (names ++ names')) :
    From vars k names ∧ From vars (k + names.length) names' := by
  obtain ⟨before, after, rfl, rfl⟩ := h
  exact ⟨⟨before, names' ++ after, by simp, rfl⟩, before ++ names, after, by simp, by simp⟩

/-- A variable of the scope's own. -/
theorem Scope.Names.cons {x : String} {k : Nat} (h : scope.Names vars)
    (hk : vars[k]? = some x) (hx : IsName x) : Scope.Names ((x, k) :: scope) vars := by
  intro name j hj
  by_cases hname : x = name
  · subst hname
    have : k = j := by simpa [Scope.find?] using hj
    subst this
    exact ⟨hk, hx⟩
  · exact h name j (by simpa [Scope.find?, List.find?_cons, hname] using hj)

/-- Body `b'` is well formed and resolved as `b` is, whatever the number of its first
loop. -/
structure BodyMatches (memories : List Memory) (scope : Scope) (var : Nat)
    (b' b : Source.LoopBody) : Prop where
  lower_eq : ∀ id, lowerBody memories scope id var b' = lowerBody memories scope id var b
  vars_eq : b'.heads.map (·.var.name) = b.heads.map (·.var.name)
  wellFormed : Source.bodyWellFormed memories (scope.map (·.1)) b'

namespace BodyMatches

variable {memories : List Memory} {var : Nat} {rest' rest : Source.LoopBody}

theorem access {a' a : Source.Access} {x : Access} (ha : Access.ofSource? memories scope a = some x)
    (ha' : Access.ofSource? memories scope a' = some x)
    (hrest : BodyMatches memories scope var rest' rest) :
    BodyMatches memories scope var (.access a' rest') (.access a rest) where
  lower_eq id := by simp only [lowerBody, ha, ha', hrest.lower_eq]
  vars_eq := hrest.vars_eq
  wellFormed := ⟨Access.exists_ofSource?_iff.mp ⟨x, ha'⟩, hrest.wellFormed⟩

theorem loop {h' h : Source.LoopHead} {inner' inner : Source.LoopBody} (hhead : h'.Matches h)
    (hwf : h.WellFormed (scope.map (·.1)))
    (hinner : BodyMatches memories ((h.var.name, var) :: scope) (var + 1) inner' inner)
    (hrest : BodyMatches memories scope (var + 1 + inner.heads.length) rest' rest) :
    BodyMatches memories scope var (.loop h' inner' rest') (.loop h inner rest) where
  lower_eq id := by
    have hlength : inner'.heads.length = inner.heads.length := by
      rw [← List.length_map, hinner.vars_eq, List.length_map]
    simp only [lowerBody, hhead.ofSource_eq, hhead.var_eq, hlength, hinner.lower_eq, hrest.lower_eq]
  vars_eq := by
    simp only [Body.heads, List.map_cons, List.map_append, hhead.var_eq, hinner.vars_eq,
      hrest.vars_eq]
  wellFormed := by
    refine ⟨⟨hhead.var_eq ▸ hwf.var_new, hhead.step_ne⟩, ?_, hrest.wellFormed⟩
    rw [hhead.var_eq]
    exact hinner.wellFormed

end BodyMatches

/-- The lines of a loop are a loop like it, if the lines of its body are. -/
theorem Design.prints_loop {h : Source.LoopHead} {inner : Source.LoopBody} {lines : List String}
    {var : Nat} (hl : h.IsLegal) (hvar : vars[var]? = some h.var.name) (id depth : Nat)
    (hinner : PrintsLines lines (List.flatMap (ended Phrase.Item.tokens)) fun l =>
      BodyMatches d.memories ((h.var.name, var) :: scope) (var + 1)
        (Phrase.Items.tree (.ofList l)) inner) :
    PrintsLines (headLine vars depth (.ofSource id var h) :: lines ++ [indent depth ++ "\x7d"])
      (ended Phrase.Loop.tokens) fun l => l.1.tree.1.Matches h ∧
        BodyMatches d.memories ((h.var.name, var) :: scope) (var + 1) l.1.tree.2 inner := by
  have hopen := PrintsLines.line (isLine_headLine vars depth _) (prints_headLine id hl hvar depth)
  have hclose := PrintsLines.line (isLine_indent (by decide) depth)
    ((prints_mark .rbrace (by decide)).indent depth)
  refine ((hopen.append hinner).append hclose).map
    (fun x => (.mk x.1.1.1.1 { x.1.1.1.2 with blank := [x.1.1.2] } (.ofList x.1.2) x.2.1, x.2.2))
    (fun x => ?_) fun x hx => ⟨hx.1.1 _, hx.1.2⟩
  simp [ended, Phrase.Loop.tokens, Phrase.Head.tokens, Phrase.Items.tokens_eq,
    Phrase.Lines.tokens_ofList]

/-- The lines of a body are a body that is resolved to it. -/
theorem Design.prints_body (hmem : ∀ m ∈ d.memories, m.IsLegal) :
    ∀ {b : Source.LoopBody} {scope : Scope} {id var : Nat} (depth : Nat),
      Source.bodyWellFormed d.memories (scope.map (·.1)) b → (∀ h ∈ b.heads, h.IsLegal) →
      From vars var (b.heads.map (·.var.name)) → scope.Names vars →
      (∀ x ∈ (lowerBody d.memories scope id var b).accesses, x.Readable) →
      PrintsLines (d.bodyLines vars depth (lowerBody d.memories scope id var b))
        (List.flatMap (ended Phrase.Item.tokens)) fun l =>
          BodyMatches d.memories scope var (Phrase.Items.tree (.ofList l)) b
  | .done, _, _, _, _, _, _, _, _, _ => .nil ⟨fun _ => rfl, rfl, trivial⟩
  | .access a rest, scope, id, var, depth, hwf, hlegal, hvars, hscope, hconst => by
    obtain ⟨x, hx⟩ := Access.exists_ofSource?_iff.mpr hwf.1
    simp only [lowerBody, hx, Body.accesses, List.forall_mem_cons] at hconst
    have hitem : Prints (d.accessLine vars depth x) Phrase.Item.tokens fun i =>
        ∃ p, i = .access p ∧ Access.ofSource? d.memories scope p.tree = some x :=
      (prints_access hx hmem hscope hconst.1 depth).map .access
        (fun _ => by rw [Phrase.Item.tokens]) fun p hp => ⟨p, rfl, hp⟩
    simp only [lowerBody, hx]
    refine (PrintsLines.line (isLine_accessLine d vars depth x) hitem).cons
      (prints_body hmem depth hwf.2 hlegal hvars hscope hconst.2) ?_
    rintro ⟨_, span⟩ l ⟨p, rfl, hp⟩ hl
    simp only [Phrase.Lines.ofList, Phrase.Items.tree, Phrase.Item.tree]
    exact .access hx hp hl
  | .loop h inner rest, scope, id, var, depth, hwf, hlegal, hvars, hscope, hconst => by
    obtain ⟨hhead, hrests⟩ := List.forall_mem_cons.mp hlegal
    obtain ⟨hinner, hrest⟩ := List.forall_mem_append.mp hrests
    simp only [Body.heads, List.map_cons, List.map_append] at hvars
    obtain ⟨hvar, hvars⟩ := hvars.cons
    obtain ⟨hvarsInner, hvarsRest⟩ := hvars.append
    rw [List.length_map] at hvarsRest
    simp only [lowerBody, Body.accesses, List.forall_mem_append] at hconst
    have hloop := prints_loop hhead hvar id depth
      (prints_body hmem (depth + 1) hwf.2.1 hinner hvarsInner (hscope.cons hvar hhead.var) hconst.1)
    have hitem : PrintsLines _ (ended Phrase.Item.tokens) fun i => ∃ l, i.1 = .loop l ∧
        l.tree.1.Matches h ∧
          BodyMatches d.memories ((h.var.name, var) :: scope) (var + 1) l.tree.2 inner :=
      hloop.map (fun l => (.loop l.1, l.2)) (fun _ => by simp only [ended, Phrase.Item.tokens])
        fun l hl => ⟨l.1, rfl, hl⟩
    rw [lowerBody, bodyLines, List.append_cons]
    refine hitem.cons (prints_body hmem depth hwf.2.2 hrest hvarsRest hscope hconst.2) ?_
    rintro ⟨_, span⟩ l' ⟨l, rfl, hmatch, hbody⟩ hl'
    simp only [Phrase.Lines.ofList, Phrase.Items.tree, Phrase.Item.tree]
    exact .loop hmatch hwf.1 hbody hl'

/-! ## Nests -/

/-- Loop `l'` is well formed and resolved to the nest of `l`, whatever the number of the
nest. -/
structure NestMatches (memories : List Memory) (l' l : Source.LoopHead × Source.LoopBody) :
    Prop where
  head : l'.1.WellFormed []
  body : Source.bodyWellFormed memories [l'.1.var.name] l'.2
  ofSource_eq : ∀ id, Nest.ofSource memories id l'.1 l'.2 = .ofSource memories id l.1 l.2

theorem NestMatches.of_body {memories : List Memory} {l' l : Source.LoopHead × Source.LoopBody}
    (hhead : l'.1.Matches l.1) (hbody : BodyMatches memories [(l.1.var.name, 0)] 1 l'.2 l.2) :
    NestMatches memories l' l where
  head := ⟨List.not_mem_nil, hhead.step_ne⟩
  body := hhead.var_eq ▸ hbody.wellFormed
  ofSource_eq id := by
    simp only [Nest.ofSource, hhead.ofSource_eq, hhead.var_eq, hbody.lower_eq, List.map_cons,
      hbody.vars_eq]

/-- The lines of a nest are a loop that is resolved to it. -/
theorem Design.prints_nest (hmem : ∀ m ∈ d.memories, m.IsLegal)
    {l : Source.LoopHead × Source.LoopBody} {id : Nat}
    (hbody : Source.bodyWellFormed d.memories ([(l.1.var.name, 0)].map (·.1)) l.2)
    (hlegal : ∀ h ∈ l.1 :: l.2.heads, h.IsLegal)
    (hconst : ∀ x ∈ (Nest.ofSource d.memories id l.1 l.2).accesses, x.Readable) :
    PrintsLines (d.nestLines (.ofSource d.memories id l.1 l.2)) (ended Phrase.Loop.tokens)
      fun p => NestMatches d.memories p.1.tree l := by
  obtain ⟨hhead, hheads⟩ := List.forall_mem_cons.mp hlegal
  have hfrom : From ((l.1 :: l.2.heads).map (·.var.name)) 0 ((l.1 :: l.2.heads).map (·.var.name)) :=
    ⟨[], [], by simp, rfl⟩
  obtain ⟨hvar, hvars⟩ := hfrom.cons
  have hscope : Scope.Names [] ((l.1 :: l.2.heads).map (·.var.name)) := nofun
  have hinner := prints_body hmem 1 hbody hheads hvars (hscope.cons hvar hhead.var) hconst
  exact (prints_loop hhead hvar id 0 hinner).map (fun p => p) (fun _ => rfl)
    fun _ hp => .of_body hp.1 hp.2

end Bankflow
