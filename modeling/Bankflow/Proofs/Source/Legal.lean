import Bankflow.Proofs.Source.Derivable
import Bankflow.Proofs.Source.Lexing
import Bankflow.Proofs.Source.Reading

/-!
# Names and numbers of a program

What the tokens of a source cannot be, its program cannot have either: names are names,
bounds of loops are not the least word, for only a number that is not negative can be
written after the sign, and steps are not negative (`decl_isLegal_of_parse`).
-/

namespace Bankflow.Source

structure ArrayDecl.IsLegal (d : ArrayDecl) : Prop where
  name : IsName d.name.name
  elementType : IsName d.elementType.name
  shape_ne : d.shape ≠ []

structure LoopHead.IsLegal (h : LoopHead) : Prop where
  var : IsName h.var.name
  lower : Word.least < h.lower.toInt
  upper : Word.least < h.upper.toInt
  step : ∀ n, h.step = some n → 0 ≤ n.value.toInt

structure Node.IsLegal (n : Node) : Prop where
  name : IsName n.name.name
  inputs : ∀ b ∈ n.inputs, IsName b.name
  outputs : ∀ b ∈ n.outputs, IsName b.name

/-- What the names and numbers of a declaration have in common in every source. Indices do
not matter here, and settings are left out. -/
def Decl.IsLegal : Decl → Prop
  | .setting .. => True
  | .array d => d.IsLegal
  | .loop h body => ∀ h' ∈ h :: body.heads, h'.IsLegal
  | .region name nodes => IsName name.name ∧ ∀ n ∈ nodes, n.IsLegal

/-! ## Legal tokens -/

/-- Tokens that a source can have. -/
def AllLegal (ts : List Lexeme) : Prop := ∀ l ∈ ts, l.token.IsLegal

namespace AllLegal

variable {l : Lexeme} {ts us : List Lexeme}

@[simp] theorem nil : AllLegal [] := nofun

@[simp] theorem cons_iff : AllLegal (l :: ts) ↔ l.token.IsLegal ∧ AllLegal ts :=
  List.forall_mem_cons

@[simp] theorem append_iff : AllLegal (ts ++ us) ↔ AllLegal ts ∧ AllLegal us :=
  List.forall_mem_append

end AllLegal

@[simp] theorem Ident.isLegal_lexeme {x : Ident} : x.lexeme.token.IsLegal ↔ IsName x.name := .rfl

@[simp] theorem Number.isLegal_lexeme {n : Number} : n.lexeme.token.IsLegal ↔ 0 ≤ n.value.toInt :=
  .rfl

namespace Phrase

theorem CommaList.allLegal {α β : Type} {item : α → List Lexeme} {tree : α → β} {P : β → Prop}
    {l : CommaList α} (h : AllLegal (l.tokens item)) (hitem : ∀ a, AllLegal (item a) → P (tree a)) :
    ∀ b ∈ l.tree tree, P b := by
  obtain ⟨hfirst, hmore⟩ := AllLegal.append_iff.mp h
  refine List.forall_mem_cons.mpr ⟨hitem _ hfirst, List.forall_mem_map.mpr fun a ha => hitem _ ?_⟩
  intro u hu
  exact hmore u (List.mem_flatMap.mpr ⟨a, ha, List.mem_cons_of_mem _ hu⟩)

theorem Lines.allLegal {α β : Type} {item : α → List Lexeme} {tree : α → β} {P : β → Prop}
    (hitem : ∀ a, AllLegal (item a) → P (tree a)) :
    ∀ {l : Lines α}, AllLegal (l.tokens item) → ∀ b ∈ l.tree tree, P b
  | .done, _ => nofun
  | .last a, h => List.forall_mem_singleton.mpr (hitem a h)
  | .next a _ _ rest, h => by
    simp only [Lines.tokens, AllLegal.append_iff, AllLegal.cons_iff] at h
    exact List.forall_mem_cons.mpr ⟨hitem a h.1, Lines.allLegal hitem h.2.2.2⟩

/-- A signed number is not the least word. -/
theorem Signed.least_lt {n : Signed} (h : AllLegal n.tokens) : Word.least < n.tree.toInt := by
  have hnum : 0 ≤ n.number.value.toInt := by
    simpa using (AllLegal.append_iff.mp h).2
  have hhi := Word.toInt_le_greatest n.number.value
  unfold Signed.tree
  simp only [Word.least, Word.greatest] at *
  split
  · rw [Int64.toInt_neg, Int.bmod_eq_of_le] <;> omega
  · omega

theorem Head.isLegal {h : Head} (hl : AllLegal h.tokens) (span : Span) : (h.tree span).IsLegal := by
  simp only [Head.tokens, AllLegal.append_iff, AllLegal.cons_iff] at hl
  obtain ⟨hvar, -, hlower, -, hupper, hstep, -⟩ := hl
  refine ⟨hvar, Signed.least_lt hlower, Signed.least_lt hupper, fun n hn => ?_⟩
  obtain ⟨⟨at₀, n'⟩, hstep', rfl⟩ := Option.map_eq_some_iff.mp hn
  rw [hstep'] at hstep
  exact hstep n'.lexeme (List.mem_cons_of_mem _ (List.mem_singleton_self _))

mutual

theorem Loop.isLegal : ∀ {l : Loop}, AllLegal l.tokens →
    ∀ h ∈ l.tree.1 :: l.tree.2.heads, h.IsLegal
  | .mk _ head items _, hl => by
    simp only [Loop.tokens, AllLegal.append_iff, AllLegal.cons_iff] at hl
    exact List.forall_mem_cons.mpr ⟨Head.isLegal hl.2.1 _, Items.isLegal hl.2.2.1⟩

theorem Item.isLegal : ∀ {i : Item} {rest : LoopBody}, AllLegal i.tokens →
    (∀ h ∈ rest.heads, h.IsLegal) → ∀ h ∈ (i.tree rest).heads, h.IsLegal
  | .loop _, _, hl, hrest => by
    obtain ⟨hhead, hinner⟩ := List.forall_mem_cons.mp (Loop.isLegal hl)
    exact List.forall_mem_cons.mpr ⟨hhead, List.forall_mem_append.mpr ⟨hinner, hrest⟩⟩
  | .access _, _, _, hrest => hrest

theorem Items.isLegal : ∀ {is : Items}, AllLegal is.tokens → ∀ h ∈ is.tree.heads, h.IsLegal
  | .done, _ => nofun
  | .last i, hl => Item.isLegal hl nofun
  | .next i _ _ rest, hl => by
    simp only [Items.tokens, AllLegal.append_iff, AllLegal.cons_iff] at hl
    exact Item.isLegal hl.1 (Items.isLegal hl.2.2.2)

end

theorem Array.isLegal {a : Array} (h : AllLegal a.tokens) : a.tree.IsLegal := by
  simp only [Array.tokens, AllLegal.append_iff, AllLegal.cons_iff] at h
  obtain ⟨-, hname, -, -, -, -, htype, -⟩ := h
  exact ⟨hname, htype, List.cons_ne_nil _ _⟩

theorem Names.isLegal {n : Names} (h : AllLegal n.tokens) : ∀ x ∈ n.tree, IsName x.name := by
  simp only [Names.tokens, AllLegal.append_iff, AllLegal.cons_iff] at h
  unfold Names.tree
  cases hall : n.all with
  | none => exact List.forall_mem_nil _
  | some l =>
    rw [hall] at h
    have hl : AllLegal (l.tokens fun x => [x.lexeme]) := h.2.1
    exact CommaList.allLegal hl fun x hx => (AllLegal.cons_iff.mp hx).1

theorem Node.isLegal {n : Node} (h : AllLegal n.tokens) : n.tree.IsLegal := by
  simp only [Node.tokens, AllLegal.append_iff, AllLegal.cons_iff] at h
  obtain ⟨-, hname, hinputs, houtputs⟩ := h
  refine ⟨hname, Names.isLegal hinputs, ?_⟩
  unfold Node.tree
  cases hout : n.outputs with
  | none => exact List.forall_mem_nil _
  | some l =>
    rw [hout] at houtputs
    exact Names.isLegal (AllLegal.cons_iff.mp houtputs).2

theorem Region.isLegal {r : Region} (h : AllLegal r.tokens) : r.tree.IsLegal := by
  simp only [Region.tokens, AllLegal.append_iff, AllLegal.cons_iff, List.cons_append] at h
  obtain ⟨-, hname, -, -, hnodes, -⟩ := h
  exact ⟨hname, Lines.allLegal (fun _ => Node.isLegal) hnodes⟩

theorem Statement.isLegal : ∀ {s : Statement}, AllLegal s.tokens → s.tree.decl.IsLegal
  | .setting _, _ => trivial
  | .array _, h => Array.isLegal h
  | .loop _, h => Loop.isLegal h
  | .region _, h => Region.isLegal h

end Phrase

/-- The names and numbers of a program that was read from a source. -/
theorem decl_isLegal_of_parse {source : String} {p : Program} {errors : List SyntaxError}
    (h : parse source = ⟨some p, errors⟩) : ∀ s ∈ p.statements, s.decl.IsLegal := by
  unfold parse at h
  simp only at h
  split at h
  · next q hq =>
    cases h
    obtain ⟨d, hd⟩ := Phrase.Program.exists_of_programOf hq
    have hlegal : AllLegal d.tokens := hd ▸ fun l hl => isLegal_of_mem_lex hl
    rw [← hd, d.programOf_tokens, Except.ok.injEq] at hq
    subst hq
    exact Phrase.Lines.allLegal (P := fun s : Statement => s.decl.IsLegal)
      (fun _ => Phrase.Statement.isLegal)
      (AllLegal.append_iff.mp hlegal).2
  · cases h

end Bankflow.Source
