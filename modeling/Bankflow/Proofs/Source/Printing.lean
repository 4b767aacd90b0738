import Bankflow.Design.Text
import Bankflow.Proofs.Source.Lexing
import Mathlib.Data.List.Forall2

/-!
# Texts of phrases

`Prints s tokens P` says that the text `s` is a phrase that satisfies `P`, and
`PrintsLines ls tokens P` says the same of some lines. Both leave open what follows, so
texts are put together as phrases are: `PrintsLines.append` joins lines, and
`PrintsLines.map` makes one phrase of the parts of a text.
-/

namespace Bankflow.Source

variable {δ ε : Type} {tokens : δ → List Lexeme} {tokens' : ε → List Lexeme} {P : δ → Prop}
  {P' : ε → Prop}

theorem map_eq_map_of_forall₂ {ξ : Type} {f : δ → ξ} {g : ε → ξ} {l : List δ} {l' : List ε}
    (h : List.Forall₂ (fun a b => g b = f a) l l') : l'.map g = l.map f := by
  induction h with
  | nil => rfl
  | cons hab _ ih => rw [List.map_cons, List.map_cons, hab, ih]

theorem forall_mem_of_forall₂ {Q : δ → ε → Prop} {l : List δ} {l' : List ε}
    (h : List.Forall₂ Q l l') (hP : ∀ a b, Q a b → P a) : ∀ a ∈ l, P a := by
  have hboth : List.Forall₂ (fun a b => P a ∧ Q a b) l l' := h.imp fun a b hab => ⟨hP a b hab, hab⟩
  exact ((List.forall₂_and_left _ _).mp hboth).1

/-! ## Texts within a line -/

/-- Before anything that stands apart, the text is cut into the tokens of a phrase that
satisfies `P`. -/
def Prints (s : String) (tokens : δ → List Lexeme) (P : δ → Prop) : Prop :=
  ∀ (rest : String) (R : List Lexeme → Prop), Apart rest →
    (∀ d, P d → Lexes rest fun us => R (tokens d ++ us)) → Lexes (s ++ rest) R

/-- The text of a phrase of one kind is that of one of another kind. -/
theorem Prints.map {s : String} (h : Prints s tokens P) (g : δ → ε)
    (htokens : ∀ d, tokens' (g d) = tokens d) (hP : ∀ d, P d → P' (g d)) : Prints s tokens' P' :=
  fun rest R hrest hR => h rest R hrest fun d hd => htokens d ▸ hR (g d) (hP d hd)

theorem Lexes.indent {rest : String} {R : List Lexeme → Prop} (h : Lexes rest R) (depth : Nat) :
    Lexes (Design.indent depth ++ rest) R := by
  induction depth with
  | zero => exact h
  | succ depth ih =>
    have hsucc : Design.indent (depth + 1) = " " ++ (" " ++ Design.indent depth) := by
      rw [Design.indent, List.replicate_succ, String.join_cons, ← String.append_assoc]
      rfl
    rw [hsucc, String.append_assoc, String.append_assoc]
    exact ih.blank.blank

theorem Prints.indent {s : String} (h : Prints s tokens P) (depth : Nat) :
    Prints (Design.indent depth ++ s) tokens P := by
  intro rest R hrest hR
  rw [String.append_assoc]
  exact (h rest R hrest hR).indent depth

theorem prints_mark (y : Symbol) (hy : y ≠ .minus) :
    Prints y.text (fun span => [y.lexeme span]) fun _ => True :=
  fun _ _ _ hR => Lexes.mark y (absurd · hy) fun span => hR span trivial

/-- An integer is a number, with a minus before it if it is negative. -/
theorem Lexes.integer {rest : String} {R : List Lexeme → Prop} {v : Int64}
    (hv : Word.least < v.toInt) (hrest : Apart rest)
    (hpos : ∀ span, Lexes rest fun us => R (Number.lexeme ⟨v, span⟩ :: us))
    (hneg : ∀ (u : Int64) (minus span : Span), u.toInt = -v.toInt →
      Lexes rest fun us => R (Symbol.minus.lexeme minus :: Number.lexeme ⟨u, span⟩ :: us)) :
    Lexes (toString v.toInt ++ rest) R := by
  cases hn : v.toInt with
  | ofNat n => exact Lexes.natural hn hrest hpos
  | negSucc n =>
    obtain ⟨u, hu⟩ : ∃ u : Int64, u.toInt = (n + 1 : Nat) := by
      refine ⟨Int64.ofNat (n + 1), Int64.toInt_ofNat_of_lt ?_⟩
      simp only [Word.least] at hv
      omega
    show Lexes ("-" ++ toString (n + 1) ++ rest) R
    rw [String.append_assoc]
    refine Lexes.mark .minus (fun _ => ?_) fun minus => ?_
    · obtain ⟨c, cs, hcs, hc, -⟩ := Lexes.digits_toString (n + 1)
      rw [String.toList_append, hcs]
      rintro ⟨⟩
      cases hc
    · exact Lexes.natural hu hrest fun span => hneg u minus span (by omega)

namespace Phrase

theorem Signed.prints {v : Int64} (hv : Word.least < v.toInt) :
    Prints (toString v.toInt) Signed.tokens fun n => n.tree = v := by
  intro rest R hrest hR
  refine Lexes.integer hv hrest (fun span => hR ⟨none, ⟨v, span⟩⟩ rfl) fun u minus span hu => ?_
  refine hR ⟨some minus, ⟨u, span⟩⟩ (Int64.toInt_inj.mp ?_)
  have hlo := Word.least_le_toInt u
  have hhi := Word.toInt_le_greatest v
  simp only [Word.least, Word.greatest] at *
  show (-u).toInt = v.toInt
  rw [Int64.toInt_neg, Int.bmod_eq_of_le] <;> omega

/-! ## Lists -/

/-- An item and a comma before a list. -/
def CommaList.cons (a : δ) (comma : Span) (l : CommaList δ) : CommaList δ :=
  ⟨a, (comma, l.first) :: l.more⟩

theorem CommaList.tokens_cons (a : δ) (comma : Span) (l : CommaList δ) :
    (l.cons a comma).tokens tokens = tokens a ++ Symbol.comma.lexeme comma :: l.tokens tokens := by
  simp [CommaList.tokens, CommaList.cons]

/-- Items between commas are a list of items. -/
theorem CommaList.prints {ξ : Type} (text : ξ → String) {Q : ξ → δ → Prop} :
    ∀ {xs : List ξ}, xs ≠ [] → (∀ x ∈ xs, Prints (text x) tokens (Q x)) →
      Prints (", ".intercalate (xs.map text)) (CommaList.tokens tokens)
        fun l => List.Forall₂ Q xs (l.tree id)
  | [x], _, h => by
    rw [List.map_singleton, String.intercalate_singleton]
    refine (h x (List.mem_singleton_self x)).map (⟨·, []⟩) (fun d => ?_) fun d hd => ?_
    · exact List.append_nil _
    · exact .cons hd .nil
  | x :: y :: xs, _, h => by
    obtain ⟨hx, hxs⟩ := List.forall_mem_cons.mp h
    have ih := CommaList.prints text (List.cons_ne_nil y xs) hxs
    intro rest R hrest hR
    rw [List.map_cons, List.map_cons, String.intercalate_cons_cons, String.append_assoc,
      String.append_assoc]
    refine hx _ _ (Apart.append (by decide) (by decide)) fun d hd => ?_
    refine Lexes.spacedMark .comma 0 1 rfl nofun fun comma => ?_
    refine ih _ _ hrest fun l hl => ?_
    simpa only [CommaList.tokens_cons, List.append_assoc, List.cons_append]
      using hR (l.cons d comma) (.cons hd hl)

theorem CommaList.tree_eq_map (f : δ → ε) (l : CommaList δ) : l.tree f = (l.tree id).map f := by
  simp [CommaList.tree]

theorem prints_ident {name : String} (h : IsName name) :
    Prints name (fun x : Ident => [x.lexeme]) fun x => x.name = name :=
  fun _ _ hrest hR => Lexes.name h hrest fun span => hR ⟨name, span⟩ rfl

/-- Names between brackets, perhaps none. -/
theorem Names.prints {names : List String} (h : ∀ x ∈ names, IsName x) :
    Prints ("(" ++ ", ".intercalate names ++ ")") Names.tokens
      fun n => n.tree.map (·.name) = names := by
  intro rest R hrest hR
  rw [String.append_assoc, String.append_assoc]
  refine Lexes.mark .lparen nofun fun left => ?_
  rcases eq_or_ne names [] with rfl | hne
  · rw [String.intercalate_nil, String.empty_append]
    exact Lexes.mark .rparen nofun fun right => hR ⟨left, none, right⟩ rfl
  · have hlist := CommaList.prints id hne fun x hx => prints_ident (h x hx)
    rw [List.map_id] at hlist
    refine hlist _ _ (Apart.append (by decide) (by decide)) fun l hl => ?_
    refine Lexes.mark .rparen nofun fun right => ?_
    have hnames : (l.tree id).map (·.name) = names.map id := map_eq_map_of_forall₂ hl
    rw [List.map_id] at hnames
    simpa [Names.tokens] using hR ⟨left, some l, right⟩ hnames

end Phrase

/-! ## Lines -/

/-- The text does not start with a line break. -/
def StartsLine (s : String) : Prop := s.toList.head? ≠ some '\n'

/-- The text is not empty and does not start with a line break. -/
def IsLine (s : String) : Prop := s.toList.head?.any (· ≠ '\n') = true

instance (s : String) : Decidable (IsLine s) := inferInstanceAs (Decidable (_ = true))

theorem IsLine.append {s : String} (h : IsLine s) (t : String) : IsLine (s ++ t) := by
  unfold IsLine at *
  rw [String.toList_append]
  cases hcs : s.toList with
  | nil =>
    rw [hcs] at h
    cases h
  | cons c cs => rwa [hcs] at h

theorem IsLine.startsLine {s : String} (h : IsLine s) : StartsLine s := by
  intro hs
  unfold IsLine at h
  rw [hs] at h
  cases h

theorem unlines_cons (l : String) (ls : List String) :
    unlines (l :: ls) = l ++ ("\n" ++ unlines ls) := by
  rw [unlines, List.map_cons, String.join_cons, String.append_assoc]
  rfl

theorem unlines_append (ls ls' : List String) :
    unlines (ls ++ ls') = unlines ls ++ unlines ls' := by
  rw [unlines, List.map_append, String.join_append]
  rfl

theorem startsLine_unlines {ls : List String} {rest : String} (hls : ∀ l ∈ ls, IsLine l)
    (hrest : StartsLine rest) : StartsLine (unlines ls ++ rest) := by
  cases ls with
  | nil => exact hrest
  | cons l ls =>
    rw [unlines_cons, String.append_assoc]
    exact ((hls l List.mem_cons_self).append _).startsLine

/-- At the start of a line, the lines are cut into the tokens of a phrase that satisfies
`P`. -/
structure PrintsLines (ls : List String) (tokens : δ → List Lexeme) (P : δ → Prop) : Prop where
  isLine : ∀ l ∈ ls, IsLine l
  lexes : ∀ (rest : String) (R : List Lexeme → Prop), StartsLine rest →
    (∀ d, P d → Lexes rest fun us => R (tokens d ++ us)) → Lexes (unlines ls ++ rest) R

/-- A phrase and the line break after it. -/
def ended (tokens : δ → List Lexeme) (d : δ × Span) : List Lexeme := tokens d.1 ++ [newline d.2]

namespace PrintsLines

variable {ls ls' : List String}

theorem map (h : PrintsLines ls tokens P) (g : δ → ε) (htokens : ∀ d, tokens' (g d) = tokens d)
    (hP : ∀ d, P d → P' (g d)) : PrintsLines ls tokens' P' where
  isLine := h.isLine
  lexes rest R hrest hR := h.lexes rest R hrest fun d hd => htokens d ▸ hR (g d) (hP d hd)

theorem append (h : PrintsLines ls tokens P) (h' : PrintsLines ls' tokens' P') :
    PrintsLines (ls ++ ls') (fun d : δ × ε => tokens d.1 ++ tokens' d.2)
      fun d => P d.1 ∧ P' d.2 where
  isLine := List.forall_mem_append.mpr ⟨h.isLine, h'.isLine⟩
  lexes rest R hrest hR := by
    rw [unlines_append, String.append_assoc]
    refine h.lexes _ _ (startsLine_unlines h'.isLine hrest) fun d hd => ?_
    refine h'.lexes _ _ hrest fun e he => ?_
    simpa only [List.append_assoc] using hR (d, e) ⟨hd, he⟩

theorem line {s : String} (hs : IsLine s) (h : Prints s tokens P) :
    PrintsLines [s] (ended tokens) fun d => P d.1 where
  isLine := List.forall_mem_singleton.mpr hs
  lexes rest R hrest hR := by
    rw [unlines_cons, String.append_assoc, String.append_assoc, show unlines [] = "" from rfl,
      String.empty_append]
    refine h _ _ (Apart.append (by decide) (by decide)) fun d hd => ?_
    refine Lexes.newline hrest fun span => ?_
    simpa only [ended, List.append_assoc, List.cons_append, List.nil_append] using hR (d, span) hd

theorem nil {item : δ → List Lexeme} {P : List (δ × Span) → Prop} (h : P []) :
    PrintsLines [] (List.flatMap (ended item)) P where
  isLine := nofun
  lexes _ _ _ hR := hR [] h

theorem cons {item : δ → List Lexeme} {Q : δ × Span → Prop} {P P' : List (δ × Span) → Prop}
    (h : PrintsLines ls (ended item) Q) (h' : PrintsLines ls' (List.flatMap (ended item)) P)
    (hP : ∀ d l, Q d → P l → P' (d :: l)) :
    PrintsLines (ls ++ ls') (List.flatMap (ended item)) P' :=
  (h.append h').map (fun x => x.1 :: x.2) (fun _ => List.flatMap_cons) fun x hx =>
    hP x.1 x.2 hx.1 hx.2

/-- Blocks of lines, each an item. -/
theorem items {ξ : Type} {item : δ → List Lexeme} {lines : ξ → List String} {Q : ξ → δ → Prop} :
    ∀ {xs : List ξ}, (∀ x ∈ xs, PrintsLines (lines x) (ended item) fun d => Q x d.1) →
      PrintsLines (xs.flatMap lines) (List.flatMap (ended item))
        fun l => List.Forall₂ Q xs (l.map (·.1))
  | [], _ => nil .nil
  | x :: xs, h => by
    obtain ⟨hx, hxs⟩ := List.forall_mem_cons.mp h
    rw [List.flatMap_cons]
    exact hx.cons (items hxs) fun _ _ hd hl => .cons hd hl

end PrintsLines

namespace Phrase

/-- Items that end with a line break each. -/
def Lines.ofList : List (δ × Span) → Lines δ
  | [] => .done
  | (a, span) :: l => .next a span [] (ofList l)

theorem Lines.tokens_ofList (item : δ → List Lexeme) :
    ∀ l : List (δ × Span), (ofList l).tokens item = l.flatMap (ended item)
  | [] => rfl
  | (a, span) :: l => by
    simp [ofList, Lines.tokens, tokens_ofList item l, ended]

theorem Lines.tree_ofList (f : δ → ε) :
    ∀ l : List (δ × Span), (ofList l).tree f = l.map fun d => f d.1
  | [] => rfl
  | (a, span) :: l => by
    simp [ofList, Lines.tree, tree_ofList f l]

end Phrase

end Bankflow.Source
