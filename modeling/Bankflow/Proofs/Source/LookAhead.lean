import Bankflow.Proofs.Source.Commitment
import Bankflow.Proofs.Source.Derivable

/-!
# One token of look ahead is enough

Rule by rule, the parser does what the forms of the grammar do with rewinding. A form that
lost an optional part is stuck before one of a few tokens: an operator after an operand, a
comma after an item of a list, a keyword where an item or a statement was to start. What
comes next in the grammar takes none of these.

So tokens are parsed as they are read with rewinding, and where that fails, the failure is
the furthest one (`rewinds_iff`).
-/

namespace Bankflow.Source

open Rule (Mimics Attempts)

variable {α : Type} {F K L : Token → Prop}

/-! ## Lists -/

theorem newlines_ne_error (s : Cursor) (e : Failure) : newlines s ≠ .error e := by
  fun_induction newlines s generalizing e with
  | case1 => nofun
  | case2 s t _ e' he ih => exact absurd he (ih e')
  | case3 => nofun

theorem mimics_newlines (n : Nat) : Mimics n newlines .newlines id K := by
  have hnewlines : Mimics n newlines .newlines id (· ∈ [.newline]) := by
    induction n with
    | zero => exact .zero
    | succ n ih =>
      rw [newlines_eq]
      exact .many (Nat.le_refl _) .newline? (fun _ => ih) rfl (fun _ => id) id
  exact hnewlines.total newlines_ne_error

section Items

variable {item : Rule α} {p : Form α}

theorem waits_moreItems (hcomma : ∀ t, K t → exactly (.symbol .comma) t = none)
    (hK : ∀ t, K t → L t) : (Form.moreItems p).Waits K L :=
  .many (.reject (.symbol hcomma)) hK

theorem mimics_moreItems (n : Nat) (h : item.Mimics n p id K)
    (hcomma : ∀ t, K t → exactly (.symbol .comma) t = none) (hK : ∀ t, K t → L t)
    (hL : L (.symbol .comma)) : Mimics n (moreItems item) (.moreItems p) id L := by
  induction n with
  | zero => exact .zero
  | succ n ih =>
    have hn : item.Mimics n p id K := h.mono (Nat.le_succ n)
    rw [moreItems_eq]
    refine .many (q := fun _ => p >>= fun a => (a :: ·) <$> Form.moreItems p) (Nat.le_refl _)
      (.symbol? .comma) (fun _ => .bind hn (fun a => .map (ih hn) fun _ => rfl)
        fun _ => .map (waits_moreItems hcomma hK)) rfl ?_ ?_
    · intro t ht
      rwa [List.mem_singleton.mp ht]
    · intro s f o g hruns
      rcases hruns.of_bind with ⟨_, t, h, hsymbol, hitems⟩ | ⟨rfl, hsymbol⟩
      · rcases hitems.of_bind with ⟨a, u, h', hp, hmore⟩ | ⟨rfl, hp⟩
        · exact .bind (.bind hsymbol hp) (.many_map (m := (a :: ·)) hmore)
        · exact .fail (.bind hsymbol hp)
      · exact .fail (.fail hsymbol)

theorem mimics_commaList (n : Nat) (h : item.Mimics n p id K)
    (hcomma : ∀ t, K t → exactly (.symbol .comma) t = none) (hK : ∀ t, K t → L t)
    (hL : L (.symbol .comma)) : (commaList item).Mimics n (.commaList p) id L :=
  .bind h (fun _ => .map (mimics_moreItems n h hcomma hK hL) fun _ => rfl)
    fun _ => .map (waits_moreItems hcomma hK)

theorem waits_moreLines (hnewline : ∀ t, K t → exactly .newline t = none)
    (hK : ∀ t, K t → L t) : (Form.moreLines p).Waits K L :=
  .bind (.many (.reject (.reject (.test hnewline))) fun _ => id)
    fun _ => .map (.opt (.reject (.test hnewline)) hK)

theorem mimics_lines {item? : Rule (Option α)} (n : Nat) (h : item?.Attempts n p F K)
    (hnewline : ∀ t, K t → exactly .newline t = none) (hF : ∀ t, F t → L t)
    (hK : ∀ t, K t → L t) : Mimics n (lines item?) (.lines p) id L := by
  induction n with
  | zero => exact .zero
  | succ n ih =>
    have hlines : Mimics n (lines item?) (.lines p) id L := ih (h.mono (Nat.le_succ n))
    rw [lines_eq]
    refine .cases (q := fun a => (a :: ·) <$> Form.moreLines p) (Nat.le_refl _) h (fun a => ?_)
      (.pure rfl) (fun a => .map (waits_moreLines hnewline hK)) (.pure hF)
    -- after a newline, whether more lines follow or none
    exact .tryTake_bind (q := fun _ => Form.newlines >>= fun _ => (a :: ·) <$> Form.lines p)
      (fun _ => .seq (mimics_newlines n) fun _ => .map hlines fun _ => rfl) rfl
      .moreLines_of_newline fun hnone => .map (.moreLines_of_fail (.fail hnone))

end Items

/-! ## Index expressions -/

def productTokens : List Token :=
  [.symbol .star, .keyword .mod, .keyword .floorDiv, .keyword .ceilDiv]

def operatorTokens : List Token := .symbol .plus :: .symbol .minus :: productTokens

theorem mem_of_productOp {t : Token} {op : IndexOp} (h : productOp t = some op) :
    t ∈ productTokens := by
  obtain ⟨sign, rfl⟩ := Phrase.exists_of_productOp t op h
  cases sign <;> decide

theorem mem_of_sumOp {t : Token} {op : IndexOp} (h : sumOp t = some op) : t ∈ operatorTokens := by
  obtain ⟨sign, rfl⟩ := Phrase.exists_of_sumOp t op h
  cases sign <;> decide

/-- Operands, each after an operator, one after the other. -/
theorem mimics_operands {n : Nat} {op : Token → Option IndexOp} {operand : Rule Index}
    {p : Form Index} {more : Index → Rule Index} {left : Index}
    (h : operand.Mimics n p id K) (hmore : ∀ left, (more left).Mimics n (.operands op p left) id L)
    (hop : ∀ t o, op t = some o → L t) (hwaits : ∀ t, K t → op t = none)
    (hK : ∀ t, K t → L t) :
    Mimics (n + 1) (do
        match ← Rule.tryTake op .something with
        | none => return left
        | some (op, _) => do
          let right ← operand
          more (.binary op left right)) (.operands op p left) id L := by
  refine .many (q := fun x => p >>= fun right => Form.operands op p (.binary x.1 left right))
    (Nat.le_refl _) (.tryTake hop) (fun x => .bind h (fun right => hmore _) fun right =>
      .many (.reject (.test hwaits)) hK) rfl (fun _ => id) ?_
  intro s f o g hruns
  rcases hruns.of_bind with ⟨x, t, g', hsign, hrest⟩ | ⟨rfl, hsign⟩
  · rcases hrest.of_bind with ⟨right, u, g'', hp, hmany⟩ | ⟨rfl, hp⟩
    · exact .bind (.bind hsign (.bind hp .pure)) hmany
    · exact .fail (.bind hsign (.fail hp))
  · exact .fail (.fail hsign)

/-- The rules of an index expression before fewer than `n` tokens. -/
structure IndexMimicked (n : Nat) : Prop where
  unary : Mimics n unary (.call .unary) id never
  products : ∀ left, Mimics n (products left) (.operands productOp (.call .unary) left) id
    (· ∈ productTokens)
  term : Mimics n term .term id (· ∈ productTokens)
  sums : ∀ left, Mimics n (sums left) (.operands sumOp .term left) id (· ∈ operatorTokens)
  expr : Mimics n expr (.call .expr) id (· ∈ operatorTokens)

theorem mimics_unary {n : Nat} (h : IndexMimicked n) :
    Mimics (n + 1) unary (.call .unary) id never := by
  -- a token that starts one kind of operand starts none of the kinds that are tried after it
  have hwaits : ∀ {F : Token → Prop}, (∀ t, F t → exactly (.symbol .lparen) t = none) →
      (do let _ ← Form.symbol .lparen
          let e ← .call .expr
          let _ ← Form.symbol .rparen
          return e : Form Index).Waits F never :=
    fun hF => .reject (.symbol hF)
  refine .call ?_
  rw [unary_eq]
  refine .cases (Nat.le_refl _) (.symbol? .minus)
    (fun minus => .seq h.unary fun e => .seq .here fun stop => .pure rfl)
    (.cases (Nat.le_succ _) .int? (fun m => .pure rfl)
      (.cases (Nat.le_succ _) .ident? (fun x => .pure rfl)
        (.mark .lparen fun _ => .bind h.expr
          (fun e => .seq (.discard (.symbol .rparen)) fun _ => .pure rfl)
          fun e => .reject (.symbol (by decide)))
        (fun _ => .of_never) (hwaits ?_))
      (fun _ => .of_never) (.choice (.map (.map (.test ?_))) (hwaits ?_)))
    (fun _ => .of_never)
    (.choice (.map (.map (.test ?_))) (.choice (.map (.map (.test ?_))) (hwaits ?_)))
  · rintro _ ⟨name, rfl⟩
    rfl
  · rintro _ ⟨v, rfl⟩
    rfl
  · rintro _ ⟨v, rfl⟩
    rfl
  · decide
  · decide
  · decide

theorem mimics_index (n : Nat) : IndexMimicked n := by
  induction n with
  | zero => exact ⟨.zero, fun _ => .zero, .zero, fun _ => .zero, .zero⟩
  | succ n ih =>
    have hproducts : ∀ left, Mimics (n + 1) (products left)
        (.operands productOp (.call .unary) left) id (· ∈ productTokens) := by
      intro left
      rw [products_eq]
      exact mimics_operands ih.unary ih.products (fun _ _ => mem_of_productOp) nofun nofun
    have hterm : Mimics (n + 1) term .term id (· ∈ productTokens) := by
      rw [term_eq]
      exact .seq (mimics_unary ih) hproducts
    have hsums : ∀ left, Mimics (n + 1) (sums left) (.operands sumOp .term left) id
        (· ∈ operatorTokens) := by
      intro left
      rw [sums_eq]
      exact mimics_operands ih.term ih.sums (fun _ _ => mem_of_sumOp) (by decide) (by decide)
    refine ⟨mimics_unary ih, hproducts, hterm, hsums, .call ?_⟩
    rw [expr_eq]
    exact .bind hterm hsums fun left => .many (.reject (.test (by decide))) (by decide)

/-! ## Loops -/

theorem mimics_signed (n : Nat) : signed.Mimics n .signed id K :=
  .bind (.opt (.symbol? .minus) fun _ => id) (fun _ => .seq .int fun _ => .pure rfl)
    fun _ => .reject (.map (.test (by decide)))

theorem mimics_stepPart (n : Nat) : stepPart.Mimics n
    (.orElse (do let _ ← Form.keyword .step; some <$> Form.int) none) id
      (· ∈ [.keyword .step]) :=
  .cases (Nat.le_succ n) (.keyword? .step) (fun _ => .map .int fun _ => rfl) (.pure rfl)
    (fun _ => .of_never) (.pure fun _ => id)

theorem mimics_openBlock (n : Nat) : openBlock.Mimics n .openBlock id K :=
  .seq (.discard (.symbol .lbrace)) fun _ => mimics_newlines n

theorem mimics_closeBlock (n : Nat) : closeBlock.Mimics n .closeBlock id K :=
  .seq (mimics_newlines n) fun _ =>
    .map (m := Function.const Span PUnit.unit) (.symbol .rbrace) fun _ => rfl

theorem waits_closeBlock (hnewline : ∀ t, F t → exactly .newline t = none)
    (hrbrace : ∀ t, F t → exactly (.symbol .rbrace) t = none) : Form.closeBlock.Waits F K :=
  .bind (.many (.test hnewline) fun _ => id) fun _ => .reject (.symbol hrbrace)

theorem mimics_loopHead (n start : Nat) : (loopHead start).Mimics n (.loopHead start) id K :=
  .seq .ident fun var => .seq (.discard (.symbol .equals)) fun _ =>
    .seq (mimics_signed n) fun lower => .seq (.discard (.keyword .upTo)) fun _ =>
      .seq (mimics_signed n) fun upper => .bind (mimics_stepPart n)
        (fun step => .bind (.opt (.keyword? .pipeline) fun _ => id)
          (fun pipeline => .seq (mimics_openBlock n) fun _ => .pure rfl)
          fun pipeline => .reject (.reject (.symbol (by decide))))
        fun step => .bind (.opt (.keyword (by decide)) fun _ => id)
          fun pipeline => .reject (.reject (.symbol (by decide)))

theorem attempts_accessKind? (n : Nat) : accessKind?.Attempts n
    (.choice ((.read, ·) <$> Form.keyword .read) ((.write, ·) <$> Form.keyword .write))
      (· ∈ [.keyword .read, .keyword .write]) never :=
  .alternative (.keyword? .read) (fun _ => rfl)
    (.begin (q := fun span => pure (AccessKind.write, span)) (Nat.le_succ n) (.keyword? .write) rfl
      fun _ => .pure rfl)
    (by decide) (by decide) (.map (.keyword (by decide)))

theorem attempts_access? (n : Nat) :
    access?.Attempts n .access (· ∈ [.keyword .read, .keyword .write]) never :=
  .begin (Nat.le_succ n) (attempts_accessKind? n) rfl fun key => .seq .ident fun array =>
    .seq (.discard (.symbol .lbracket)) fun _ => .bind
      (mimics_commaList (L := (· ∈ .symbol .comma :: operatorTokens)) n (mimics_index n).expr
        (by decide) (by decide) (by decide))
      (fun indices => .seq (.discard (.symbol .rbracket)) fun _ => .seq .here fun stop => .pure rfl)
      fun indices => .reject (.symbol (by decide))

def itemTokens : List Token := [.keyword .loop, .keyword .read, .keyword .write]

theorem attempts_item? {n : Nat}
    (h : Attempts n loop? (.call .loop) (· ∈ [.keyword .loop]) never) :
    Attempts n item? .item (· ∈ itemTokens) never := by
  rw [item?_eq]
  exact .alternative h (fun _ => rfl) (.map (attempts_access? n)) (by decide) (by decide)
    (.map (.reject (.choice (.map (.keyword (by decide))) (.map (.keyword (by decide))))))

theorem attempts_loop? (n : Nat) :
    Attempts n loop? (.call .loop) (· ∈ [.keyword .loop]) never := by
  induction n with
  | zero => exact .zero
  | succ n ih =>
    refine .call ?_
    rw [loop?_eq, body_eq]
    exact .begin (Nat.le_refl _) (.keyword? .loop) rfl fun span =>
      .seq (mimics_loopHead n span.start) fun head => .bind
        (.through Phrase.bodyOf (mimics_lines n (attempts_item? ih) nofun (fun _ => id) nofun))
        (fun items => .seq (mimics_closeBlock n) fun _ => .seq .here fun stop => .pure rfl)
        fun items => .reject (waits_closeBlock (by decide) (by decide))

/-! ## Statements -/

theorem attempts_set? (n : Nat) : set?.Attempts n .setting (· ∈ [.keyword .set]) K := by
  refine .begin (Nat.le_succ n) (.keyword? .set) rfl fun span => .seq .ident fun name =>
    .seq (.discard (.symbol .equals)) fun _ => .cases_bind (L := never) .int? (fun _ => rfl) rfl
      (fun m => .pure rfl) (.map .ident fun _ => rfl) (.map (.map (.test ?_)))
      (fun value => .seq .here fun stop => .pure rfl) fun value => .of_never
  rintro _ ⟨v, rfl⟩
  rfl

/-- A declaration ends before a memory space that cannot be read, and is complete. -/
theorem attempts_array? (n : Nat) :
    array?.Attempts n .array (· ∈ [.keyword .array]) (· ∈ [.symbol .atSign]) :=
  .begin (Nat.le_succ n) (.keyword? .array) rfl fun span => .seq .ident fun name =>
    .seq (.discard (.symbol .lbracket)) fun _ => .bind
      (mimics_commaList (K := never) (L := (· ∈ [.symbol .comma])) n .int nofun nofun (by decide))
      (fun shape => .seq (.discard (.symbol .rbracket)) fun _ =>
        .seq (.discard (.symbol .colon)) fun _ => .seq .ident fun type =>
          .cases_bind (.symbol? .atSign) (fun _ => rfl) rfl
            (fun _ => .map .int fun _ => rfl) (.pure rfl) (.pure fun _ => id)
            (fun memorySpace => .seq .here fun stop => .pure rfl)
            fun memorySpace => .bind (.here fun _ => id) fun stop => .pure fun _ => id)
      fun shape => .reject (.symbol (by decide))

/-- A name or a comma. -/
def InNames (t : Token) : Prop := (∃ name, t = .ident name) ∨ t = .symbol .comma

theorem mimics_names (n : Nat) : Source.names.Mimics n .names id K := by
  refine .seq (.discard (.symbol .lparen)) fun _ => .cases_bind (L := InNames) .ident?
    (fun _ => rfl) rfl
    (fun x => .map (mimics_moreItems (K := never) n .ident nofun nofun (.inr rfl)) fun _ => rfl)
    (.pure rfl) (.pure fun _ => .inl)
    (fun all => .seq (.discard (.symbol .rparen)) fun _ => .pure rfl)
    fun all => .reject (.symbol ?_)
  rintro _ (⟨name, rfl⟩ | rfl)
  · rfl
  · rfl

/-- A node ends before outputs that cannot be read, and is complete. -/
theorem attempts_node? (n : Nat) :
    node?.Attempts n .node (· ∈ [.keyword .node]) (· ∈ [.symbol .arrow]) :=
  .begin (Nat.le_succ n) (.keyword? .node) rfl fun _ => .seq .ident fun _ =>
    .seq (mimics_names n) fun _ => .cases_bind (.symbol? .arrow) (fun _ => rfl) rfl
      (fun _ => mimics_names n) (.pure rfl) (.pure fun _ => id)
      (fun _ => .seq .here fun _ => .pure rfl)
      fun _ => .bind (.here fun _ => id) fun _ => .pure fun _ => id

theorem attempts_region? (n : Nat) : region?.Attempts n .region (· ∈ [.keyword .region]) K :=
  .begin (Nat.le_succ n) (.keyword? .region) rfl fun span => .seq .ident fun name =>
    .seq (mimics_openBlock n) fun _ => .bind
      (mimics_lines (L := (· ∈ [.keyword .node, .symbol .arrow])) n (attempts_node? n)
        (by decide) (by decide) (by decide))
      (fun nodes => .seq (mimics_closeBlock n) fun _ => .seq .here fun stop => .pure rfl)
      fun nodes => .reject (waits_closeBlock (by decide) (by decide))

theorem attempts_loopStatement? (n : Nat) : loopStatement?.Attempts n
    ((fun l => ⟨.loop l.1 l.2, l.1.span⟩) <$> .call .loop) (· ∈ [.keyword .loop]) K :=
  .begin (Nat.le_succ n) (attempts_loop? n) rfl fun _ => .pure rfl

def statementTokens : List Token :=
  [.keyword .set, .keyword .array, .keyword .loop, .keyword .region]

theorem attempts_statement? (n : Nat) :
    statement?.Attempts n .statement (· ∈ statementTokens) (· ∈ [.symbol .atSign]) :=
  .orElse (attempts_set? n)
    (.orElse (F := (· ∈ statementTokens)) (attempts_array? n)
      (.orElse (F := (· ∈ statementTokens)) (attempts_loopStatement? n) (attempts_region? n)
        (by decide) (by decide) (.reject (.keyword (by decide))))
      (by decide) (fun _ => id)
      (.choice (.map (.call (.reject (.keyword (by decide))))) (.reject (.keyword (by decide)))))
    (by decide) (fun _ => id)
    (.choice (.reject (.keyword (by decide))) (.choice
      (.map (.call (.reject (.keyword (by decide))))) (.reject (.keyword (by decide)))))

theorem mimics_endOfInput {all : List Statement} (n : Nat) :
    (do endOfInput; return all : Rule _).Mimics n (.finish all) id K where
  ok s f c _ hf hc := by
    obtain ⟨b, _, hb, hpure, rfl⟩ := Rule.bind_eq_ok hc
    cases hpure
    obtain ⟨_ | ⟨l, rest⟩, stop, missed⟩ := s
    · cases hb
      exact ⟨all, f, rfl, .finish, hf⟩
    · cases hb
  error s f e _ hf he := by
    rcases Rule.bind_eq_error he with hb | ⟨_, -, hpure⟩
    · obtain ⟨_ | ⟨l, rest⟩, stop, missed⟩ := s
      · cases hb
      · cases hb
        refine ⟨none, ?_, Nat.le_refl _, nofun⟩
        exact (hf.note_eq .endOfInput).subst (motive := Form.Runs _ _ f none)
          (.unfinished (List.cons_ne_nil l rest))
    · cases hpure

theorem mimics_statements (n : Nat) : Source.statements.Mimics n .statements id never :=
  .seq (mimics_newlines n) fun _ => .bind
    (mimics_lines (L := (· ∈ .symbol .atSign :: statementTokens)) n (attempts_statement? n)
      (by decide) (by decide) (by decide))
    (fun all => .seq (mimics_newlines n) fun _ => mimics_endOfInput n)
    fun all => .bind (.many (.test (by decide)) fun _ => id) fun _ => .finish

/-! ## Whole sources -/

theorem rewinds_programOf (tokens : List Lexeme) (length : Nat) :
    Rewinds tokens length (programOf tokens length) := by
  have hat : Failure.At ⟨tokens, []⟩ ⟨tokens, 0, []⟩ := .inl ⟨rfl, rfl⟩
  unfold programOf
  split
  · next f hf =>
    obtain ⟨_ | x, hruns, -, hstuck⟩ :=
      (mimics_statements _).error _ _ f (Nat.lt_succ_self _) hat hf
    · exact .error hruns
    · obtain ⟨-, l, -, hl⟩ := hstuck x rfl
      exact hl.elim
  · next b hb =>
    obtain ⟨all, g, hall, hruns, -⟩ := (mimics_statements _).ok _ _ b (Nat.lt_succ_self _) hat hb
    rw [hall]
    exact .ok hruns

/-- Tokens are parsed to what they are read as with rewinding. -/
theorem rewinds_iff {tokens : List Lexeme} {length : Nat} {r : Except SyntaxError Program} :
    Rewinds tokens length r ↔ r = programOf tokens length :=
  ⟨fun h => h.unique (rewinds_programOf tokens length),
    fun h => h ▸ rewinds_programOf tokens length⟩

end Bankflow.Source
