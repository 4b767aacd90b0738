import Bankflow.Proofs.Source.Rules

/-!
# Phrases are read

Each rule takes the tokens of its phrases, wherever they stand, and gives their trees. Where
a rule may go on, the phrase must be followed by something that does not continue it.
-/

namespace Bankflow.Source.Phrase

variable {α β : Type} {stop : Nat} {rest : List Lexeme}

/-! ## Lists -/

theorem reads_newlines (blank : List Span) (h : Halts (exactly .newline) rest) :
    Rule.Reads newlines stop (blank.map newline) () rest := by
  induction blank generalizing stop with
  | nil =>
    rw [newlines_eq]
    exact .skip (.tryTake_none h _) .pure
  | cons span blank ih =>
    rw [newlines_eq]
    exact .token (.tryTake (a := ()) rfl _) ih

section Items

variable {tokens : α → List Lexeme} {tree : α → β} (follows : List Lexeme → Prop)

theorem follows_more (hcomma : ∀ span rest, follows (Symbol.comma.lexeme span :: rest))
    (hrest : follows rest) (more : List (Span × α)) :
    follows ((more.flatMap fun (comma, a) => Symbol.comma.lexeme comma :: tokens a) ++ rest) := by
  cases more with
  | nil => exact hrest
  | cons => exact hcomma _ _

theorem reads_moreItems {item : Rule β}
    (hitem : ∀ a stop rest, follows rest → item.Reads stop (tokens a) (tree a) rest)
    (hcomma : ∀ span rest, follows (Symbol.comma.lexeme span :: rest))
    (hrest : follows rest) (hhalts : Halts (exactly (.symbol .comma)) rest)
    (more : List (Span × α)) :
    Rule.Reads (moreItems item) stop
      (more.flatMap fun (comma, a) => Symbol.comma.lexeme comma :: tokens a)
      (more.map fun (_, a) => tree a) rest := by
  induction more generalizing stop with
  | nil =>
    rw [moreItems_eq]
    exact .skip (.symbol?_none hhalts) .pure
  | cons first more ih =>
    obtain ⟨comma, a⟩ := first
    rw [moreItems_eq]
    exact .token (.symbol? .comma comma)
      (.bind (hitem a _ _ (follows_more follows hcomma hrest more)) (.last ih .pure))

theorem CommaList.reads {item : Rule β}
    (hitem : ∀ a stop rest, follows rest → item.Reads stop (tokens a) (tree a) rest)
    (hcomma : ∀ span rest, follows (Symbol.comma.lexeme span :: rest))
    (hrest : follows rest) (hhalts : Halts (exactly (.symbol .comma)) rest) (l : CommaList α) :
    (commaList item).Reads stop (l.tokens tokens) (l.tree tree) rest :=
  .bind (hitem l.first _ _ (follows_more follows hcomma hrest l.more))
    (.last (reads_moreItems follows hitem hcomma hrest hhalts l.more) .pure)

theorem Lines.halts_newline (hhead : ∀ a rest, Halts (exactly .newline) (tokens a ++ rest))
    (h : Halts (exactly .newline) rest) (l : Lines α) :
    Halts (exactly .newline) (l.tokens tokens ++ rest) := by
  cases l with
  | done => exact h
  | last a => exact hhead a _
  | next a => simpa only [Lines.tokens, List.append_assoc] using hhead a _

theorem Lines.reads {item? : Rule (Option β)} (l : Lines α)
    (hitem : ∀ a ∈ l.tree id, ∀ stop rest, follows rest →
      item?.Reads stop (tokens a) (some (tree a)) rest)
    (hhead : ∀ a rest, Halts (exactly .newline) (tokens a ++ rest))
    (hbreak : ∀ span rest, follows (newline span :: rest)) (hrest : follows rest)
    (hnone : ∀ stop, item?.Reads stop [] none rest) (hhalts : Halts (exactly .newline) rest) :
    Rule.Reads (lines item?) stop (l.tokens tokens) (l.tree tree) rest := by
  induction l generalizing stop with
  | done =>
    rw [lines_eq]
    exact .skip (hnone _) .pure
  | last a =>
    rw [lines_eq]
    exact .last (hitem a List.mem_cons_self _ _ hrest) (.skip (.tryTake_none hhalts _) .pure)
  | next a first blank l ih =>
    obtain ⟨ha, hmore⟩ := List.forall_mem_cons.mp hitem
    rw [lines_eq]
    exact .bind (ha _ _ (hbreak _ _)) (.token (.tryTake (a := ()) rfl _)
      (.bind (reads_newlines blank (l.halts_newline hhead hhalts)) (.last (ih hmore) .pure)))

end Items

/-! ## Index expressions -/

theorem Summands.halts_productOp (f : Summands) (h : Halts productOp rest) :
    Halts productOp (f.tokens ++ rest) := by
  cases f with
  | done => exact h
  | more sign => cases sign <;> exact halts_cons rfl

mutual

theorem Unary.reads (stop : Nat) (rest : List Lexeme) :
    ∀ u : Unary, Rule.Reads unary stop u.tokens u.tree rest
  | .neg minus e => by
    rw [unary_eq, Unary.tree, extent_cons]
    exact .token (.symbol? .minus minus) (.last (e.reads _ _) (.skip .here .pure))
  | .int n => by
    rw [unary_eq]
    exact .skip (.symbol?_none (halts_cons rfl)) (.token (.int? n) .pure)
  | .var x => by
    rw [unary_eq]
    exact .skip (.symbol?_none (halts_cons rfl))
      (.skip (.int?_none (halts_cons rfl)) (.token (.ident? x) .pure))
  | .brackets left e right => by
    rw [unary_eq]
    exact .skip (.symbol?_none (halts_cons rfl)) (.skip (.int?_none (halts_cons rfl))
      (.skip (.ident?_none (halts_cons rfl)) (.token (.mark .lparen left)
        (.bind (e.reads _ _ (halts_cons rfl) (halts_cons rfl))
          (.token (.mark .rparen right) .pure)))))

theorem Factors.reads (left : Index) (stop : Nat) (rest : List Lexeme)
    (h : Halts productOp rest) :
    ∀ f : Factors, Rule.Reads (products left) stop f.tokens (f.tree left) rest
  | .done => by
    rw [products_eq]
    exact .skip (.tryTake_none h _) .pure
  | .more sign span u f => by
    rw [products_eq]
    exact .token (.tryTake (a := sign.op) (by cases sign <;> rfl) _)
      (.bind (u.reads _ _) (f.reads _ _ _ h))

theorem Term.reads (stop : Nat) (rest : List Lexeme) (h : Halts productOp rest) :
    ∀ t : Term, Rule.Reads term stop t.tokens t.tree rest
  | .mk u f => by
    rw [term_eq]
    exact .bind (u.reads _ _) (f.reads _ _ _ h)

theorem Summands.reads (left : Index) (stop : Nat) (rest : List Lexeme)
    (hproduct : Halts productOp rest) (hsum : Halts sumOp rest) :
    ∀ f : Summands, Rule.Reads (sums left) stop f.tokens (f.tree left) rest
  | .done => by
    rw [sums_eq]
    exact .skip (.tryTake_none hsum _) .pure
  | .more sign span t f => by
    rw [sums_eq]
    exact .token (.tryTake (a := sign.op) (by cases sign <;> rfl) _)
      (.bind (t.reads _ _ (Summands.halts_productOp f hproduct)) (f.reads _ _ _ hproduct hsum))

theorem Expr.reads (stop : Nat) (rest : List Lexeme) (hproduct : Halts productOp rest)
    (hsum : Halts sumOp rest) : ∀ e : Expr, Rule.Reads expr stop e.tokens e.tree rest
  | .mk t f => by
    rw [expr_eq]
    exact .bind (t.reads _ _ (Summands.halts_productOp f hproduct)) (f.reads _ _ _ hproduct hsum)

end

/-! ## Loops -/

theorem Signed.reads (n : Signed) : signed.Reads stop n.tokens n.tree rest := by
  obtain ⟨minus, number⟩ := n
  cases minus with
  | none => exact .skip (.symbol?_none (halts_cons rfl)) (.token (.int number) .pure)
  | some span => exact .token (.symbol? .minus span) (.token (.int number) .pure)

theorem reads_accessKind? (kind : AccessKind) (span : Span) :
    accessKind?.Reads stop [(accessKeyword kind).lexeme span] (some (kind, span)) rest := by
  cases kind with
  | read => exact .token (.keyword? .read span) .pure
  | write =>
    exact .skip (.keyword?_none (halts_cons rfl)) (.token (.keyword? .write span) .pure)

theorem Access.reads (a : Access) : access?.Reads stop a.tokens (some a.tree) rest := by
  have hindices : ∀ stop, (commaList expr).Reads stop (a.indices.tokens Expr.tokens)
      (a.indices.tree Expr.tree) ([Symbol.rbracket.lexeme a.right] ++ rest) := fun _ =>
    CommaList.reads (fun rest => Halts productOp rest ∧ Halts sumOp rest)
      (fun e _ _ h => e.reads _ _ h.1 h.2) (fun _ _ => ⟨halts_cons rfl, halts_cons rfl⟩)
      ⟨halts_cons rfl, halts_cons rfl⟩ (halts_cons rfl) a.indices
  rw [Access.tree, Access.tokens, extent_cons]
  exact .token (reads_accessKind? a.kind a.keyword) (.token (.ident a.array)
    (.token (.mark .lbracket a.left) (.bind (hindices _)
      (.token (.mark .rbracket a.right) (.skip .here (.pure_eq (by simp; rfl)))))))

theorem reads_access?_none (hread : Halts (exactly (.keyword .read)) rest)
    (hwrite : Halts (exactly (.keyword .write)) rest) : access?.Reads stop [] none rest :=
  .skip (.skip (.keyword?_none hread) (.skip (.keyword?_none hwrite) .pure)) .pure

theorem reads_stepPart (step : Option (Span × Number))
    (h : Halts (exactly (.keyword .step)) rest) :
    stepPart.Reads stop (step.elim [] fun (span, n) => [Keyword.step.lexeme span, n.lexeme])
      (step.map (·.2)) rest := by
  cases step with
  | none => exact .skip (.keyword?_none h) .pure
  | some step => exact .token (.keyword? .step step.1) (.map (.int step.2))

theorem reads_pipeline (pipeline : Option Span)
    (h : Halts (exactly (.keyword .pipeline)) rest) :
    (keyword? .pipeline).Reads stop
      (pipeline.elim [] fun span => [Keyword.pipeline.lexeme span]) pipeline rest := by
  cases pipeline with
  | none => exact .keyword?_none h
  | some span => exact .keyword? .pipeline span

theorem reads_openBlock (left : Span) (blank : List Span) (h : Halts (exactly .newline) rest) :
    openBlock.Reads stop (Symbol.lbrace.lexeme left :: blank.map newline) () rest :=
  .token (.mark .lbrace left) (reads_newlines blank h)

theorem reads_closeBlock (right : Span) :
    closeBlock.Reads stop [Symbol.rbrace.lexeme right] () rest :=
  .skip (reads_newlines [] (halts_cons rfl)) (.mark .rbrace right)

theorem Head.reads (h : Head) (start : Nat) (hrest : Halts (exactly .newline) rest) :
    (loopHead start).Reads stop h.tokens (h.tree ⟨start, start⟩) rest := by
  have hstep : Halts (exactly (.keyword .step))
      ((h.pipeline.elim [] fun span => [Keyword.pipeline.lexeme span]) ++
        Symbol.lbrace.lexeme h.left :: h.blank.map newline ++ rest) := by
    cases h.pipeline <;> exact halts_cons rfl
  exact .token (.ident h.var) (.token (.mark .equals h.equals) (.bind h.lower.reads
    (.token (.discard (.keyword .upTo h.upTo)) (.bind h.upper.reads
      (.bind (reads_stepPart h.step hstep) (.bind (reads_pipeline h.pipeline (halts_cons rfl))
        (.last (reads_openBlock h.left h.blank hrest) .pure)))))))

theorem reads_loop?_none (h : Halts (exactly (.keyword .loop)) rest) :
    Rule.Reads loop? stop [] none rest := by
  rw [loop?_eq]
  exact .skip (.keyword?_none h) .pure

theorem Access.halts {want : Token → Option α} (a : Access)
    (hread : want (.keyword .read) = none) (hwrite : want (.keyword .write) = none) :
    Halts want (a.tokens ++ rest) := by
  refine halts_cons ?_
  cases a.kind with
  | read => exact hread
  | write => exact hwrite

theorem Item.halts_newline (i : Item) : Halts (exactly .newline) (i.tokens ++ rest) := by
  cases i with
  | loop l => cases l; exact halts_cons rfl
  | access a => exact a.halts rfl rfl

theorem Items.halts_newline (i : Items) (h : Halts (exactly .newline) rest) :
    Halts (exactly .newline) (i.tokens ++ rest) := by
  rw [Items.tokens_eq]
  exact Lines.halts_newline (fun i _ => i.halts_newline) h i

mutual

theorem Loop.reads (stop : Nat) (rest : List Lexeme) :
    ∀ l : Loop, Rule.Reads loop? stop l.tokens (some l.tree) rest
  | .mk keyword head items right => by
    have hlines : Halts (exactly .newline)
        (Items.tokens items ++ [Symbol.rbrace.lexeme right] ++ rest) := by
      rw [List.append_assoc]
      exact Items.halts_newline items (halts_cons rfl)
    have hbody : ∀ stop, Rule.Reads body stop (Items.tokens items) (Items.tree items)
        ([Symbol.rbrace.lexeme right] ++ rest) := by
      intro stop
      have hnone : ∀ stop, Rule.Reads item? stop [] none
          ([Symbol.rbrace.lexeme right] ++ rest) := by
        intro stop
        rw [item?_eq]
        exact .skip (reads_loop?_none (halts_cons rfl))
          (.map (reads_access?_none (halts_cons rfl) (halts_cons rfl)))
      rw [body_eq, Items.tokens_eq, Items.tree_eq]
      exact .map (items.reads (fun _ => True)
        (fun i hi stop rest _ => Items.reads items i hi stop rest) (fun i _ => i.halts_newline)
        (fun _ _ => trivial) trivial hnone (halts_cons rfl))
    rw [loop?_eq, Loop.tree, Loop.tokens, extent_cons]
    exact .token (.keyword? .loop keyword) (.bind (head.reads _ hlines) (.bind (hbody _)
      (.last (reads_closeBlock right) (.skip .here (.pure_eq (by simp; rfl))))))

theorem Item.reads (stop : Nat) (rest : List Lexeme) :
    ∀ i : Item, Rule.Reads item? stop i.tokens (some i.tree) rest
  | .loop l => by
    rw [item?_eq]
    exact .last (l.reads _ _) .pure
  | .access a => by
    rw [item?_eq]
    exact .skip (reads_loop?_none (a.halts rfl rfl)) (.map a.reads)

theorem Items.reads : ∀ (items : Lines Item), ∀ i ∈ items.tree id, ∀ (stop : Nat)
    (rest : List Lexeme), Rule.Reads item? stop i.tokens (some i.tree) rest
  | .done => nofun
  | .last i => List.forall_mem_singleton.mpr fun stop rest => i.reads stop rest
  | .next i _ _ items =>
    List.forall_mem_cons.mpr ⟨fun stop rest => i.reads stop rest, Items.reads items⟩

end

/-! ## Statements -/

theorem Setting.reads (s : Setting) :
    set?.Reads stop s.tokens (some ⟨s.tree, extent s.tokens⟩) rest := by
  obtain ⟨keyword, name, equals, value⟩ := s
  cases value with
  | int n =>
    exact .token (.keyword? .set keyword) (.token (.ident name) (.token (.mark .equals equals)
      (.token (.int? n) (.skip .pure (.skip .here .pure)))))
  | ident x =>
    exact .token (.keyword? .set keyword) (.token (.ident name) (.token (.mark .equals equals)
      (.skip (.int?_none (halts_cons rfl)) (.token (.map (.ident x)) (.skip .here .pure)))))

theorem Array.reads (a : Array) (h : Halts (exactly (.symbol .atSign)) rest) :
    array?.Reads stop a.tokens (some ⟨a.tree, extent a.tokens⟩) rest := by
  obtain ⟨keyword, name, left, shape, right, colon, elementType, space⟩ := a
  have hshape : ∀ stop rest, (commaList int).Reads stop (shape.tokens fun n => [n.lexeme])
      (shape.tree id) (Symbol.rbracket.lexeme right :: rest) := fun _ _ =>
    CommaList.reads (fun _ => True) (fun n _ _ _ => .int n) (fun _ _ => trivial) trivial
      (halts_cons rfl) shape
  rw [Array.tree, Array.tokens, extent_cons]
  refine .token (.keyword? .array keyword) (.token (.ident name) (.token (.mark .lbracket left)
    (.bind (hshape _ _) (.token (.mark .rbracket right) (.token (.mark .colon colon)
      (.token (.ident elementType) ?_))))))
  cases space with
  | none =>
    exact .skip (.symbol?_none h) (.skip .pure (.skip .here (.pure_eq (by simp; rfl))))
  | some space =>
    exact .token (.symbol? .atSign space.1) (.token (.map (.int space.2))
      (.skip .here (.pure_eq (by simp; rfl))))

theorem Names.reads (n : Names) : Source.names.Reads stop n.tokens n.tree rest := by
  obtain ⟨left, all, right⟩ := n
  cases all with
  | none =>
    exact .token (.mark .lparen left) (.skip (.ident?_none (halts_cons rfl))
      (.skip .pure (.token (.mark .rparen right) .pure)))
  | some all =>
    have hmore : ∀ stop, Rule.Reads (moreItems ident) stop _ _
        ([Symbol.rparen.lexeme right] ++ rest) := fun _ =>
      reads_moreItems (fun _ => True) (fun x _ _ _ => .ident x) (fun _ _ => trivial) trivial
        (halts_cons rfl) all.more
    exact .token (.mark .lparen left) (.token (.ident? all.first)
      (.bind (.map (hmore _)) (.token (.mark .rparen right) .pure)))

theorem Node.reads (n : Node) (h : Halts (exactly (.symbol .arrow)) rest) :
    node?.Reads stop n.tokens (some n.tree) rest := by
  obtain ⟨keyword, name, inputs, outputs⟩ := n
  rw [Node.tree, Node.tokens, extent_cons]
  refine .token (.keyword? .node keyword) (.token (.ident name) (.bind (Names.reads inputs) ?_))
  cases outputs with
  | none => exact .skip (.symbol?_none h) (.skip .pure (.skip .here (.pure_eq (by simp; rfl))))
  | some outputs =>
    exact .token (.symbol? .arrow outputs.1) (.last outputs.2.reads
      (.skip .here (.pure_eq (by simp; rfl))))

theorem reads_node?_none (h : Halts (exactly (.keyword .node)) rest) :
    node?.Reads stop [] none rest :=
  .skip (.keyword?_none h) .pure

theorem Region.reads (r : Region) :
    region?.Reads stop r.tokens (some ⟨r.tree, extent r.tokens⟩) rest := by
  have hlines : Halts (exactly .newline)
      (r.nodes.tokens Node.tokens ++ [Symbol.rbrace.lexeme r.right] ++ rest) := by
    rw [List.append_assoc]
    exact Lines.halts_newline (fun _ _ => halts_cons rfl) (halts_cons rfl) _
  have hnodes : ∀ stop, Rule.Reads (lines node?) stop (r.nodes.tokens Node.tokens)
      (r.nodes.tree Node.tree) ([Symbol.rbrace.lexeme r.right] ++ rest) := fun _ =>
    r.nodes.reads (fun rest => Halts (exactly (.symbol .arrow)) rest) (fun n _ _ _ => n.reads)
      (fun _ _ => halts_cons rfl) (fun _ _ => halts_cons rfl) (halts_cons rfl)
      (fun _ => reads_node?_none (halts_cons rfl)) (halts_cons rfl)
  rw [Region.tree, Region.tokens, extent_cons]
  exact .token (.keyword? .region r.keyword) (.token (.ident r.name)
    (.bind (reads_openBlock r.left r.blank hlines) (.bind (hnodes _)
      (.last (reads_closeBlock r.right) (.skip .here (.pure_eq (by simp; rfl)))))))

theorem reads_set?_none (h : Halts (exactly (.keyword .set)) rest) :
    set?.Reads stop [] none rest :=
  .skip (.keyword?_none h) .pure

theorem reads_array?_none (h : Halts (exactly (.keyword .array)) rest) :
    array?.Reads stop [] none rest :=
  .skip (.keyword?_none h) .pure

theorem reads_loopStatement?_none (h : Halts (exactly (.keyword .loop)) rest) :
    loopStatement?.Reads stop [] none rest :=
  .skip (reads_loop?_none h) .pure

theorem Statement.reads (s : Statement) (h : Halts (exactly (.symbol .atSign)) rest) :
    statement?.Reads stop s.tokens (some s.tree) rest := by
  cases s with
  | setting s => exact .last s.reads .pure
  | array a => exact .skip (reads_set?_none (halts_cons rfl)) (.last (a.reads h) .pure)
  | loop l =>
    obtain ⟨keyword, head, items, right⟩ := l
    exact .skip (reads_set?_none (halts_cons rfl)) (.skip (reads_array?_none (halts_cons rfl))
      (.last (.last (Loop.reads _ _ _) .pure) .pure))
  | region r =>
    exact .skip (reads_set?_none (halts_cons rfl)) (.skip (reads_array?_none (halts_cons rfl))
      (.skip (reads_loopStatement?_none (halts_cons rfl)) r.reads))

theorem reads_statement?_none : statement?.Reads stop [] none [] :=
  .skip (reads_set?_none (halts_nil _)) (.skip (reads_array?_none (halts_nil _))
    (.skip (reads_loopStatement?_none (halts_nil _)) (.skip (.keyword?_none (halts_nil _)) .pure)))

theorem reads_endOfInput : endOfInput.Reads stop [] () [] := by
  rintro ⟨_, _, missed⟩ rfl rfl
  exact ⟨_, rfl, rfl, rfl, rfl⟩

theorem Statement.halts_newline (s : Statement) : Halts (exactly .newline) (s.tokens ++ rest) := by
  cases s with
  | loop l => cases l; exact halts_cons rfl
  | _ => exact halts_cons rfl

theorem Program.reads (p : Program) :
    Source.statements.Reads stop p.tokens (p.statements.tree Statement.tree) [] := by
  have hlines : ∀ stop, Rule.Reads (lines statement?) stop (p.statements.tokens Statement.tokens)
      (p.statements.tree Statement.tree) [] := fun _ =>
    p.statements.reads (fun rest => Halts (exactly (.symbol .atSign)) rest)
      (fun s _ _ _ => s.reads) (fun s _ => s.halts_newline) (fun _ _ => halts_cons rfl)
      (halts_nil _) (fun _ => reads_statement?_none) (halts_nil _)
  exact .bind (reads_newlines p.blank
      (Lines.halts_newline (fun s _ => s.halts_newline) (halts_nil _) p.statements))
    (.last (hlines _) (.skip (reads_newlines [] (halts_nil _)) (.skip reads_endOfInput .pure)))

/-- The tokens of a program are parsed to its tree. -/
theorem Program.programOf_tokens (p : Program) (length : Nat) :
    programOf p.tokens length = .ok (p.tree length) := by
  obtain ⟨r, hr, hvalue, -, -⟩ := p.reads ⟨p.tokens, 0, []⟩ (List.append_nil _).symm rfl
  simp only [programOf, hr, hvalue, Program.tree]

end Bankflow.Source.Phrase
