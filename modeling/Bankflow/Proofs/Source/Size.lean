import Bankflow.Source.Parser
import Mathlib.Algebra.Order.BigOperators.Group.List
import Mathlib.Algebra.Order.Ring.Nat

/-!
# Programs are no larger than their sources

A rule `Pays` for what it reads if it uses up a token for each unit of weight. Every
access and every node starts with a token of its own, so a program has at most as many of
them as its source has characters (`weight_le_length`).
-/

namespace Bankflow.Source

/-- A rule that uses up at least as many tokens as its results weigh. -/
def Rule.Pays {α : Type} (r : Rule α) (w : α → Nat) : Prop :=
  ∀ (s : Cursor) (a : Parsed s α), r s = .ok a → w a.value + a.next.size ≤ s.size

namespace Rule.Pays

variable {α β : Type}

theorem of_forall_eq_zero {r : Rule α} {w : α → Nat} (hw : ∀ a, w a = 0) : r.Pays w := by
  intro s a _
  rw [hw, Nat.zero_add]
  exact a.le

theorem mono {r : Rule α} {v w : α → Nat} (h : r.Pays v) (hw : ∀ a, w a ≤ v a) : r.Pays w :=
  fun s a ha => Nat.le_trans (Nat.add_le_add_right (hw a.value) _) (h s a ha)

theorem pure {a : α} {w : α → Nat} (hw : w a = 0) : Rule.Pays (Pure.pure a) w := by
  intro s b hb
  cases hb
  show w a + s.size ≤ s.size
  omega

/-- What the first rule paid for need not be paid again. -/
theorem bind {r : Rule α} {f : α → Rule β} {v : α → Nat} {w : β → Nat} (hr : r.Pays v)
    (hf : ∀ a, (f a).Pays fun b => w b - v a) : (r >>= f).Pays w := by
  intro s c hc
  obtain ⟨a, b, ha, hb, rfl⟩ := bind_eq_ok hc
  have h₁ := hr s a ha
  have h₂ : w b.value - v a.value + b.next.size ≤ a.next.size := hf a.value a.next b hb
  show w b.value + b.next.size ≤ s.size
  omega

theorem bind_free {r : Rule α} {f : α → Rule β} {w : β → Nat} (hf : ∀ a, (f a).Pays w) :
    (r >>= f).Pays w :=
  bind (of_forall_eq_zero fun _ => rfl) hf

theorem tryTake (want : Token → Option α) (e : Expected) :
    (Rule.tryTake want e).Pays fun o => o.elim 0 fun _ => 1 := by
  intro s a ha
  unfold Rule.tryTake at ha
  split at ha
  · next t _ =>
    cases ha
    have hlt := t.lt
    show 1 + t.next.size ≤ s.size
    omega
  · cases ha
    show 0 + s.size ≤ s.size
    omega

theorem map {r : Rule α} {f : α → β} {w : β → Nat} (h : r.Pays fun a => w (f a)) :
    (f <$> r).Pays w :=
  bind h fun _ => .pure (Nat.sub_self _)

/-- A keyword that is there pays for one. -/
theorem keyword? (k : Keyword) : (Source.keyword? k).Pays fun o => o.elim 0 fun _ => 1 :=
  map ((tryTake _ _).mono fun
    | none => Nat.le_refl _
    | some _ => Nat.le_refl _)

theorem sum_add_size_le_of_lines {item? : Rule (Option α)} {w : α → Nat}
    (h : item?.Pays fun o => o.elim 0 w) :
    ∀ (s : Cursor) (l : Parsed s (List α)), Source.lines item? s = .ok l →
      (l.value.map w).sum + l.next.size ≤ s.size := by
  intro s l hl
  rw [Source.lines] at hl
  split at hl
  · cases hl
  · next a ha =>
    have hitem : a.value.elim 0 w + a.next.size ≤ s.size := h s a ha
    split at hl
    · cases hl
      show 0 + a.next.size ≤ s.size
      omega
    · next x hx =>
      rw [hx] at hitem
      split at hl
      · cases hl
        show w x + 0 + a.next.size ≤ s.size
        exact hitem
      · next t _ =>
        split at hl
        · cases hl
        · next n _ =>
          split at hl
          · cases hl
          · next r hr =>
            cases hl
            have hlt : n.next.size < s.size :=
              Nat.lt_of_le_of_lt n.le (Nat.lt_of_lt_of_le t.lt a.le)
            have hrest := sum_add_size_le_of_lines h n.next r hr
            have ht := t.lt
            have hn := n.le
            show w x + (r.value.map w).sum + r.next.size ≤ s.size
            simp only [Option.elim_some] at hitem
            omega
termination_by s => s.size

/-- Lines pay for all of their items. -/
theorem lines {item? : Rule (Option α)} {w : α → Nat} (h : item?.Pays fun o => o.elim 0 w) :
    Rule.Pays (Source.lines item?) fun l => (l.map w).sum :=
  sum_add_size_le_of_lines h

end Rule.Pays

/-! ## Accesses and nodes -/

theorem pays_accessKind? : accessKind?.Pays fun o => o.elim 0 fun _ => 1 :=
  .bind (.keyword? .read) fun
    | some _ => .pure rfl
    | none => .bind (.keyword? .write) fun
      | some _ => .pure rfl
      | none => .pure rfl

theorem pays_access? : access?.Pays fun o => o.elim 0 fun _ => 1 :=
  .bind pays_accessKind? fun
    | none => .pure rfl
    | some _ => .of_forall_eq_zero fun
      | none => rfl
      | some _ => rfl

theorem pays_node? : node?.Pays fun o => o.elim 0 fun _ => 1 :=
  .bind (.keyword? .node) fun
    | none => .pure rfl
    | some _ => .of_forall_eq_zero fun
      | none => rfl
      | some _ => rfl

/-! ## Loops -/

mutual

theorem accesses_add_size_le_of_loop? (s : Cursor) (l : Parsed s (Option (LoopHead × LoopBody)))
    (hl : loop? s = .ok l) :
    (l.value.elim 0 fun x => x.2.accesses.length) + l.next.size ≤ s.size := by
  rw [loop?] at hl
  split at hl
  · cases hl
    show 0 + s.size ≤ s.size
    omega
  · next t _ =>
    split at hl
    · cases hl
    · next h _ =>
      split at hl
      · cases hl
      · next b hb =>
        split at hl
        · cases hl
        · next c _ =>
          cases hl
          have ht := t.lt
          have hh := h.le
          have hlt : h.next.size < s.size := Nat.lt_of_le_of_lt h.le t.lt
          have hbody := accesses_add_size_le_of_body h.next b hb
          have hc := c.le
          show b.value.accesses.length + c.next.size ≤ s.size
          omega
termination_by (s.size, 0)

/-- An item pays for the accesses that it puts before others. -/
theorem accesses_add_size_le_of_item? (s : Cursor) (a : Parsed s (Option (LoopBody → LoopBody)))
    (ha : item? s = .ok a) {item : LoopBody → LoopBody} (hi : a.value = some item)
    (rest : LoopBody) :
    (item rest).accesses.length + a.next.size ≤ s.size + rest.accesses.length := by
  rw [item?] at ha
  split at ha
  · cases ha
  · next l hl =>
    have hloop := accesses_add_size_le_of_loop? s l hl
    split at ha
    · next head inner hv =>
      cases ha
      cases hi
      rw [hv] at hloop
      have hloop' : inner.accesses.length + l.next.size ≤ s.size := hloop
      show (inner.accesses ++ rest.accesses).length + l.next.size ≤ _
      rw [List.length_append]
      omega
    · split at ha
      · cases ha
      · next x hx =>
        cases ha
        obtain ⟨y, hy, rfl⟩ := Option.map_eq_some_iff.mp hi
        have haccess : x.value.elim 0 (fun _ => 1) + x.next.size ≤ l.next.size :=
          pays_access? l.next x hx
        rw [hy] at haccess
        have haccess' : 1 + x.next.size ≤ l.next.size := haccess
        have hle := l.le
        show rest.accesses.length + 1 + x.next.size ≤ _
        omega
termination_by (s.size, 1)

theorem accesses_add_size_le_of_body (s : Cursor) (b : Parsed s LoopBody) (hb : body s = .ok b) :
    b.value.accesses.length + b.next.size ≤ s.size := by
  rw [body] at hb
  split at hb
  · cases hb
  · next a ha =>
    split at hb
    · cases hb
      show 0 + a.next.size ≤ s.size
      have := a.le
      omega
    · next item hitem =>
      split at hb
      · cases hb
        exact accesses_add_size_le_of_item? s a ha hitem .done
      · next t _ =>
        split at hb
        · cases hb
        · next n _ =>
          split at hb
          · cases hb
          · next r hr =>
            cases hb
            have ht := t.lt
            have hn := n.le
            have hlt : n.next.size < s.size :=
              Nat.lt_of_le_of_lt n.le (Nat.lt_of_lt_of_le t.lt a.le)
            have hrest := accesses_add_size_le_of_body n.next r hr
            have hthis := accesses_add_size_le_of_item? s a ha hitem r.value
            show (item r.value).accesses.length + r.next.size ≤ s.size
            omega
termination_by (s.size, 2)

end

/-! ## Statements -/

/-- The number of accesses or nodes in a statement. -/
def Statement.weight (s : Statement) : Nat :=
  match s.decl with
  | .loop _ body => body.accesses.length
  | .region _ nodes => nodes.length
  | _ => 0

theorem Rule.Pays.orElse {α : Type} {a b : Rule (Option α)} {w : α → Nat}
    (ha : a.Pays fun o => o.elim 0 w) (hb : b.Pays fun o => o.elim 0 w) :
    (a.orElse b).Pays fun o => o.elim 0 w :=
  .bind ha fun
    | some _ => .pure (Nat.sub_self _)
    | none => hb

theorem pays_set? : set?.Pays fun o => o.elim 0 Statement.weight :=
  .bind_free fun
    | none => .pure rfl
    | some _ => .bind_free fun _ => .bind_free fun _ => .bind_free fun
      | some _ => .bind_free fun _ => .bind_free fun _ => .pure rfl
      | none => .bind_free fun _ => .bind_free fun _ => .pure rfl

theorem pays_array? : array?.Pays fun o => o.elim 0 Statement.weight :=
  .bind_free fun
    | none => .pure rfl
    | some _ => .bind_free fun _ => .bind_free fun _ => .bind_free fun _ => .bind_free fun _ =>
      .bind_free fun _ => .bind_free fun _ => .bind_free fun
        | some _ => .bind_free fun _ => .bind_free fun _ => .pure rfl
        | none => .bind_free fun _ => .bind_free fun _ => .pure rfl

theorem pays_region? : region?.Pays fun o => o.elim 0 Statement.weight :=
  .bind_free fun
    | none => .pure rfl
    | some _ => .bind_free fun _ => .bind_free fun _ => .bind (.lines pays_node?) fun _ =>
      .bind_free fun _ => .bind_free fun _ => .pure
        (by simp [Statement.weight, List.map_const'])

theorem pays_loop? : Rule.Pays loop? fun o => o.elim 0 fun x => x.2.accesses.length :=
  accesses_add_size_le_of_loop?

theorem pays_loopStatement? : loopStatement?.Pays fun o => o.elim 0 Statement.weight :=
  .bind pays_loop? fun
    | none => .pure rfl
    | some _ => .pure (Nat.sub_self _)

theorem pays_statements : statements.Pays fun l => (l.map Statement.weight).sum :=
  .bind_free fun _ =>
    .bind (.lines (pays_set?.orElse (pays_array?.orElse (pays_loopStatement?.orElse pays_region?))))
      fun _ => .bind_free fun _ => .bind_free fun _ => .pure (Nat.sub_self _)

/-! ## Sources -/

theorem length_scan_le : ∀ (cs : List Char) (pos covered : Nat),
    (scan pos covered cs).length ≤ cs.length
  | [], _, _ => Nat.le_refl _
  | _ :: cs, _, k + 1 => Nat.le_succ_of_le (length_scan_le cs _ k)
  | _ :: cs, _, 0 => Nat.succ_le_succ (length_scan_le cs _ _)

theorem length_tokens_le (source : String) : (lex source).tokens.length ≤ source.length :=
  Nat.le_trans (List.length_filterMap_le _ _) (length_scan_le source.toList 0 0)

/-- A program weighs no more than its source. -/
theorem weight_le_length {source : String} {p : Program} (h : (parse source).program = some p) :
    (p.statements.map Statement.weight).sum ≤ source.length := by
  have htokens := length_tokens_le source
  simp only [parse, programOf] at h
  split at h
  · next q hq =>
    cases h
    split at hq
    · cases hq
    · next r hr =>
      cases hq
      have hpays := pays_statements _ r hr
      have hle : (r.value.map Statement.weight).sum ≤ (lex source).tokens.length :=
        Nat.le_trans (Nat.le_add_right _ _) hpays
      exact Nat.le_trans hle htokens
  · cases h

/-! ## Sized programs -/

/-- The accesses of every outermost loop can be counted by words. -/
def Program.Counted (p : Program) : Prop :=
  ∀ loop ∈ p.statements.filterMap (·.loop?), (loop.2.accesses.length : Int) ≤ Word.greatest

/-- Programs of which the accesses of an outermost loop can be counted by words, and all
nodes by levels. -/
structure Program.Sized (p : Program) : Prop where
  counted : p.Counted
  nodes_lt : ((p.statements.filterMap (·.region?)).flatMap (·.2)).length < 2 ^ 32

theorem length_nodes_le_weight : ∀ ss : List Statement,
    ((ss.filterMap (·.region?)).flatMap (·.2)).length ≤ (ss.map Statement.weight).sum
  | [] => Nat.le_refl 0
  | s :: ss => by
    have hrest := length_nodes_le_weight ss
    rw [List.map_cons, List.sum_cons, List.filterMap_cons]
    split
    · omega
    · next r hr =>
      have hweight : r.2.length = s.weight := by
        unfold Statement.region? at hr
        split at hr
        · next name nodes hdecl =>
          cases hr
          rw [Statement.weight, hdecl]
        · cases hr
      rw [List.flatMap_cons, List.length_append]
      omega

theorem Program.sized_of_weight {p : Program}
    (h : (p.statements.map Statement.weight).sum < 2 ^ 32) :
    p.Sized where
  counted loop hloop := by
    obtain ⟨s, hs, hl⟩ := List.mem_filterMap.mp hloop
    have hweight : loop.2.accesses.length = s.weight := by
      unfold Statement.loop? at hl
      split at hl
      · next head body hdecl =>
        cases hl
        rw [Statement.weight, hdecl]
      · cases hl
    have hsum : s.weight ≤ _ := List.le_sum_of_mem (List.mem_map_of_mem (f := Statement.weight) hs)
    show (loop.2.accesses.length : Int) ≤ 9223372036854775807
    omega
  nodes_lt := Nat.lt_of_le_of_lt (length_nodes_le_weight _) h

/-- A source of fewer than `2 ^ 32` characters gives a sized program. -/
theorem sized_of_parse {source : String} {p : Program} (h : (parse source).program = some p)
    (hsource : source.length < 2 ^ 32) : p.Sized :=
  Program.sized_of_weight (Nat.lt_of_le_of_lt (weight_le_length h) hsource)

end Bankflow.Source
