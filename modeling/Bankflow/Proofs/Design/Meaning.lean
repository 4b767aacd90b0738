import Bankflow.Proofs.Design.WellFormed
import Bankflow.Proofs.Expr.Exact

/-!
# The meaning of loop nests

Source indices have values in the integers, with no bound on their size
(`Source.Index.value?`): divisions are quotients of rational numbers rounded down or up,
and there is no value by a zero divisor or for a name that no loop around declares.

The nests of a program without errors mirror its outermost loops
(`Design.nests_mirror_loops`): same loops and accesses at the same places, and where the
expression of an index can be evaluated in words, the result is the value of the index.
-/

namespace Bankflow

open Source (Ident Index IndexOp ArrayDecl)

/-! ## Values of source indices -/

/-- The operator on integers. There is no quotient by zero. -/
def Source.IndexOp.value? : IndexOp → Int → Int → Option Int
  | .add, a, b => some (a + b)
  | .sub, a, b => some (a - b)
  | .mul, a, b => some (a * b)
  | .mod, a, b => if b = 0 then none else some (a - b * ⌊(a : ℚ) / b⌋)
  | .floorDiv, a, b => if b = 0 then none else some ⌊(a : ℚ) / b⌋
  | .ceilDiv, a, b => if b = 0 then none else some ⌈(a : ℚ) / b⌉

/-- The value of an index whose variables have the values `env`. -/
def Source.Index.value? (env : String → Option Int) : Index → Option Int
  | int n => some n.value.toInt
  | var x => env x.name
  | neg e _ => (e.value? env).map (- ·)
  | binary op l r => do
    let a ← l.value? env
    let b ← r.value? env
    op.value? a b

/-! ## Expressions of indices -/

/-- Folding constants does not change where and how an expression evaluates. -/
theorem Expr.eval_combine (op : Op) (l r : Expr) (dims : List Int64) :
    (combine op l r).eval dims = (node op l r).eval dims := by
  unfold combine
  split
  · next a b =>
    split
    · next v hv => simp only [eval, Option.bind_eq_bind, Option.bind_some, hv]
    · rfl
  · rfl

theorem Expr.eval_combine_eq_some {op : Op} {l r : Expr} {dims : List Int64} {v : Int64}
    (h : (combine op l r).eval dims = some v) :
    ∃ a b, l.eval dims = some a ∧ r.eval dims = some b ∧ op.apply a b = some v := by
  rw [eval_combine, eval_node_eq_some_iff] at h
  obtain ⟨a, ha, b, hb, hv⟩ := h
  exact ⟨a, b, ha, hb, hv⟩

theorem Expr.eval_neg_eq_some {e : Expr} {dims : List Int64} {v : Int64}
    (h : (-e).eval dims = some v) : ∃ a, e.eval dims = some a ∧ v.toInt = -a.toInt := by
  obtain ⟨a, b, ha, hb, hv⟩ := eval_combine_eq_some h
  cases hb
  exact ⟨a, ha, (Word.toInt_mul hv).trans (Int.mul_neg_one _)⟩

/-- The expression of an operator evaluates to the operator's value. -/
theorem Source.IndexOp.eval_build {op : IndexOp} {l r : Expr} {dims : List Int64} {v : Int64}
    (h : (op.build l r).eval dims = some v) :
    ∃ a b, l.eval dims = some a ∧ r.eval dims = some b ∧
      op.value? a.toInt b.toInt = some v.toInt := by
  cases op with
  | add =>
    obtain ⟨a, b, ha, hb, hv⟩ := Expr.eval_combine_eq_some h
    exact ⟨a, b, ha, hb, congrArg some (Word.toInt_add hv).symm⟩
  | sub =>
    obtain ⟨a, c, ha, hc, hv⟩ := Expr.eval_combine_eq_some h
    obtain ⟨b, hb, hcb⟩ := Expr.eval_neg_eq_some hc
    refine ⟨a, b, ha, hb, congrArg some ?_⟩
    rw [Word.toInt_add hv, hcb, Int.sub_eq_add_neg]
  | mul =>
    obtain ⟨a, b, ha, hb, hv⟩ := Expr.eval_combine_eq_some h
    exact ⟨a, b, ha, hb, congrArg some (Word.toInt_mul hv).symm⟩
  | mod =>
    obtain ⟨a, b, ha, hb, hv⟩ := Expr.eval_combine_eq_some h
    refine ⟨a, b, ha, hb, ?_⟩
    rw [value?, if_neg (Op.ne_zero_of_apply (by decide) hv), Word.toInt_mod hv, Int.fmod_def,
      fdiv_eq_floor]
  | floorDiv =>
    obtain ⟨a, b, ha, hb, hv⟩ := Expr.eval_combine_eq_some h
    refine ⟨a, b, ha, hb, ?_⟩
    rw [value?, if_neg (Op.ne_zero_of_apply (by decide) hv), Word.toInt_floorDiv hv, fdiv_eq_floor]
  | ceilDiv =>
    obtain ⟨a, b, ha, hb, hv⟩ := Expr.eval_combine_eq_some h
    refine ⟨a, b, ha, hb, ?_⟩
    rw [value?, if_neg (Op.ne_zero_of_apply (by decide) hv), Word.toInt_ceilDiv hv,
      neg_neg_fdiv_eq_ceil]

/-- The value of a variable in scope, given one word per variable of the nest. -/
def Scope.valueOf (scope : Scope) (dims : List Int64) (name : String) : Option Int :=
  ((scope.find? name).bind (dims[·]?)).map Int64.toInt

/-- Where the expression of an index evaluates, the result is the value of the index. -/
theorem Source.Index.value?_of_lower? {scope : Scope} {dims : List Int64} :
    ∀ {e : Index} {x : Expr} {v : Int64}, e.lower? scope = some x → x.eval dims = some v →
      e.value? (scope.valueOf dims) = some v.toInt
  | .int n, x, v, hx, hv => by
    cases hx
    cases hv
    rfl
  | .var y, x, v, hx, hv => by
    obtain ⟨k, hk, rfl⟩ := Option.map_eq_some_iff.mp hx
    rw [Expr.eval] at hv
    rw [value?, Scope.valueOf, hk, Option.bind_some, hv, Option.map_some]
  | .neg e _, x, v, hx, hv => by
    obtain ⟨y, hy, rfl⟩ := Option.map_eq_some_iff.mp hx
    obtain ⟨a, ha, hva⟩ := Expr.eval_neg_eq_some hv
    rw [value?, value?_of_lower? hy ha, hva, Option.map_some]
  | .binary op l r, x, v, hx, hv => by
    simp only [lower?, Option.bind_eq_bind, Option.bind_eq_some_iff, Option.some.injEq] at hx
    obtain ⟨y, hy, z, hz, rfl⟩ := hx
    obtain ⟨a, b, ha, hb, hop⟩ := IndexOp.eval_build hv
    rw [value?, value?_of_lower? hy ha, value?_of_lower? hz hb]
    exact hop

theorem Source.Index.exists_lower? {scope : Scope} :
    ∀ {e : Index}, e.Scoped (scope.map (·.1)) → ∃ x, e.lower? scope = some x
  | .int n, _ => ⟨_, rfl⟩
  | .var y, h => by
    obtain ⟨k, hk⟩ := Option.isSome_iff_exists.mp (Scope.isSome_find?_iff.mpr h)
    exact ⟨.dim k, by rw [lower?, hk, Option.map_some]⟩
  | .neg e _, h => by
    obtain ⟨x, hx⟩ := exists_lower? (e := e) h
    exact ⟨-x, by rw [lower?, hx, Option.map_some]⟩
  | .binary op l r, h => by
    obtain ⟨x, hx⟩ := exists_lower? h.1
    obtain ⟨y, hy⟩ := exists_lower? h.2
    exact ⟨op.build x y, by rw [lower?, hx, hy]; rfl⟩

theorem exists_lowerAll? {scope : Scope} :
    ∀ {es : List Index}, (∀ e ∈ es, e.Scoped (scope.map (·.1))) →
      ∃ xs, lowerAll? scope es = some xs ∧ List.Forall₂ (·.lower? scope = some ·) es xs
  | [], _ => ⟨[], rfl, .nil⟩
  | e :: es, h => by
    obtain ⟨he, hes⟩ := List.forall_mem_cons.mp h
    obtain ⟨x, hx⟩ := Source.Index.exists_lower? he
    obtain ⟨xs, hxs, hall⟩ := exists_lowerAll? hes
    exact ⟨x :: xs, by rw [lowerAll?, hx, hxs]; rfl, .cons hx hall⟩

/-! ## Mirrored loops -/

/-- A loop with the bounds, the step and the mark of its source; the step is `1` if none
is given. -/
structure LoopHead.Mirrors (h : Source.LoopHead) (h' : LoopHead) : Prop where
  lower_eq : h'.lower = h.lower
  upper_eq : h'.upper = h.upper
  step_eq : h'.step = (h.step.map (·.value)).getD 1
  pipeline_eq : h'.pipeline = h.pipeline

/-- An access to the array that its source names, in the same way and with indices of the
same values. -/
structure Access.Mirrors (decls : List ArrayDecl) (scope : Scope) (a : Source.Access)
    (x : Access) : Prop where
  kind_eq : x.kind = a.kind
  array : decls[x.array]?.map (·.name.name) = some a.array.name
  indices : List.Forall₂ (fun (e : Index) (y : Expr) => ∀ (dims : List Int64) (v : Int64),
    y.eval dims = some v → e.value? (scope.valueOf dims) = some v.toInt) a.indices x.indices

/-- A body with the same loops and accesses as its source, in the same places. The scope
gives the variables of the loops around it. -/
inductive LoopBody.Mirrors (decls : List ArrayDecl) :
    Scope → Source.LoopBody → LoopBody → Prop where
  | done {scope : Scope} : Mirrors decls scope .done .done
  | access {scope : Scope} {a : Source.Access} {x : Access} {rest : Source.LoopBody}
    {rest' : LoopBody} (haccess : x.Mirrors decls scope a)
    (hrest : Mirrors decls scope rest rest') :
    Mirrors decls scope (.access a rest) (.access x rest')
  | loop {scope : Scope} {h : Source.LoopHead} {h' : LoopHead} {inner rest : Source.LoopBody}
    {inner' rest' : LoopBody} (hhead : h'.Mirrors h)
    (hinner : Mirrors decls ((h.var.name, h'.var) :: scope) inner inner')
    (hrest : Mirrors decls scope rest rest') :
    Mirrors decls scope (.loop h inner rest) (.loop h' inner' rest')

/-- A nest with the loops and accesses of an outermost loop, whose variables are numbered
in the order in which the loops begin. -/
structure Nest.Mirrors (decls : List ArrayDecl) (l : Source.LoopHead × Source.LoopBody)
    (n : Nest) : Prop where
  loops : LoopBody.Mirrors decls [] (.loop l.1 l.2 .done) (.loop n.head n.body .done)
  numbered : n.heads.map (·.var) = List.range n.heads.length
  vars_eq : n.vars = (l.1 :: l.2.heads).map (·.var.name)

theorem LoopHead.mirrors_ofSource {names : List String} {h : Source.LoopHead}
    (hwf : h.WellFormed names) (id var : Nat) : (LoopHead.ofSource id var h).Mirrors h where
  lower_eq := rfl
  upper_eq := rfl
  step_eq := by
    rw [ofSource, Source.LoopHead.stepOf]
    cases hstep : h.step with
    | none => rfl
    | some n => exact if_neg (hwf.step_ne n hstep)
  pipeline_eq := rfl

theorem name_of_memoryNamed? {decls : List ArrayDecl} {name : String} {i : Nat}
    (h : memoryNamed? (decls.map .ofDecl) name = some i) :
    decls[i]?.map (·.name.name) = some name := by
  obtain ⟨hlt, hname, -⟩ := List.findIdx?_eq_some_iff_getElem.mp h
  rw [List.getElem_map] at hname
  rw [List.length_map] at hlt
  rw [List.getElem?_eq_getElem hlt, Option.map_some]
  exact congrArg some (of_decide_eq_true hname)

/-- A well-formed access is resolved. -/
theorem Access.exists_ofSource? {decls : List ArrayDecl} {scope : Scope} {a : Source.Access}
    (h : a.WellFormed (decls.map .ofDecl) (scope.map (·.1))) :
    ∃ x, Access.ofSource? (decls.map .ofDecl) scope a = some x ∧ x.Mirrors decls scope a := by
  obtain ⟨i, m, hi, hm, hrank⟩ := h.array
  obtain ⟨xs, hxs, hall⟩ := exists_lowerAll? h.known
  refine ⟨⟨i, xs, a.kind⟩, ?_, rfl, name_of_memoryNamed? hi, ?_⟩
  · simp only [ofSource?, hi, hm, hxs, hrank, Option.bind_eq_bind, Option.bind_some, if_true]
  · exact hall.imp fun _ _ hx _ _ hv => Source.Index.value?_of_lower? hx hv

theorem LoopBody.mirrors_lowerBody {decls : List ArrayDecl} :
    ∀ {body : Source.LoopBody} {scope : Scope} {id var : Nat},
      Source.bodyWellFormed (decls.map .ofDecl) (scope.map (·.1)) body →
        LoopBody.Mirrors decls scope body (lowerBody (decls.map .ofDecl) scope id var body)
  | .done, _, _, _, _ => .done
  | .access a rest, scope, id, var, h => by
    obtain ⟨x, hx, hmirrors⟩ := Access.exists_ofSource? h.1
    rw [lowerBody, hx]
    exact .access hmirrors (mirrors_lowerBody h.2)
  | .loop head inner rest, scope, id, var, h =>
    .loop (LoopHead.mirrors_ofSource h.1 id var) (mirrors_lowerBody h.2.1) (mirrors_lowerBody h.2.2)

/-- The loops of a body are numbered from `id` on, and their variables from `var` on. -/
theorem heads_lowerBody (memories : List Memory) :
    ∀ (body : Source.LoopBody) (scope : Scope) (id var : Nat),
      (lowerBody memories scope id var body).heads =
        body.heads.mapIdx fun i h => .ofSource (id + i) (var + i) h
  | .done, _, _, _ => rfl
  | .access a rest, scope, id, var => by
    rw [lowerBody]
    split
    · exact heads_lowerBody memories rest scope id var
    · exact heads_lowerBody memories rest scope id var
  | .loop h inner rest, scope, id, var => by
    have hnext (k i : Nat) : k + (i + 1) = k + 1 + i := by omega
    have hlater (k i : Nat) :
        k + (i + inner.heads.length + 1) = k + 1 + inner.heads.length + i := by
      omega
    rw [lowerBody, Body.heads, Body.heads, heads_lowerBody memories inner,
      heads_lowerBody memories rest, List.mapIdx_cons, List.mapIdx_append]
    congr 3
    · funext i head
      rw [hnext id i, hnext var i]
    · funext i head
      rw [hlater id i, hlater var i]

/-- Elements that are numbered by their places are numbered one after the other. -/
theorem map_mapIdx_add {α β : Type} (f : Nat → α → β) {g : β → Nat} {k : Nat}
    (h : ∀ i a, g (f i a) = k + i) (l : List α) :
    (l.mapIdx f).map g = List.range' k l.length := by
  refine List.ext_getElem (by simp) fun i _ _ => ?_
  simp [h]

theorem Nest.heads_ofSource (memories : List Memory) (id : Nat) (h : Source.LoopHead)
    (body : Source.LoopBody) : (Nest.ofSource memories id h body).heads =
      (h :: body.heads).mapIdx fun i head => .ofSource (id + i) i head := by
  have hnext (k i : Nat) : k + (i + 1) = k + 1 + i := by omega
  rw [heads, ofSource, heads_lowerBody, List.mapIdx_cons]
  congr 2
  funext i head
  rw [hnext id i, Nat.add_comm i 1]

theorem Nest.map_var_heads_ofSource (memories : List Memory) (id : Nat) (h : Source.LoopHead)
    (body : Source.LoopBody) : (Nest.ofSource memories id h body).heads.map (·.var) =
      List.range (Nest.ofSource memories id h body).heads.length := by
  rw [heads_ofSource, List.length_mapIdx, List.range_eq_range']
  apply map_mapIdx_add
  exact fun i _ => (Nat.zero_add i).symm

theorem Nest.mirrors_ofSource {decls : List ArrayDecl} {h : Source.LoopHead}
    {body : Source.LoopBody} (hhead : h.WellFormed [])
    (hbody : Source.bodyWellFormed (decls.map .ofDecl) [h.var.name] body) (id : Nat) :
    (Nest.ofSource (decls.map .ofDecl) id h body).Mirrors decls (h, body) where
  loops := .loop (LoopHead.mirrors_ofSource hhead id 0) (LoopBody.mirrors_lowerBody hbody) .done
  numbered := map_var_heads_ofSource _ id h body
  vars_eq := rfl

theorem forall₂_mirrors_nestsOf {decls : List ArrayDecl} :
    ∀ {loops : List (Source.LoopHead × Source.LoopBody)} {id : Nat},
      (∀ l ∈ loops, l.1.WellFormed [] ∧
        Source.bodyWellFormed (decls.map .ofDecl) [l.1.var.name] l.2) →
      List.Forall₂ (fun l n => Nest.Mirrors decls l n) loops
        (nestsOf (decls.map .ofDecl) id loops)
  | [], _, _ => .nil
  | (h, body) :: loops, id, hall => by
    obtain ⟨hloop, hloops⟩ := List.forall_mem_cons.mp hall
    exact .cons (Nest.mirrors_ofSource hloop.1 hloop.2 id) (forall₂_mirrors_nestsOf hloops)

/-- The arrays of a program without errors are those it declares, and its nests are its
outermost loops, in order. A nest has the loops of its source, with their bounds, steps and
marks, and one access for each access of the source, of the same kind, at the same place
and to the array declared by that name. If the expression of an index evaluates, at any
values of the variables, its result is the value that the index has in the integers when
every name stands for the variable of the loop around it that declares the name. -/
theorem Design.nests_mirror_loops (p : Source.Program)
    (hclean : (findings p).any Finding.isError = false) :
    (Design.ofProgram p).memories = (p.statements.filterMap (·.array?)).map .ofDecl ∧
      List.Forall₂ (fun l n => Nest.Mirrors (p.statements.filterMap (·.array?)) l n)
        (p.statements.filterMap (·.loop?)) (Design.ofProgram p).nests := by
  have hp := Source.Program.wellFormed_iff_clean.mpr (Clean.iff_any.mpr hclean)
  have hmemories := memoriesOf_eq_map hp.arrays_nodup
  have hloops := hp.statements.loops
  rw [hmemories] at hloops
  rw [ofProgram, hmemories]
  exact ⟨rfl, forall₂_mirrors_nestsOf hloops⟩

/-- A loop over `i` with two loops over `j` in it: the first reads an array at `i - j`, the
second writes it at `-j ceildiv 2`. -/
def siblings : Source.Program :=
  let here : Span := ⟨0, 0⟩
  let var (name : String) : Index := .var ⟨name, here⟩
  let head (name : String) : Source.LoopHead := ⟨⟨name, here⟩, 0, 4, none, false, here⟩
  let access (kind : AccessKind) (e : Index) : Source.LoopBody :=
    .access ⟨kind, ⟨"A", here⟩, [e], here⟩ .done
  ⟨[⟨.loop (head "i")
      (.loop (head "j") (access .read (.binary .sub (var "i") (var "j")))
        (.loop (head "j")
          (access .write (.binary .ceilDiv (.neg (var "j") here) (.int ⟨2, here⟩))) .done)), here⟩,
    ⟨.array ⟨⟨"A", here⟩, [⟨8, here⟩], ⟨"f32", here⟩, none⟩, here⟩], here⟩

/-- The `j` of the second inner loop is the third variable of the nest. -/
theorem siblings_mirrored :
    (findings siblings).any Finding.isError = false ∧
      ∃ n x, (Design.ofProgram siblings).nests = [n] ∧ n.accesses.getLast? = some x ∧
        ∀ e ∈ x.indices, ∀ (dims : List Int64) (v : Int64), e.eval dims = some v →
          ∃ j, dims[2]? = some j ∧ v.toInt = ⌈((-j.toInt : Int) : ℚ) / (2 : Int)⌉ := by
  have hclean : (findings siblings).any Finding.isError = false := by decide +kernel
  refine ⟨hclean, _, _, rfl, rfl, fun e he dims v hv => ?_⟩
  -- the second loop is reached through the first loop and its own body
  cases (Design.nests_mirror_loops siblings hclean).2 with
  | cons hnest _ =>
    obtain _ | _ | ⟨_, _ | _ | ⟨-, -, _ | _ | ⟨-, hsecond, -⟩⟩, -⟩ := hnest.loops
    obtain _ | ⟨hwrite, -⟩ := hsecond
    obtain _ | ⟨hindex, _ | _⟩ := hwrite.indices
    obtain _ | ⟨_, hnone⟩ := he
    · have hvalue : (((dims[2]?).map Int64.toInt).map (- ·)).bind (IndexOp.value? .ceilDiv · 2) =
          some v.toInt := hindex dims v hv
      obtain ⟨a, ha, hceil⟩ := Option.bind_eq_some_iff.mp hvalue
      rw [Option.map_map, Option.map_eq_some_iff] at ha
      obtain ⟨j, hj, rfl⟩ := ha
      exact ⟨j, hj, (Option.some.inj hceil).symm⟩
    · cases hnone

end Bankflow
