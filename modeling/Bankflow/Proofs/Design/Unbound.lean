import Bankflow.Proofs.Design.InOrder
import Bankflow.Source.Parser
import Mathlib.Algebra.Order.BigOperators.Group.List

/-!
# What is reported of unknown variables

A variable of an index is unbound if no loop around has it. Of each access to a declared
array, with one index a dimension, the first index with unbound variables is reported: all
occurrences in it, from left to right, and none of the indices after it
(`filter_isUnknown_findings`). So every occurrence is reported exactly if no such access has
unbound variables in two of its indices (`Source.Program.unbound_reported`).
-/

namespace Bankflow

open Source (Ident Index ArrayDecl SettingValue Statement Program)

/-! ## Unbound variables -/

/-- The occurrences in an index of variables that no loop around it has, from left to
right. -/
def Source.Index.unbound (around : List Source.LoopHead) (e : Index) : List Ident :=
  e.vars.filter fun x => x.name ∉ around.map (·.var.name)

namespace Source.Access

/-- The access is to a declared array and has one index a dimension. Of several declarations
the first one counts. -/
def isDeclared (decls : List ArrayDecl) (a : Source.Access) : Bool :=
  (decls.find? (·.name.name = a.array.name)).any (a.indices.length = ·.shape.length)

/-- The unbound variables of all indices. -/
def unbound (around : List Source.LoopHead) (a : Source.Access) : List Ident :=
  a.indices.flatMap (·.unbound around)

/-- The unbound variables of the first index that has any. -/
def firstUnbound (around : List Source.LoopHead) (a : Source.Access) : List Ident :=
  ((a.indices.map (·.unbound around)).find? (· ≠ [])).getD []

end Source.Access

/-- The accesses to declared arrays, in program order and with the loops around them. -/
def Source.Program.declaredAccesses (p : Program) : List (List Source.LoopHead × Source.Access) :=
  (p.code.nestedAccesses []).filter (·.2.isDeclared (p.statements.filterMap (·.array?)))

namespace Finding

/-- The report that a variable is unknown where it occurs. -/
def ofUnbound (x : Ident) : Finding := ⟨.unknownVariable x.name, x.span⟩

/-- A report of an unknown variable. -/
def isUnknown (f : Finding) : Bool := f.issue.code = some "E0101"

end Finding

open Finding (isUnknown ofUnbound)

/-! ## Single accesses -/

theorem Source.Index.unknowns_eq_unbound {scope : Scope} {around : List Source.LoopHead}
    (h : scope.map (·.1) = around.map (·.var.name)) :
    ∀ e : Index, e.unknowns scope = e.unbound around
  | .int _ => rfl
  | .var x => by
    have hknown : (scope.find? x.name).isSome = true ↔ x.name ∈ around.map (·.var.name) :=
      h ▸ Scope.isSome_find?_iff
    rw [unknowns, unbound, vars, List.filter_singleton]
    by_cases hx : x.name ∈ around.map (·.var.name)
    · rw [if_pos (hknown.mpr hx)]
      simp [hx]
    · rw [if_neg fun hfind => hx (hknown.mp hfind)]
      simp [hx]
  | .neg e _ => unknowns_eq_unbound h e
  | .binary _ l r => by
    rw [unknowns, unknowns_eq_unbound h l, unknowns_eq_unbound h r, unbound, unbound, unbound,
      vars, List.filter_append]

theorem firstUnknowns_eq_find? {scope : Scope} {around : List Source.LoopHead}
    (h : scope.map (·.1) = around.map (·.var.name)) (es : List Index) :
    firstUnknowns scope es = ((es.map (·.unbound around)).find? (· ≠ [])).getD [] := by
  induction es with
  | nil => rfl
  | cons e es ih =>
    rw [firstUnknowns, ih, Source.Index.unknowns_eq_unbound h e, List.map_cons, List.find?_cons]
    by_cases he : e.unbound around = [] <;> simp [he]

/-- Of the elements with a key, the first one is kept. -/
theorem find?_firstBy {α : Type} (key : α → String) (k : String) :
    ∀ (l : List α) (seen : List String),
      (firstBy key seen l).find? (key · = k) = if k ∈ seen then none else l.find? (key · = k)
  | [], seen => by simp [firstBy]
  | a :: l, seen => by
    rw [firstBy, List.find?_cons]
    split
    · next ha =>
      rw [find?_firstBy key k l seen]
      by_cases hk : key a = k <;> simp_all
    · next ha =>
      rw [List.find?_cons, find?_firstBy key k l (key a :: seen)]
      by_cases hk : key a = k
      · simp_all
      · simp [hk, Ne.symm hk]

/-- The array of a name is that of its first declaration. -/
theorem bind_memoryNamed? (decls : List ArrayDecl) (name : String) :
    (memoryNamed? (memoriesOf decls) name).bind ((memoriesOf decls)[·]?) =
      (decls.find? (·.name.name = name)).map .ofDecl := by
  have hfirst := find?_firstBy (fun d : ArrayDecl => d.name.name) name decls []
  rw [if_neg List.not_mem_nil] at hfirst
  rw [memoryNamed?, ← List.find?_eq_bind_findIdx?_getElem?, memoriesOf, List.find?_map, ← hfirst]
  rfl

theorem filter_isUnknown_accessFindings {decls : List ArrayDecl} {scope : Scope}
    {around : List Source.LoopHead} (h : scope.map (·.1) = around.map (·.var.name))
    (a : Source.Access) : (accessFindings (memoriesOf decls) scope a).filter isUnknown =
      if a.isDeclared decls then (a.firstUnbound around).map ofUnbound else [] := by
  rw [accessFindings, bind_memoryNamed?, firstUnknowns_eq_find? h, Source.Access.isDeclared]
  cases decls.find? (·.name.name = a.array.name) with
  | none => rfl
  | some d =>
    have hrank : (Memory.ofDecl d).rank = d.shape.length := List.length_map ..
    simp only [Option.map_some, hrank, Option.any_some, decide_eq_true_eq]
    split
    · refine List.filter_eq_self.mpr fun f hf => ?_
      obtain ⟨x, -, rfl⟩ := List.mem_map.mp hf
      rfl
    · rfl

/-! ## Whole programs -/

theorem filter_isUnknown_headFindings (scope : Scope) (h : Source.LoopHead) :
    (headFindings scope h).filter isUnknown = [] := by
  have hshadow : (shadowFindings scope h.var).filter isUnknown = [] := by
    unfold shadowFindings
    split <;> rfl
  have hstep : (stepFindings h.step).filter isUnknown = [] := by
    unfold stepFindings
    split
    · split <;> rfl
    · rfl
  rw [headFindings, List.filter_append, hshadow, hstep, List.append_nil]

/-- The reports about accesses in their places. -/
def unknownsAt (decls : List ArrayDecl) (places : List (List Source.LoopHead × Source.Access)) :
    List Finding :=
  ((places.filter (·.2.isDeclared decls)).flatMap fun s => s.2.firstUnbound s.1).map ofUnbound

theorem unknownsAt_append (decls : List ArrayDecl)
    (xs ys : List (List Source.LoopHead × Source.Access)) :
    unknownsAt decls (xs ++ ys) = unknownsAt decls xs ++ unknownsAt decls ys := by
  simp only [unknownsAt, List.filter_append, List.flatMap_append, List.map_append]

theorem filter_isUnknown_bodyFindings (decls : List ArrayDecl) :
    ∀ (body : Source.LoopBody) {scope : Scope} {around : List Source.LoopHead},
      scope.map (·.1) = around.map (·.var.name) →
        (bodyFindings (memoriesOf decls) scope body).filter isUnknown =
          unknownsAt decls (body.nestedAccesses around)
  | .done, _, _, _ => rfl
  | .access a rest, scope, around, h => by
    rw [bodyFindings, List.filter_append, filter_isUnknown_accessFindings h,
      filter_isUnknown_bodyFindings decls rest h, Body.nestedAccesses,
      ← List.singleton_append, unknownsAt_append]
    by_cases ha : a.isDeclared decls = true <;> simp [unknownsAt, ha]
  | .loop head inner rest, scope, around, h => by
    have hinner : ((head.var.name, 0) :: scope).map (·.1) = (head :: around).map (·.var.name) := by
      rw [List.map_cons, List.map_cons, h]
    rw [bodyFindings, List.filter_append, List.filter_append, filter_isUnknown_headFindings,
      filter_isUnknown_bodyFindings decls inner hinner, filter_isUnknown_bodyFindings decls rest h,
      Body.nestedAccesses, unknownsAt_append, List.nil_append]

theorem filter_isUnknown_arrayFindings (ds : List ArrayDecl) (seen : List String) :
    (arrayFindings seen ds).filter isUnknown = [] := by
  induction ds generalizing seen with
  | nil => rfl
  | cons d ds ih =>
    have hshape : (shapeFindings d).filter isUnknown = [] := by
      refine List.filter_eq_nil_iff.mpr fun f hf => ?_
      obtain ⟨n, -, hn⟩ := List.mem_filterMap.mp hf
      split at hn
      · cases hn
        exact Bool.false_ne_true
      · cases hn
    have hspace : (spaceFindings d).filter isUnknown = [] := by
      unfold spaceFindings
      split
      · split <;> rfl
      · rfl
    rw [arrayFindings]
    split
    · exact ih seen
    · rw [List.filter_append, List.filter_append, hshape, hspace, ih]
      rfl

theorem filter_isUnknown_settingFindings (name : Ident) (value : SettingValue) :
    (settingFindings name value).filter isUnknown = [] := by
  unfold settingFindings
  split
  · split <;> rfl
  · rfl

theorem filter_isUnknown_nodeFindings (region : String) (nodes : List Source.Node)
    (seen : List (String × Nat)) : (nodeFindings region seen nodes).filter isUnknown = [] := by
  induction nodes generalizing seen with
  | nil => rfl
  | cons n nodes ih =>
    rw [nodeFindings]
    split
    · exact ih seen
    · exact ih _

theorem filter_isUnknown_statementFindings (decls : List ArrayDecl) (ss : List Statement)
    (regions : List String) :
    (statementFindings (memoriesOf decls) regions ss).filter isUnknown =
      unknownsAt decls (((ss.filterMap (·.loop?)).foldr (fun l rest => .loop l.1 l.2 rest)
        (.done : Source.LoopBody)).nestedAccesses []) := by
  induction ss generalizing regions with
  | nil => rfl
  | cons s ss ih =>
    obtain ⟨decl, span⟩ := s
    cases decl with
    | array d => exact ih regions
    | setting name value =>
      rw [statementFindings, List.filter_append, filter_isUnknown_settingFindings, ih]
      rfl
    | loop head body =>
      have hscope : ([(head.var.name, 0)] : Scope).map (·.1) = [head].map (·.var.name) := rfl
      rw [statementFindings, List.filter_append, List.filter_append,
        filter_isUnknown_headFindings, filter_isUnknown_bodyFindings decls body hscope, ih,
        List.nil_append, ← unknownsAt_append]
      rfl
    | region name nodes =>
      rw [statementFindings]
      dsimp only
      split
      · exact ih regions
      · rw [List.filter_append, filter_isUnknown_nodeFindings, ih]
        rfl

/-- The reports of unknown variables, in order. -/
theorem filter_isUnknown_findings (p : Program) : (findings p).filter isUnknown =
    (p.declaredAccesses.flatMap fun s => s.2.firstUnbound s.1).map ofUnbound := by
  rw [findings, List.filter_append, filter_isUnknown_arrayFindings,
    filter_isUnknown_statementFindings, List.nil_append]
  rfl

/-! ## Complete reports -/

/-- Parts of lists make up the whole of them only if each is the whole of its own. -/
theorem flatMap_eq_flatMap_iff {α β : Type} {f g : α → List β} {l : List α}
    (h : ∀ a ∈ l, (f a).length ≤ (g a).length) :
    l.flatMap f = l.flatMap g ↔ ∀ a ∈ l, f a = g a := by
  induction l with
  | nil => simp
  | cons a l ih =>
    obtain ⟨ha, hl⟩ := List.forall_mem_cons.mp h
    rw [List.flatMap_cons, List.flatMap_cons, List.forall_mem_cons, ← ih hl]
    constructor
    · intro heq
      have hle : (l.flatMap f).length ≤ (l.flatMap g).length := by
        rw [List.length_flatMap, List.length_flatMap]
        exact List.sum_le_sum hl
      have hlength := congrArg List.length heq
      rw [List.length_append, List.length_append] at hlength
      exact List.append_inj heq (by omega)
    · rintro ⟨hf, hrest⟩
      rw [hf, hrest]

namespace Source.Access

variable {around : List Source.LoopHead}

theorem length_firstUnbound_le (around : List Source.LoopHead) (a : Source.Access) :
    (a.firstUnbound around).length ≤ (a.unbound around).length := by
  rw [firstUnbound, unbound]
  induction a.indices with
  | nil => exact Nat.le_refl _
  | cons e es ih =>
    rw [List.map_cons, List.find?_cons, List.flatMap_cons, List.length_append]
    split
    · exact Nat.le_add_right _ _
    · exact Nat.le_trans ih (Nat.le_add_left _ _)

theorem firstUnbound_eq_unbound_iff (a : Source.Access) :
    a.firstUnbound around = a.unbound around ↔
      (a.indices.filter fun e => e.unbound around ≠ []).length ≤ 1 := by
  rw [firstUnbound, unbound]
  induction a.indices with
  | nil => simp
  | cons e es ih =>
    rw [List.map_cons, List.find?_cons, List.flatMap_cons, List.filter_cons]
    by_cases he : e.unbound around = []
    · simpa [he] using ih
    · -- nothing of the other indices may be left out
      simp [he]

end Source.Access

/-- Of each access to a declared array, the first index with unbound variables is reported,
and no other variables are. So all unbound variables are reported exactly if no such access
has any in two of its indices. -/
theorem Source.Program.unbound_reported (p : Program) :
    (findings p).filter isUnknown =
        (p.declaredAccesses.flatMap fun s => s.2.firstUnbound s.1).map ofUnbound ∧
      ((findings p).filter isUnknown =
          (p.declaredAccesses.flatMap fun s => s.2.unbound s.1).map ofUnbound ↔
        ∀ s ∈ p.declaredAccesses,
          (s.2.indices.filter fun e => e.unbound s.1 ≠ []).length ≤ 1) := by
  refine ⟨filter_isUnknown_findings p, ?_⟩
  have hinj : Function.Injective ofUnbound := by
    rintro ⟨name, span⟩ ⟨name', span'⟩ h
    cases h
    rfl
  rw [filter_isUnknown_findings, List.map_inj_right fun _ _ h => hinj h,
    flatMap_eq_flatMap_iff fun s _ => s.2.length_firstUnbound_le s.1]
  exact forall_congr' fun s => forall_congr' fun _ => s.2.firstUnbound_eq_unbound_iff

-- neither `x` nor `y` is known, and only `x` is reported
example : (Source.parse "array a[4, 4] : f32\nloop i = 0 to 4 { read a[x, y] }").program.map
    findings = some [⟨.unknownVariable "x", ⟨45, 46⟩⟩] := by
  decide +kernel

end Bankflow
