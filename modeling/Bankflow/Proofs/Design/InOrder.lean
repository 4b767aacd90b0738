import Bankflow.Proofs.Design.Meaning

/-!
# The rules of programs

The rules that a program has to follow, as conditions on the lists of its parts
(`Source.Program.InOrder`). Each access and each loop is listed with the loops around it
(`Body.nestedAccesses`, `Body.nestedHeads`), so no rule needs a scope that is carried from
one part to the next.

A program is resolved without errors exactly if it follows these rules
(`Source.Program.no_errors_iff_inOrder`).
-/

namespace Bankflow

open Source (Ident Index ArrayDecl SettingValue Program)

/-! ## Loops and accesses in their places -/

namespace Body

variable {η α : Type}

/-- All accesses in program order, each with the loops around it, the innermost first. -/
def nestedAccesses (around : List η) : Body η α → List (List η × α)
  | done => []
  | access a rest => (around, a) :: rest.nestedAccesses around
  | loop h inner rest => inner.nestedAccesses (h :: around) ++ rest.nestedAccesses around

/-- All loops, each before the loops in it and with the loops around it, the innermost
first. -/
def nestedHeads (around : List η) : Body η α → List (List η × η)
  | done => []
  | access _ rest => rest.nestedHeads around
  | loop h inner rest =>
    (around, h) :: (inner.nestedHeads (h :: around) ++ rest.nestedHeads around)

theorem map_snd_nestedAccesses :
    ∀ (body : Body η α) (around : List η), (body.nestedAccesses around).map (·.2) = body.accesses
  | done, _ => rfl
  | access a rest, around => by
    rw [nestedAccesses, accesses, List.map_cons, map_snd_nestedAccesses rest]
  | loop h inner rest, around => by
    rw [nestedAccesses, accesses, List.map_append, map_snd_nestedAccesses inner,
      map_snd_nestedAccesses rest]

theorem map_snd_nestedHeads :
    ∀ (body : Body η α) (around : List η), (body.nestedHeads around).map (·.2) = body.heads
  | done, _ => rfl
  | access _ rest, around => map_snd_nestedHeads rest around
  | loop h inner rest, around => by
    rw [nestedHeads, heads, List.map_cons, List.map_append, map_snd_nestedHeads inner,
      map_snd_nestedHeads rest]

/-- What is true of all accesses is true of them in their places. -/
theorem forall_nestedAccesses_iff (P : α → Prop) (body : Body η α) (around : List η) :
    (∀ s ∈ body.nestedAccesses around, P s.2) ↔ ∀ a ∈ body.accesses, P a := by
  rw [← map_snd_nestedAccesses body around, List.forall_mem_map]

theorem forall_nestedHeads_iff (P : η → Prop) (body : Body η α) (around : List η) :
    (∀ s ∈ body.nestedHeads around, P s.2) ↔ ∀ h ∈ body.heads, P h := by
  rw [← map_snd_nestedHeads body around, List.forall_mem_map]

end Body

/-- A body is well formed exactly if its accesses and loops are, each in its place. -/
theorem Source.bodyWellFormed_iff (memories : List Memory) :
    ∀ (body : Source.LoopBody) (around : List Source.LoopHead),
      bodyWellFormed memories (around.map (·.var.name)) body ↔
        (∀ s ∈ body.nestedAccesses around, s.2.WellFormed memories (s.1.map (·.var.name))) ∧
          ∀ s ∈ body.nestedHeads around, s.2.WellFormed (s.1.map (·.var.name))
  | .done, _ => by simp [bodyWellFormed, Body.nestedAccesses, Body.nestedHeads]
  | .access a rest, around => by
    rw [bodyWellFormed, bodyWellFormed_iff memories rest, Body.nestedAccesses, Body.nestedHeads,
      List.forall_mem_cons, and_assoc]
  | .loop h inner rest, around => by
    have hinner := bodyWellFormed_iff memories inner (h :: around)
    rw [List.map_cons] at hinner
    rw [bodyWellFormed, hinner, bodyWellFormed_iff memories rest, Body.nestedAccesses,
      Body.nestedHeads, List.forall_mem_append, List.forall_mem_cons, List.forall_mem_append]
    tauto

/-! ## Rules -/

/-- The variables that an index uses, from left to right. -/
def Source.Index.vars : Index → List Ident
  | int _ => []
  | var x => [x]
  | neg e _ => e.vars
  | binary _ l r => l.vars ++ r.vars

theorem Source.Index.scoped_iff {names : List String} :
    ∀ {e : Index}, e.Scoped names ↔ ∀ x ∈ e.vars, x.name ∈ names
  | .int _ => by simp [Scoped, vars]
  | .var x => by simp [Scoped, vars]
  | .neg e _ => scoped_iff (e := e)
  | .binary _ l r => by
    rw [Scoped, scoped_iff, scoped_iff, vars, List.forall_mem_append]

/-- The value stands for true or false. -/
def Source.SettingValue.IsTruthValue : SettingValue → Prop
  | int n => n.value = 0 ∨ n.value = 1
  | ident x => x.name = "true" ∨ x.name = "false"

theorem Source.SettingValue.isSome_bool?_iff :
    ∀ {value : SettingValue}, value.bool?.isSome = true ↔ value.IsTruthValue
  | .int n => by
    rw [bool?, IsTruthValue]
    split
    · simp [*]
    · split <;> simp [*]
  | .ident x => by
    rw [bool?, IsTruthValue]
    split
    · simp [*]
    · split <;> simp [*]

/-- All outermost loops of a program, one after the other. -/
def Source.Program.code (p : Program) : Source.LoopBody :=
  (p.statements.filterMap (·.loop?)).foldr (fun l rest => .loop l.1 l.2 rest) .done

/-- A program that follows the rules. -/
structure Source.Program.InOrder (p : Program) : Prop where
  arrays_distinct : ((p.statements.filterMap (·.array?)).map (·.name.name)).Nodup
  dimensions : ∀ d ∈ p.statements.filterMap (·.array?), ∀ n ∈ d.shape, 1 ≤ n.value.toInt
  /-- Memory spaces are numbered in 32 bits. -/
  spaces : ∀ d ∈ p.statements.filterMap (·.array?), ∀ n, d.memorySpace = some n →
    0 ≤ n.value.toInt ∧ n.value.toInt < 2 ^ 32
  /-- The array of an access is declared, wherever that is, with one dimension an index. -/
  declared : ∀ a ∈ p.code.accesses, ∃ d ∈ p.statements.filterMap (·.array?),
    d.name.name = a.array.name ∧ a.indices.length = d.shape.length
  /-- Indices use variables of the loops around them. -/
  known : ∀ s ∈ p.code.nestedAccesses [], ∀ e ∈ s.2.indices, ∀ x ∈ e.vars,
    ∃ h ∈ s.1, h.var.name = x.name
  /-- The variable of a loop is not that of a loop around it. -/
  unshadowed : ∀ s ∈ p.code.nestedHeads [], ∀ h ∈ s.1, h.var.name ≠ s.2.var.name
  steps : ∀ h ∈ p.code.heads, ∀ n, h.step = some n → n.value ≠ 0
  regions_distinct : ((p.statements.filterMap (·.region?)).map (·.1.name)).Nodup
  nodes_distinct : ∀ r ∈ p.statements.filterMap (·.region?), (r.2.map (·.name.name)).Nodup
  settings : ∀ s ∈ p.statements.filterMap (·.setting?), s.1.name = "ignore_violations" →
    s.2.IsTruthValue

/-! ## What is checked -/

theorem isSpace_iff {n : Source.Number} :
    isSpace n = true ↔ 0 ≤ n.value.toInt ∧ n.value.toInt < 2 ^ 32 := by
  simp only [isSpace, Bool.and_eq_true, decide_eq_true_eq]
  omega

/-- If no two arrays have the same name, looking for an array by its name is looking for its
declaration. -/
theorem exists_memoryNamed?_iff {decls : List ArrayDecl} (h : (decls.map (·.name.name)).Nodup)
    {name : String} {P : Nat → Prop} :
    (∃ i m, memoryNamed? (memoriesOf decls) name = some i ∧ (memoriesOf decls)[i]? = some m ∧
      P m.rank) ↔ ∃ d ∈ decls, d.name.name = name ∧ P d.shape.length := by
  have hrank (d : ArrayDecl) : (Memory.ofDecl d).rank = d.shape.length := List.length_map ..
  have hnames : ((decls.map Memory.ofDecl).map (·.name)).Nodup := by
    rw [List.map_map]
    exact h
  rw [memoriesOf_eq_map h]
  simp only [memoryNamed?, findIdx?_key_eq_some_iff hnames, List.getElem?_map, Option.map_map,
    Option.map_eq_some_iff]
  constructor
  · rintro ⟨i, m, ⟨d, hd, hname⟩, ⟨d', hd', rfl⟩, hP⟩
    rw [hd, Option.some.injEq] at hd'
    subst hd'
    exact ⟨d, List.mem_of_getElem? hd, hname, hrank d ▸ hP⟩
  · rintro ⟨d, hd, hname, hP⟩
    obtain ⟨i, hi⟩ := List.mem_iff_getElem?.mp hd
    exact ⟨i, .ofDecl d, ⟨d, hi, hname⟩, ⟨d, hi, rfl⟩, (hrank d).symm ▸ hP⟩

theorem Source.Access.wellFormed_iff {decls : List ArrayDecl}
    (h : (decls.map (·.name.name)).Nodup) {around : List Source.LoopHead} {a : Source.Access} :
    a.WellFormed (memoriesOf decls) (around.map (·.var.name)) ↔
      (∃ d ∈ decls, d.name.name = a.array.name ∧ a.indices.length = d.shape.length) ∧
        ∀ e ∈ a.indices, ∀ x ∈ e.vars, ∃ head ∈ around, head.var.name = x.name := by
  rw [← exists_memoryNamed?_iff h]
  constructor
  · rintro ⟨harray, hknown⟩
    exact ⟨harray, fun e he x hx => List.mem_map.mp (Index.scoped_iff.mp (hknown e he) x hx)⟩
  · rintro ⟨harray, hknown⟩
    exact ⟨harray, fun e he => Index.scoped_iff.mpr fun x hx => List.mem_map.mpr (hknown e he x hx)⟩

theorem Source.LoopHead.wellFormed_iff {around : List Source.LoopHead} {h : Source.LoopHead} :
    h.WellFormed (around.map (·.var.name)) ↔
      (∀ h' ∈ around, h'.var.name ≠ h.var.name) ∧ ∀ n, h.step = some n → n.value ≠ 0 := by
  have hnew : h.var.name ∉ around.map (·.var.name) ↔ ∀ h' ∈ around, h'.var.name ≠ h.var.name := by
    simp only [List.mem_map, not_exists, not_and, ne_eq]
  rw [← hnew]
  exact ⟨fun ⟨hvar, hstep⟩ => ⟨hvar, hstep⟩, fun ⟨hvar, hstep⟩ => ⟨hvar, hstep⟩⟩

theorem Source.Program.bodyWellFormed_code_iff {memories : List Memory} {p : Program} :
    bodyWellFormed memories [] p.code ↔ ∀ l ∈ p.statements.filterMap (·.loop?),
      l.1.WellFormed [] ∧ bodyWellFormed memories [l.1.var.name] l.2 := by
  rw [code]
  induction p.statements.filterMap (·.loop?) with
  | nil => simp [bodyWellFormed]
  | cons l loops ih => rw [List.foldr_cons, bodyWellFormed, ih, List.forall_mem_cons, and_assoc]

/-- The loops of a program are well formed exactly if they follow the rules for loops. -/
theorem Source.Program.loops_wellFormed_iff {p : Program} {decls : List ArrayDecl}
    (h : (decls.map (·.name.name)).Nodup) :
    (∀ l ∈ p.statements.filterMap (·.loop?),
      l.1.WellFormed [] ∧ bodyWellFormed (memoriesOf decls) [l.1.var.name] l.2) ↔
      ((∀ a ∈ p.code.accesses, ∃ d ∈ decls,
          d.name.name = a.array.name ∧ a.indices.length = d.shape.length) ∧
        ∀ s ∈ p.code.nestedAccesses [], ∀ e ∈ s.2.indices, ∀ x ∈ e.vars,
          ∃ h ∈ s.1, h.var.name = x.name) ∧
      (∀ s ∈ p.code.nestedHeads [], ∀ h ∈ s.1, h.var.name ≠ s.2.var.name) ∧
        ∀ h ∈ p.code.heads, ∀ n, h.step = some n → n.value ≠ 0 := by
  have hcode := bodyWellFormed_iff (memoriesOf decls) p.code []
  rw [List.map_nil] at hcode
  rw [← bodyWellFormed_code_iff, hcode]
  simp only [Access.wellFormed_iff h, LoopHead.wellFormed_iff, forall_and]
  rw [Body.forall_nestedAccesses_iff fun a : Source.Access => ∃ d ∈ decls,
      d.name.name = a.array.name ∧ a.indices.length = d.shape.length,
    Body.forall_nestedHeads_iff fun head : Source.LoopHead =>
      ∀ n, head.step = some n → n.value ≠ 0]

/-- A program is resolved without errors exactly if it follows the rules: arrays, regions,
and the nodes of a region have names of their own; dimensions are positive and memory
spaces in range; accesses name declared arrays with one index a dimension and use the
variables of the loops around them; loops do not use these variables again, and their steps
are not zero; settings that are known have a truth value. -/
theorem Source.Program.no_errors_iff_inOrder (p : Program) :
    (findings p).any Finding.isError = false ↔ p.InOrder := by
  rw [← Clean.iff_any, ← wellFormed_iff_clean]
  constructor
  · intro h
    obtain ⟨⟨hdeclared, hknown⟩, hunshadowed, hsteps⟩ :=
      (loops_wellFormed_iff h.arrays_nodup).mp h.statements.loops
    exact {
      arrays_distinct := h.arrays_nodup
      dimensions := fun d hd n hn => (h.arrays d hd).shape_pos n hn
      spaces := fun d hd n hn => isSpace_iff.mp ((h.arrays d hd).space_fits n hn)
      declared := hdeclared
      known := hknown
      unshadowed := hunshadowed
      steps := hsteps
      regions_distinct := h.statements.regions.nodup
      nodes_distinct := h.statements.nodes
      settings := fun s hs hname =>
        SettingValue.isSome_bool?_iff.mp (h.statements.settings s hs hname) }
  · intro h
    have hloops := (loops_wellFormed_iff h.arrays_distinct).mpr
      ⟨⟨h.declared, h.known⟩, h.unshadowed, h.steps⟩
    exact {
      arrays_nodup := h.arrays_distinct
      arrays := fun d hd => ⟨fun n hn => h.dimensions d hd n hn,
        fun n hn => isSpace_iff.mpr (h.spaces d hd n hn)⟩
      statements := {
        settings := fun s hs hname => SettingValue.isSome_bool?_iff.mpr (h.settings s hs hname)
        loops := hloops
        regions := .of_nodup h.regions_distinct
        nodes := h.nodes_distinct } }

end Bankflow
