import Bankflow.Proofs.Design.OfProgram

/-!
# Programs without errors

What it takes for a program to be resolved without errors, said about the program itself:
names are declared once and used where they are known, and numbers are in range
(`Source.Program.WellFormed`). Findings without errors are `Clean`, and each part of a
program is well formed exactly if the findings about it are
(`Source.Program.wellFormed_iff_clean`).
-/

namespace Bankflow

open Source (Ident Number Index ArrayDecl SettingValue Statement Program)

/-- Findings without errors. -/
def Clean (fs : List Finding) : Prop := ∀ f ∈ fs, f.isError = false

namespace Clean

variable {f : Finding} {fs gs : List Finding}

@[simp] theorem nil : Clean [] := fun _ hf => nomatch hf

@[simp] theorem cons_iff : Clean (f :: fs) ↔ f.isError = false ∧ Clean fs :=
  List.forall_mem_cons

theorem not_cons (h : f.isError = true) : ¬ Clean (f :: fs) := by
  intro hc
  rw [(cons_iff.mp hc).1] at h
  cases h

@[simp] theorem append_iff : Clean (fs ++ gs) ↔ Clean fs ∧ Clean gs := List.forall_mem_append

theorem iff_any : Clean fs ↔ fs.any Finding.isError = false := by
  rw [List.any_eq_false]
  exact forall_congr' fun f => forall_congr' fun _ => (Bool.not_eq_true _).symm.to_iff

end Clean

/-! ## Names that are used once -/

/-- The elements of a list have keys of their own, and none that was seen before. -/
structure Fresh {α : Type} (key : α → String) (seen : List String) (l : List α) : Prop where
  unseen : ∀ a ∈ l, key a ∉ seen
  nodup : (l.map key).Nodup

namespace Fresh

variable {α : Type} {key : α → String} {seen : List String} {a : α} {l : List α}

theorem cons_iff : Fresh key seen (a :: l) ↔ key a ∉ seen ∧ Fresh key (key a :: seen) l := by
  constructor
  · rintro ⟨hunseen, hnodup⟩
    obtain ⟨hfirst, hnodup⟩ := List.nodup_cons.mp hnodup
    refine ⟨hunseen a List.mem_cons_self, fun b hb => ?_, hnodup⟩
    rw [List.mem_cons, not_or]
    exact ⟨fun h => hfirst (h ▸ List.mem_map_of_mem hb), hunseen b (List.mem_cons_of_mem a hb)⟩
  · rintro ⟨ha, hunseen, hnodup⟩
    simp only [List.mem_cons, not_or] at hunseen
    refine ⟨List.forall_mem_cons.mpr ⟨ha, fun b hb => (hunseen b hb).2⟩,
      List.nodup_cons.mpr ⟨fun h => ?_, hnodup⟩⟩
    obtain ⟨b, hb, hab⟩ := List.mem_map.mp h
    exact (hunseen b hb).1 hab

theorem of_nodup (h : (l.map key).Nodup) : Fresh key [] l := ⟨fun _ _ => List.not_mem_nil, h⟩

end Fresh

/-- Elements with keys of their own are all kept. -/
theorem firstBy_eq_self {α : Type} {key : α → String} :
    ∀ {l : List α} {seen : List String}, Fresh key seen l → firstBy key seen l = l
  | [], _, _ => rfl
  | a :: l, seen, h => by
    obtain ⟨ha, hl⟩ := Fresh.cons_iff.mp h
    rw [firstBy, if_neg ha, firstBy_eq_self hl]

/-- The elements that are kept have keys of their own. -/
theorem fresh_firstBy {α : Type} (key : α → String) :
    ∀ (l : List α) (seen : List String), Fresh key seen (firstBy key seen l)
  | [], _ => ⟨List.forall_mem_nil _, List.nodup_nil⟩
  | a :: l, seen => by
    rw [firstBy]
    split
    · exact fresh_firstBy key l seen
    · next ha => exact Fresh.cons_iff.mpr ⟨ha, fresh_firstBy key l (key a :: seen)⟩

theorem map_name_memoriesOf (decls : List ArrayDecl) :
    (memoriesOf decls).map (·.name) = (firstBy (·.name.name) [] decls).map (·.name.name) := by
  rw [memoriesOf, List.map_map]
  rfl

theorem nodup_names_memoriesOf (decls : List ArrayDecl) :
    ((memoriesOf decls).map (·.name)).Nodup := by
  rw [map_name_memoriesOf]
  exact (fresh_firstBy (·.name.name) decls []).nodup

/-- Every dimension is at least one, and the memory space has a number in range. -/
structure Source.ArrayDecl.WellFormed (d : ArrayDecl) : Prop where
  shape_pos : ∀ n ∈ d.shape, 0 < n.value.toInt
  space_fits : ∀ n, d.memorySpace = some n → isSpace n = true

theorem clean_shapeFindings_iff {d : ArrayDecl} :
    Clean (shapeFindings d) ↔ ∀ n ∈ d.shape, 0 < n.value.toInt := by
  constructor
  · intro h n hn
    by_contra hneg
    have hmem : ⟨.emptyDimension d.name.name, n.span⟩ ∈ shapeFindings d :=
      List.mem_filterMap.mpr ⟨n, hn, if_pos (Int.not_lt.mp hneg)⟩
    cases h _ hmem
  · intro h f hf
    obtain ⟨n, hn, hf⟩ := List.mem_filterMap.mp hf
    rw [if_neg (Int.not_le.mpr (h n hn))] at hf
    cases hf

theorem clean_spaceFindings_iff {d : ArrayDecl} :
    Clean (spaceFindings d) ↔ ∀ n, d.memorySpace = some n → isSpace n = true := by
  unfold spaceFindings
  cases d.memorySpace with
  | none => simp
  | some n => cases hn : isSpace n <;> simp [hn, Finding.isError, Issue.severity]

theorem clean_arrayFindings_iff {ds : List ArrayDecl} {seen : List String} :
    Clean (arrayFindings seen ds) ↔ Fresh (·.name.name) seen ds ∧ ∀ d ∈ ds, d.WellFormed := by
  induction ds generalizing seen with
  | nil => exact iff_of_true .nil ⟨⟨nofun, List.nodup_nil⟩, nofun⟩
  | cons d ds ih =>
    rw [arrayFindings, Fresh.cons_iff, List.forall_mem_cons]
    split
    · next hseen =>
      exact iff_of_false (Clean.not_cons rfl) fun h => h.1.1 hseen
    · next hseen =>
      rw [Clean.append_iff, Clean.append_iff, clean_shapeFindings_iff, clean_spaceFindings_iff, ih]
      constructor
      · rintro ⟨⟨hshape, hspace⟩, hfresh, hds⟩
        exact ⟨⟨hseen, hfresh⟩, ⟨hshape, hspace⟩, hds⟩
      · rintro ⟨⟨-, hfresh⟩, hd, hds⟩
        exact ⟨⟨hd.shape_pos, hd.space_fits⟩, hfresh, hds⟩

/-- Arrays that are declared once are numbered by their declarations. -/
theorem memoriesOf_eq_map {ds : List ArrayDecl} (h : (ds.map (·.name.name)).Nodup) :
    memoriesOf ds = ds.map .ofDecl := by
  rw [memoriesOf, firstBy_eq_self (.of_nodup h)]

/-! ## Indices -/

/-- The index uses only variables of these names. -/
def Source.Index.Scoped (names : List String) : Index → Prop
  | int _ => True
  | var x => x.name ∈ names
  | neg e _ => e.Scoped names
  | binary _ l r => l.Scoped names ∧ r.Scoped names

theorem Scope.isSome_find?_iff {scope : Scope} {name : String} :
    (scope.find? name).isSome = true ↔ name ∈ scope.map (·.1) := by
  rw [Scope.find?, Option.isSome_map, List.find?_isSome, List.mem_map]
  simp only [decide_eq_true_eq]

theorem Source.Index.unknowns_eq_nil_iff {scope : Scope} :
    ∀ {e : Index}, e.unknowns scope = [] ↔ e.Scoped (scope.map (·.1))
  | .int _ => iff_of_true rfl trivial
  | .var x => by
    rw [unknowns, Scoped, ← Scope.isSome_find?_iff]
    split
    · next h => exact iff_of_true rfl h
    · next h => exact iff_of_false (List.cons_ne_nil _ _) h
  | .neg e _ => unknowns_eq_nil_iff (e := e)
  | .binary _ l r => by
    rw [unknowns, Scoped, List.append_eq_nil_iff, unknowns_eq_nil_iff, unknowns_eq_nil_iff]

theorem firstUnknowns_eq_nil_iff {scope : Scope} :
    ∀ {es : List Index}, firstUnknowns scope es = [] ↔ ∀ e ∈ es, e.Scoped (scope.map (·.1))
  | [] => iff_of_true rfl fun _ he => nomatch he
  | e :: es => by
    rw [firstUnknowns, List.forall_mem_cons, ← Source.Index.unknowns_eq_nil_iff]
    split
    · next h => rw [firstUnknowns_eq_nil_iff, and_iff_right h]
    · next h => exact iff_of_false h fun h' => h h'.1

/-! ## Loops -/

/-- The access names an array of these, with one index a dimension, and uses variables
that are known. -/
structure Source.Access.WellFormed (memories : List Memory) (names : List String)
    (a : Source.Access) : Prop where
  array : ∃ i m, memoryNamed? memories a.array.name = some i ∧ memories[i]? = some m ∧
    a.indices.length = m.rank
  known : ∀ e ∈ a.indices, e.Scoped names

/-- The variable is not that of a loop around, and the step is not zero. -/
structure Source.LoopHead.WellFormed (names : List String) (h : Source.LoopHead) : Prop where
  var_new : h.var.name ∉ names
  step_ne : ∀ n, h.step = some n → n.value ≠ 0

/-- All loops and accesses of a body are well formed; `names` are the variables of the
loops around it. -/
def Source.bodyWellFormed (memories : List Memory) (names : List String) :
    Source.LoopBody → Prop
  | .done => True
  | .access a rest => a.WellFormed memories names ∧ bodyWellFormed memories names rest
  | .loop h inner rest =>
    h.WellFormed names ∧ bodyWellFormed memories (h.var.name :: names) inner ∧
      bodyWellFormed memories names rest

theorem clean_headFindings_iff {scope : Scope} {h : Source.LoopHead} :
    Clean (headFindings scope h) ↔ h.WellFormed (scope.map (·.1)) := by
  have hshadow : Clean (shadowFindings scope h.var) ↔ h.var.name ∉ scope.map (·.1) := by
    rw [← Scope.isSome_find?_iff, shadowFindings]
    split
    · next hs => exact iff_of_false (Clean.not_cons rfl) (not_not.mpr hs)
    · next hs => exact iff_of_true .nil hs
  have hstep : Clean (stepFindings h.step) ↔ ∀ n, h.step = some n → n.value ≠ 0 := by
    unfold stepFindings
    cases h.step with
    | none => simp
    | some n => by_cases hn : n.value = 0 <;> simp [hn, Finding.isError, Issue.severity]
  rw [headFindings, Clean.append_iff, hshadow, hstep]
  exact ⟨fun ⟨hv, hs⟩ => ⟨hv, hs⟩, fun ⟨hv, hs⟩ => ⟨hv, hs⟩⟩

theorem clean_accessFindings_iff {memories : List Memory} {scope : Scope} {a : Source.Access} :
    Clean (accessFindings memories scope a) ↔ a.WellFormed memories (scope.map (·.1)) := by
  unfold accessFindings
  split
  · next hnone =>
    refine iff_of_false (Clean.not_cons rfl) fun h => ?_
    obtain ⟨i, m, hi, hm, -⟩ := h.array
    rw [hi, Option.bind_some, hm] at hnone
    cases hnone
  · next m hm =>
    obtain ⟨i, hi, hm⟩ := Option.bind_eq_some_iff.mp hm
    split
    · next hrank =>
      rw [← show firstUnknowns scope a.indices = [] ↔ _ from
        ⟨fun h => (⟨⟨i, m, hi, hm, hrank⟩, firstUnknowns_eq_nil_iff.mp h⟩ :
          a.WellFormed memories (scope.map (·.1))), fun h => firstUnknowns_eq_nil_iff.mpr h.known⟩]
      constructor
      · intro hc
        refine List.eq_nil_iff_forall_not_mem.mpr fun x hx => ?_
        cases hc _ (List.mem_map_of_mem hx)
      · intro hnil
        rw [hnil]
        exact .nil
    · next hrank =>
      refine iff_of_false (Clean.not_cons rfl) fun h => ?_
      obtain ⟨j, m', hj, hm', hrank'⟩ := h.array
      rw [hi, Option.some.injEq] at hj
      subst hj
      rw [hm, Option.some.injEq] at hm'
      exact hrank (hm' ▸ hrank')

theorem clean_bodyFindings_iff {memories : List Memory} :
    ∀ {body : Source.LoopBody} {scope : Scope},
      Clean (bodyFindings memories scope body) ↔
        Source.bodyWellFormed memories (scope.map (·.1)) body
  | .done, _ => iff_of_true .nil trivial
  | .access a rest, scope => by
    rw [bodyFindings, Source.bodyWellFormed, Clean.append_iff, clean_accessFindings_iff,
      clean_bodyFindings_iff]
  | .loop h inner rest, scope => by
    rw [bodyFindings, Source.bodyWellFormed, Clean.append_iff, Clean.append_iff,
      clean_headFindings_iff, clean_bodyFindings_iff, clean_bodyFindings_iff, and_assoc,
      List.map_cons]

/-! ## Regions and settings -/

theorem clean_nodeFindings_iff {region : String} :
    ∀ {ns : List Source.Node} {seen : List (String × Nat)},
      Clean (nodeFindings region seen ns) ↔ Fresh (·.name.name) (seen.map (·.1)) ns
  | [], _ => iff_of_true .nil ⟨nofun, List.nodup_nil⟩
  | n :: ns, seen => by
    have hfind : (seen.find? (·.1 = n.name.name)).isSome = true ↔
        n.name.name ∈ seen.map (·.1) := by
      rw [List.find?_isSome, List.mem_map]
      simp only [decide_eq_true_eq]
    rw [nodeFindings, Fresh.cons_iff]
    split
    · next hs =>
      rw [hs] at hfind
      exact iff_of_false (Clean.not_cons rfl) fun h => h.1 (hfind.mp rfl)
    · next hs =>
      rw [hs] at hfind
      rw [clean_nodeFindings_iff, and_iff_right fun h => nomatch hfind.mpr h]
      rfl

/-- A known setting is set to a truth value. -/
def settingWellFormed (s : Ident × SettingValue) : Prop :=
  s.1.name = "ignore_violations" → s.2.bool?.isSome = true

theorem clean_settingFindings_iff {name : Ident} {value : SettingValue} :
    Clean (settingFindings name value) ↔ settingWellFormed (name, value) := by
  unfold settingFindings settingWellFormed
  split
  · next hname =>
    split
    · next hb => exact iff_of_true .nil fun _ => hb
    · next hb => exact iff_of_false (Clean.not_cons rfl) fun h => hb (h hname)
  · next hname => exact iff_of_true (Clean.cons_iff.mpr ⟨rfl, .nil⟩) fun h => absurd h hname

/-! ## Programs -/

/-- All parts of a program but its arrays, after regions of some names. -/
structure StatementsWellFormed (memories : List Memory) (regions : List String)
    (ss : List Statement) : Prop where
  settings : ∀ s ∈ ss.filterMap (·.setting?), settingWellFormed s
  loops : ∀ l ∈ ss.filterMap (·.loop?),
    l.1.WellFormed [] ∧ Source.bodyWellFormed memories [l.1.var.name] l.2
  regions : Fresh (·.1.name) regions (ss.filterMap (·.region?))
  nodes : ∀ r ∈ ss.filterMap (·.region?), (r.2.map (·.name.name)).Nodup

theorem clean_statementFindings_iff {memories : List Memory} :
    ∀ {ss : List Statement} {regions : List String},
      Clean (statementFindings memories regions ss) ↔ StatementsWellFormed memories regions ss
  | [], _ => iff_of_true .nil ⟨nofun, nofun, ⟨nofun, List.nodup_nil⟩, nofun⟩
  | ⟨.array d, _⟩ :: ss, regions => by
    rw [statementFindings, clean_statementFindings_iff]
    exact ⟨fun ⟨hs, hl, hr, hn⟩ => ⟨hs, hl, hr, hn⟩, fun ⟨hs, hl, hr, hn⟩ => ⟨hs, hl, hr, hn⟩⟩
  | ⟨.setting name value, _⟩ :: ss, regions => by
    rw [statementFindings, Clean.append_iff, clean_settingFindings_iff, clean_statementFindings_iff]
    constructor
    · rintro ⟨hs, h⟩
      exact ⟨List.forall_mem_cons.mpr ⟨hs, h.settings⟩, h.loops, h.regions, h.nodes⟩
    · intro h
      obtain ⟨hs, hsettings⟩ := List.forall_mem_cons.mp h.settings
      exact ⟨hs, hsettings, h.loops, h.regions, h.nodes⟩
  | ⟨.loop head body, _⟩ :: ss, regions => by
    rw [statementFindings, Clean.append_iff, Clean.append_iff, clean_headFindings_iff,
      clean_bodyFindings_iff, clean_statementFindings_iff]
    constructor
    · rintro ⟨hloop, h⟩
      exact ⟨h.settings, List.forall_mem_cons.mpr ⟨hloop, h.loops⟩, h.regions, h.nodes⟩
    · intro h
      obtain ⟨hloop, hloops⟩ := List.forall_mem_cons.mp h.loops
      exact ⟨hloop, h.settings, hloops, h.regions, h.nodes⟩
  | ⟨.region name nodes, _⟩ :: ss, regions => by
    simp only [statementFindings]
    split
    · next hseen =>
      refine iff_of_false (Clean.not_cons rfl) fun h => ?_
      exact (Fresh.cons_iff.mp h.regions).1 hseen
    · next hseen =>
      rw [Clean.append_iff, clean_nodeFindings_iff, clean_statementFindings_iff]
      constructor
      · rintro ⟨hnodes, h⟩
        exact ⟨h.settings, h.loops, Fresh.cons_iff.mpr ⟨hseen, h.regions⟩,
          List.forall_mem_cons.mpr ⟨hnodes.nodup, h.nodes⟩⟩
      · intro h
        obtain ⟨hnodes, hrest⟩ := List.forall_mem_cons.mp h.nodes
        exact ⟨.of_nodup hnodes, h.settings, h.loops, (Fresh.cons_iff.mp h.regions).2, hrest⟩

/-- Programs that can be resolved without errors. -/
structure Source.Program.WellFormed (p : Program) : Prop where
  arrays_nodup : ((p.statements.filterMap (·.array?)).map (·.name.name)).Nodup
  arrays : ∀ d ∈ p.statements.filterMap (·.array?), d.WellFormed
  statements : StatementsWellFormed (memoriesOf (p.statements.filterMap (·.array?))) []
    p.statements

/-- A program is well formed exactly if nothing that is wrong with it is an error. -/
theorem Source.Program.wellFormed_iff_clean {p : Program} :
    p.WellFormed ↔ Clean (findings p) := by
  rw [findings, Clean.append_iff, clean_arrayFindings_iff, clean_statementFindings_iff]
  constructor
  · rintro ⟨hnodup, harrays, hstatements⟩
    exact ⟨⟨.of_nodup hnodup, harrays⟩, hstatements⟩
  · rintro ⟨⟨hfresh, harrays⟩, hstatements⟩
    exact ⟨hfresh.nodup, harrays, hstatements⟩

end Bankflow
