import Bankflow.Proofs.Dataflow.StoreHistory
import Bankflow.Proofs.Design.Meaning
import Bankflow.Proofs.Design.ResolverRegions

/-!
# Resolvers give designs

What a resolver has done after some statements is said by the functions on programs
(`Resolver.of`): its arrays, nests and regions are those of the design, its options are those
of the settings so far, and its findings are those of the statements so far, in order. Each
statement adds to this what it says (`resolveStatement_of`), so this holds of all statements
of a program (`resolve_eq`).

A program can have too many parts to be numbered. Then resolving it is a fault where counters
stop, and nothing is said where they wrap.
-/

namespace Bankflow

open Source (Ident ArrayDecl SettingValue Statement Program)

namespace Resolver

variable {o : Overflow}

/-! ## Statements -/

/-- How many loops begin in some outermost loops. -/
def loopCount (loops : List (Source.LoopHead × Source.LoopBody)) : Nat :=
  (loops.map fun l => 1 + l.2.heads.length).sum

theorem loopCount_append (ls ls' : List (Source.LoopHead × Source.LoopBody)) :
    loopCount (ls ++ ls') = loopCount ls + loopCount ls' := by
  rw [loopCount, loopCount, loopCount, List.map_append, List.sum_append]

theorem loopCount_singleton (h : Source.LoopHead) (body : Source.LoopBody) :
    loopCount [(h, body)] = 1 + body.heads.length := Nat.add_zero _

theorem nestsOf_append (memories : List Memory) :
    ∀ (ls ls' : List (Source.LoopHead × Source.LoopBody)) (id : Nat),
      nestsOf memories id (ls ++ ls') =
        nestsOf memories id ls ++ nestsOf memories (id + loopCount ls) ls'
  | [], _, _ => rfl
  | (h, body) :: ls, ls', id => by
    rw [List.cons_append, nestsOf, nestsOf, nestsOf_append memories ls ls', List.cons_append,
      loopCount, loopCount, List.map_cons, List.sum_cons, Nat.add_assoc, Nat.add_assoc,
      Nat.add_assoc]

theorem statementFindings_append (memories : List Memory) :
    ∀ (ss ss' : List Statement) (seen : List String), statementFindings memories seen (ss ++ ss') =
      statementFindings memories seen ss ++ statementFindings memories
        (((firstBy (·.1.name) seen (ss.filterMap (·.region?))).map (·.1.name)).reverse ++ seen) ss'
  | [], _, _ => rfl
  | ⟨.array _, _⟩ :: ss, ss', seen => statementFindings_append memories ss ss' seen
  | ⟨.setting name value, _⟩ :: ss, ss', seen => by
    have ih := statementFindings_append memories ss ss' seen
    simp only [List.cons_append, statementFindings, ih, List.append_assoc]
    rfl
  | ⟨.loop h body, _⟩ :: ss, ss', seen => by
    have ih := statementFindings_append memories ss ss' seen
    simp only [List.cons_append, statementFindings, ih, List.append_assoc]
    rfl
  | ⟨.region name nodes, span⟩ :: ss, ss', seen => by
    have hregions : (⟨.region name nodes, span⟩ :: ss : List Statement).filterMap (·.region?) =
        (name, nodes) :: ss.filterMap (·.region?) := rfl
    rw [hregions]
    by_cases hseen : name.name ∈ seen
    · simp only [List.cons_append, statementFindings, firstBy, hseen, if_true,
        statementFindings_append memories ss ss' seen]
    · simp only [List.cons_append, statementFindings, firstBy, hseen, if_false, List.map_cons,
        statementFindings_append memories ss ss', List.reverse_cons, List.append_assoc,
        List.nil_append]

theorem graphOf_snoc (rs : List (Ident × List Source.Node)) (r : Ident × List Source.Node) :
    graphOf (rs ++ [r]) = if r.1.name ∈ (graphOf rs).regions.map (·.name) then graphOf rs
      else (graphOf rs).addSourceRegion r := by
  rw [map_name_regions_graphOf, graphOf, firstBy_append, List.foldl_append]
  simp only [firstBy, List.append_nil, List.mem_reverse]
  split <;> rfl

/-- What a resolver has done after the first pass and some statements of the second one. -/
def of (decls : List ArrayDecl) (done : List Statement) : Resolver where
  stored := ⟨storedMemories (memoriesOf decls),
    nestsOf (memoriesOf decls) 0 (done.filterMap (·.loop?)),
    .ofGraph (graphOf (done.filterMap (·.region?)))⟩
  options := (done.filterMap (·.setting?)).foldl Options.set {}
  findings := arrayFindings [] decls ++ statementFindings (memoriesOf decls) [] done
  ids := ⟨.ofNat (memoriesOf decls).length, .ofNat (loopCount (done.filterMap (·.loop?))), 0, 0, 0⟩
  arrays := arrayTable (memoriesOf decls)

theorem of_nil (decls : List ArrayDecl) : of decls [] = collected decls := by
  rw [of, collected, statementFindings, List.append_nil]
  rfl

/-- The greatest count of parts of a kind after some statements. -/
def largest (decls : List ArrayDecl) (done : List Statement) : Nat :=
  max (memoriesOf decls).length (max (loopCount (done.filterMap (·.loop?)))
    (graphOf (done.filterMap (·.region?))).largest)

theorem knows_of {decls : List ArrayDecl} (hfits : (memoriesOf decls).length < 2 ^ 32)
    (done : List Statement) : (of decls done).Knows (memoriesOf decls) :=
  ⟨rfl, rfl, nodup_names_memoriesOf decls, hfits⟩

section Snoc

variable (decls : List ArrayDecl) (done : List Statement) (span : Span)

theorem of_snoc_array (d : ArrayDecl) : of decls (done ++ [⟨.array d, span⟩]) = of decls done := by
  simp only [of, List.filterMap_append, statementFindings_append, statementFindings,
    List.append_nil]
  simp only [List.filterMap_cons, Statement.loop?, Statement.region?, Statement.setting?,
    List.filterMap_nil, List.append_nil]

theorem of_snoc_setting (name : Ident) (value : SettingValue) :
    of decls (done ++ [⟨.setting name value, span⟩]) =
      ((of decls done).note (settingFindings name value)).withOptions
        ((of decls done).options.set (name, value)) := by
  simp only [of, List.filterMap_append, statementFindings_append, statementFindings,
    List.append_nil, List.filterMap_cons, Statement.loop?, Statement.region?, Statement.setting?,
    List.filterMap_nil, List.foldl_append, note, List.append_assoc]
  rfl

theorem of_snoc_loop (h : Source.LoopHead) (body : Source.LoopBody) :
    of decls (done ++ [⟨.loop h body, span⟩]) =
      (((of decls done).note (headFindings [] h ++
        bodyFindings (memoriesOf decls) [(h.var.name, 0)] body)).withLoops
          (loopCount (done.filterMap (·.loop?)) + 1 + body.heads.length)).addNest
        (.ofSource (memoriesOf decls) (loopCount (done.filterMap (·.loop?))) h body) := by
  simp only [of, List.filterMap_append, statementFindings_append, statementFindings,
    List.append_nil, List.filterMap_cons, Statement.loop?, Statement.region?, Statement.setting?,
    List.filterMap_nil, note, List.append_assoc, nestsOf_append, nestsOf, Nat.zero_add,
    loopCount_append, loopCount_singleton, ← Nat.add_assoc]
  rfl

theorem of_snoc_region (name : Ident) (nodes : List Source.Node) :
    of decls (done ++ [⟨.region name nodes, span⟩]) =
      if name.name ∈ (graphOf (done.filterMap (·.region?))).regions.map (·.name) then
        (of decls done).note [⟨.duplicateRegion name.name, name.span⟩]
      else ((of decls done).note (nodeFindings name.name [] nodes)).withFlow
        (.ofGraph ((graphOf (done.filterMap (·.region?))).addSourceRegion (name, nodes))) := by
  simp only [of, List.filterMap_append, statementFindings_append, statementFindings,
    List.append_nil, List.filterMap_cons, Statement.loop?, Statement.region?, Statement.setting?,
    List.filterMap_nil, note, List.append_assoc, graphOf_snoc, List.mem_reverse,
    map_name_regions_graphOf]
  split <;> rfl

theorem largest_snoc_array (d : ArrayDecl) :
    largest decls (done ++ [⟨.array d, span⟩]) = largest decls done := by
  simp only [largest, List.filterMap_append, List.filterMap_cons, Statement.loop?,
    Statement.region?, List.filterMap_nil, List.append_nil]

theorem largest_snoc_setting (name : Ident) (value : SettingValue) :
    largest decls (done ++ [⟨.setting name value, span⟩]) = largest decls done := by
  simp only [largest, List.filterMap_append, List.filterMap_cons, Statement.loop?,
    Statement.region?, List.filterMap_nil, List.append_nil]

theorem largest_snoc_loop (h : Source.LoopHead) (body : Source.LoopBody) :
    largest decls (done ++ [⟨.loop h body, span⟩]) = max (memoriesOf decls).length
      (max (loopCount (done.filterMap (·.loop?)) + 1 + body.heads.length)
        (graphOf (done.filterMap (·.region?))).largest) := by
  simp only [largest, List.filterMap_append, List.filterMap_cons, Statement.loop?,
    Statement.region?, List.filterMap_nil, List.append_nil, loopCount_append, loopCount_singleton,
    ← Nat.add_assoc]

theorem largest_snoc_region (name : Ident) (nodes : List Source.Node) :
    largest decls (done ++ [⟨.region name nodes, span⟩]) = max (memoriesOf decls).length
      (max (loopCount (done.filterMap (·.loop?)))
        (graphOf (done.filterMap (·.region?) ++ [(name, nodes)])).largest) := by
  simp only [largest, List.filterMap_append, List.filterMap_cons, Statement.loop?,
    Statement.region?, List.filterMap_nil, List.append_nil]

theorem largest_le_snoc (s : Statement) : largest decls done ≤ largest decls (done ++ [s]) := by
  obtain ⟨decl, span⟩ := s
  cases decl with
  | array d => rw [largest_snoc_array]
  | setting name value => rw [largest_snoc_setting]
  | loop h body =>
    rw [largest_snoc_loop, largest]
    omega
  | region name nodes =>
    have hle := largest_le_addSourceRegion (graphOf (done.filterMap (·.region?))) (name, nodes)
    rw [largest_snoc_region, largest, graphOf_snoc]
    split <;> omega

theorem largest_le_append :
    ∀ (ss done : List Statement), largest decls done ≤ largest decls (done ++ ss)
  | [], done => by rw [List.append_nil]
  | s :: ss, done => by
    have hrest := largest_le_append ss (done ++ [s])
    rw [List.append_assoc, List.singleton_append] at hrest
    exact Nat.le_trans (largest_le_snoc decls done s) hrest

end Snoc

/-- A statement adds what it says to what the statements before it said. -/
theorem resolveStatement_of (decls : List ArrayDecl) (done : List Statement) (s : Statement)
    (hlt : largest decls done < 2 ^ 32)
    (hroom : o = .stops ∨ largest decls (done ++ [s]) < 2 ^ 32) :
    (of decls done).resolveStatement o s =
      o.counted (largest decls (done ++ [s])) (.ok (of decls (done ++ [s]))) := by
  obtain ⟨harrays, hrest⟩ := Nat.max_lt.mp hlt
  obtain ⟨hloops, hgraph⟩ := Nat.max_lt.mp hrest
  obtain ⟨decl, span⟩ := s
  cases decl with
  | array d =>
    rw [of_snoc_array, largest_snoc_array, Overflow.counted_of_reaches (.inr hlt)]
    rfl
  | setting name value =>
    rw [of_snoc_setting, largest_snoc_setting, Overflow.counted_of_reaches (.inr hlt),
      ← resolveSetting_eq]
    rfl
  | loop h body =>
    rw [largest_snoc_loop] at hroom
    have hnest := resolveNest_eq (knows_of harrays done) h body rfl (.inr hloops)
      (hroom.imp_right fun hlt => by omega)
    rw [of_snoc_loop, largest_snoc_loop, resolveStatement]
    refine hnest.trans (Overflow.counted_congr ?_)
    rw [Overflow.reaches_max, Overflow.reaches_max]
    exact ⟨fun h => ⟨.inr harrays, h, .inr hgraph⟩, fun h => h.2.1⟩
  | region name nodes =>
    rw [largest_snoc_region, graphOf_snoc] at hroom
    rw [of_snoc_region, largest_snoc_region, graphOf_snoc, resolveStatement]
    by_cases hmem : name.name ∈ (graphOf (done.filterMap (·.region?))).regions.map (·.name)
    · rw [if_pos hmem, if_pos hmem]
      exact (resolveRegion_of_mem rfl name nodes hmem).trans
        (Overflow.counted_of_reaches (.inr hlt)).symm
    · rw [if_neg hmem] at hroom
      rw [if_neg hmem, if_neg hmem]
      have hregion := resolveRegion_of_not_mem (r := of decls done) rfl (built_graphOf _) hgraph
        name nodes hmem (hroom.imp_right fun hlt => by omega)
      refine hregion.trans (Overflow.counted_congr ?_)
      rw [Overflow.reaches_max, Overflow.reaches_max]
      exact ⟨fun h => ⟨.inr harrays, .inr hloops, h⟩, fun h => h.2.2⟩

/-- The second pass. -/
theorem resolveStatements_of (decls : List ArrayDecl) :
    ∀ (ss done : List Statement), largest decls done < 2 ^ 32 →
      (o = .stops ∨ largest decls (done ++ ss) < 2 ^ 32) →
      (of decls done).resolveStatements o ss =
        o.counted (largest decls (done ++ ss)) (.ok (of decls (done ++ ss)))
  | [], done, hlt, _ => by
    rw [List.append_nil, Overflow.counted_of_reaches (.inr hlt)]
    rfl
  | s :: ss, done, hlt, hroom => by
    have happend : done ++ s :: ss = done ++ [s] ++ ss := by
      rw [List.append_assoc, List.singleton_append]
    rw [happend] at hroom ⊢
    have hle : largest decls (done ++ [s]) ≤ largest decls (done ++ [s] ++ ss) :=
      largest_le_append decls ss (done ++ [s])
    refine Overflow.bind_counted
      (resolveStatement_of decls done s hlt (hroom.imp_right (Nat.lt_of_le_of_lt hle))) hle
      fun hreaches => ?_
    exact resolveStatements_of decls ss (done ++ [s]) (hreaches.lt hle hroom) hroom

end Resolver

/-! ## Programs -/

/-- The greatest count of parts of a kind. -/
def Design.largest (d : Design) : Nat :=
  max d.memories.length (max (d.nests.flatMap (·.heads)).length d.graph.largest)

theorem length_heads_nestsOf (memories : List Memory) :
    ∀ (loops : List (Source.LoopHead × Source.LoopBody)) (id : Nat),
      ((nestsOf memories id loops).flatMap (·.heads)).length = Resolver.loopCount loops
  | [], _ => rfl
  | (h, body) :: loops, id => by
    rw [nestsOf, List.flatMap_cons, List.length_append, length_heads_nestsOf memories loops,
      Nest.heads_ofSource, List.length_mapIdx, List.length_cons, Nat.add_comm body.heads.length]
    rfl

/-- What a resolver has done after all statements of a program. -/
def Resolver.ofProgram (p : Program) : Resolver :=
  .of (p.statements.filterMap (·.array?)) p.statements

/-- Going through a program gives its design, its options and its findings, with numbers and
tables that fit together. It is a fault if a counter that stops comes to its end. -/
theorem resolve_eq (o : Overflow) (p : Program)
    (hroom : o = .stops ∨ (Design.ofProgram p).largest < 2 ^ 32) :
    resolve o p = o.counted (Design.ofProgram p).largest (.ok (.ofProgram p)) := by
  have hlargest : (Design.ofProgram p).largest =
      Resolver.largest (p.statements.filterMap (·.array?)) p.statements := by
    rw [Design.largest, Design.ofProgram, length_heads_nestsOf]
    rfl
  rw [hlargest] at hroom ⊢
  have hstart : Resolver.empty = .collected [] := rfl
  have hcollected := Resolver.collectArrays_collected (o := o) p.statements [] (by decide)
    (hroom.imp_right fun hlt => (Nat.max_lt.mp hlt).1)
  rw [List.nil_append] at hcollected
  rw [resolve, hstart]
  refine Overflow.bind_counted hcollected (Nat.le_max_left _ _) fun hreaches => ?_
  rw [← Resolver.of_nil]
  refine Resolver.resolveStatements_of _ p.statements [] ?_ hroom
  have harrays := hreaches.lt (Nat.le_max_left _ _) hroom
  rw [Resolver.largest, Nat.max_lt, Nat.max_lt]
  exact ⟨harrays, by decide, by decide⟩

/-- What a resolver ends with, if it does not run out of numbers. -/
theorem eq_ofProgram_of_resolve {o : Overflow} {p : Program} {r : Resolver}
    (hroom : o = .stops ∨ (Design.ofProgram p).largest < 2 ^ 32) (h : resolve o p = .ok r) :
    (Design.ofProgram p).largest < 2 ^ 32 ∧ r = .ofProgram p := by
  rw [resolve_eq o p hroom] at h
  obtain ⟨hreaches, h⟩ := Overflow.eq_ok_of_counted h
  exact ⟨hreaches.lt (Nat.le_refl _) hroom, (Except.ok.inj h).symm⟩

/-- The design that a resolver keeps is that of the program. -/
theorem Resolver.design_ofProgram {p : Program} (h : (Design.ofProgram p).largest < 2 ^ 32) :
    (ofProgram p).stored.design = Design.ofProgram p := by
  have hmemories : ∀ memories : List Memory,
      (storedMemories memories).map (·.memory) = memories := by
    intro memories
    refine List.ext_getElem? fun i => ?_
    rw [storedMemories, List.getElem?_map, List.getElem?_mapIdx, Option.map_map]
    exact Option.map_id'
  have hgraph : (Design.ofProgram p).graph.largest < 2 ^ 32 :=
    (Nat.max_lt.mp (Nat.max_lt.mp h).2).2
  have hbuilt := built_graphOf (p.statements.filterMap (·.region?))
  rw [StoredDesign.design, Design.ofProgram, ofProgram, of, hmemories,
    Dataflow.Store.graph_ofGraph (hbuilt.fits hgraph) hbuilt.consistent]

/-- Parts are where their numbers say, and all copies of what a resolver knows agree. -/
structure Resolver.Consistent (r : Resolver) : Prop where
  memory_id : ∀ (i : Nat) m, r.stored.memories[i]? = some m → m.id.toNat = i
  next_array : r.ids.array.toNat = r.stored.memories.length
  next_loop : r.ids.loop.toNat = (r.stored.nests.flatMap (·.heads)).length
  names_nodup : (r.stored.memories.map (·.memory.name)).Nodup
  lookup_iff : ∀ name id,
    r.arrays.lookup name = some id ↔ ∃ m ∈ r.stored.memories, m.memory.name = name ∧ m.id = id
  flow : r.stored.flow.Consistent

theorem Resolver.consistent_ofProgram {p : Program} (h : (Design.ofProgram p).largest < 2 ^ 32) :
    (ofProgram p).Consistent := by
  obtain ⟨harrays, hrest⟩ := Nat.max_lt.mp h
  obtain ⟨hloops, hgraph⟩ := Nat.max_lt.mp hrest
  have hbuilt := built_graphOf (p.statements.filterMap (·.region?))
  have hnames := nodup_names_memoriesOf (p.statements.filterMap (·.array?))
  have hloop : ((ofProgram p).stored.nests.flatMap (·.heads)).length =
      loopCount (p.statements.filterMap (·.loop?)) := length_heads_nestsOf _ _ 0
  have hcount : loopCount (p.statements.filterMap (·.loop?)) < 2 ^ 32 := hloop ▸ hloops
  refine ⟨fun _ _ => ?_, ?_, ?_, ?_, ?_, ?_⟩
  · exact Dataflow.Store.toNat_number_of_getElem? StoredMemory.of StoredMemory.id
      (fun _ _ => rfl) harrays
  · exact (UInt32.toNat_ofNat_of_lt' harrays).trans List.length_mapIdx.symm
  · rw [hloop]
    exact UInt32.toNat_ofNat_of_lt' hcount
  · exact (Dataflow.Store.map_name_parts StoredMemory.of Memory.name (·.memory.name)
      fun _ _ => rfl).symm ▸ hnames
  · exact Dataflow.Store.lookup_parts_iff StoredMemory.of Memory.name (·.memory.name)
      StoredMemory.id (fun _ _ => rfl) (fun _ _ => rfl) hnames
  · exact Dataflow.Store.consistent_ofGraph (hbuilt.fits hgraph) hbuilt.consistent

end Bankflow