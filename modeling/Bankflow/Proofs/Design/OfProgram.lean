import Bankflow.Design.OfProgram
import Bankflow.Proofs.Bank.Certificate
import Bankflow.Proofs.Dataflow.Graph
import Bankflow.Proofs.Source.Size
import Mathlib.Data.List.Flatten

/-!
# Designs of programs

Whatever a program says, its design is in order: it can be banked
(`Design.bankable_ofProgram`), and its graph is built by adding regions, buffers and
nodes to the empty one (`built_graphOf`). The sizes of its parts are bounded by those of
the program.

So every array of a program is banked injectively (`Design.ofProgram_banked_injectively`).
-/

namespace Bankflow

open Word (greatest)

theorem firstBy_sublist {α : Type} (key : α → String) :
    ∀ (seen : List String) (l : List α), (firstBy key seen l).Sublist l
  | _, [] => .slnil
  | seen, a :: l => by
    rw [firstBy]
    split
    · exact (firstBy_sublist key seen l).cons a
    · exact (firstBy_sublist key (key a :: seen) l).cons_cons a

/-! ## Arrays -/

theorem dimensionSize_pos (n : Source.Number) : 0 < dimensionSize n := by
  rw [dimensionSize]
  omega

theorem dimensionSize_le (n : Source.Number) : (dimensionSize n : Int) ≤ greatest := by
  have hmax : n.value.toInt ≤ 9223372036854775807 := Int64.toInt_le n.value
  show (dimensionSize n : Int) ≤ 9223372036854775807
  rw [dimensionSize]
  omega

theorem exists_decl_of_mem_memoriesOf {decls : List Source.ArrayDecl} {m : Memory}
    (h : m ∈ memoriesOf decls) : ∃ decl ∈ decls, .ofDecl decl = m := by
  obtain ⟨decl, hdecl, hm⟩ := List.mem_map.mp h
  exact ⟨decl, (firstBy_sublist _ _ _).subset hdecl, hm⟩

/-! ## Accesses -/

theorem memoryNamed?_lt {memories : List Memory} {name : String} {i : Nat}
    (h : memoryNamed? memories name = some i) : i < memories.length :=
  (List.findIdx?_eq_some_iff_getElem.mp h).1

theorem Access.array_lt {memories : List Memory} {scope : Scope} {a : Source.Access} {x : Access}
    (h : Access.ofSource? memories scope a = some x) : x.array < memories.length := by
  simp only [Access.ofSource?, Option.bind_eq_bind, Option.bind_eq_some_iff] at h
  obtain ⟨i, hi, m, -, h⟩ := h
  split at h
  · simp only [Option.bind_eq_some_iff] at h
    obtain ⟨es, -, h⟩ := h
    cases h
    exact memoryNamed?_lt hi
  · cases h

theorem accesses_lowerBody_array_lt {memories : List Memory} :
    ∀ {body : Source.LoopBody} {scope : Scope} {id var : Nat},
      ∀ x ∈ (lowerBody memories scope id var body).accesses, x.array < memories.length
  | .done, _, _, _, x, hx => nomatch hx
  | .access a rest, scope, id, var, x, hx => by
    rw [lowerBody] at hx
    split at hx
    · next y hy =>
      rcases List.mem_cons.mp hx with rfl | hx
      · exact Access.array_lt hy
      · exact accesses_lowerBody_array_lt x hx
    · exact accesses_lowerBody_array_lt x hx
  | .loop h inner rest, scope, id, var, x, hx => by
    rw [lowerBody, Body.accesses, List.mem_append] at hx
    rcases hx with hx | hx
    · exact accesses_lowerBody_array_lt x hx
    · exact accesses_lowerBody_array_lt x hx

theorem length_accesses_lowerBody_le (memories : List Memory) :
    ∀ (body : Source.LoopBody) (scope : Scope) (id var : Nat),
      (lowerBody memories scope id var body).accesses.length ≤ body.accesses.length
  | .done, _, _, _ => Nat.le_refl 0
  | .access a rest, scope, id, var => by
    have hrest := length_accesses_lowerBody_le memories rest scope id var
    rw [lowerBody, Body.accesses, List.length_cons]
    split
    · rw [Body.accesses, List.length_cons]
      omega
    · omega
  | .loop h inner rest, scope, id, var => by
    rw [lowerBody, Body.accesses, Body.accesses, List.length_append, List.length_append]
    exact Nat.add_le_add (length_accesses_lowerBody_le memories inner _ _ _)
      (length_accesses_lowerBody_le memories rest _ _ _)

theorem exists_loop_of_mem_nestsOf {memories : List Memory} {n : Nest} :
    ∀ {loops : List (Source.LoopHead × Source.LoopBody)} {id : Nat}, n ∈ nestsOf memories id loops →
      ∃ loop ∈ loops, ∃ id, n = .ofSource memories id loop.1 loop.2
  | (h, body) :: loops, id, hn => by
    rcases List.mem_cons.mp hn with rfl | hn
    · exact ⟨(h, body), List.mem_cons_self, id, rfl⟩
    · obtain ⟨loop, hloop, hn⟩ := exists_loop_of_mem_nestsOf hn
      exact ⟨loop, List.mem_cons_of_mem _ hloop, hn⟩

/-! ## Graphs -/

namespace Dataflow.Graph

/-- Adding a node of a program to one of the regions. -/
theorem Built.addSourceNode {g : Graph} {region : Nat} (h : g.Built)
    (hr : region < g.regions.length) (n : Source.Node) :
    (g.addSourceNode region n).Built ∧
      (g.addSourceNode region n).regions.length = g.regions.length ∧
      (g.addSourceNode region n).nodes.length = g.nodes.length + 1 := by
  have hin := interned_internBuffers (n.inputs.map (·.name)) g
  have hout := interned_internBuffers (n.outputs.map (·.name))
    (g.internBuffers (n.inputs.map (·.name))).1
  have hboth := hin.trans hout
  refine ⟨.addNode (hboth.built h) (addNode?_eq_ok_iff.mpr ⟨?_, hout.lt, ?_, rfl⟩), ?_, ?_⟩
  · exact fun b hb => hboth.lt b (List.mem_append_left _ hb)
  · rw [hboth.regions_eq]
    exact hr
  · rw [← hboth.regions_eq]
    exact List.length_modify _ _ _
  · rw [← hboth.nodes_eq]
    exact List.length_append

theorem Built.addSourceNodes {region : Nat} :
    ∀ (ns : List Source.Node) {g : Graph}, g.Built → region < g.regions.length →
      (ns.foldl (Graph.addSourceNode region) g).Built ∧
        (ns.foldl (Graph.addSourceNode region) g).nodes.length = g.nodes.length + ns.length
  | [], _, h, _ => ⟨h, rfl⟩
  | n :: ns, g, h, hr => by
    obtain ⟨hbuilt, hregions, hnodes⟩ := h.addSourceNode hr n
    obtain ⟨hbuilt', hnodes'⟩ := addSourceNodes ns hbuilt (hregions.symm ▸ hr)
    refine ⟨hbuilt', hnodes'.trans ?_⟩
    rw [hnodes, List.length_cons]
    omega

theorem Built.addSourceRegion {g : Graph} (h : g.Built) (r : Source.Ident × List Source.Node) :
    (g.addSourceRegion r).Built ∧
      (g.addSourceRegion r).nodes.length ≤ g.nodes.length + r.2.length := by
  have hr : g.regions.length < (g.addRegion r.1.name r.1.span).1.regions.length := by
    rw [Graph.addRegion, List.length_append]
    exact Nat.lt_succ_self _
  obtain ⟨hbuilt, hnodes⟩ :=
    Built.addSourceNodes (firstBy (·.name.name) [] r.2) (h.addRegion r.1.name r.1.span) hr
  refine ⟨hbuilt, Nat.le_trans (Nat.le_of_eq hnodes) ?_⟩
  exact Nat.add_le_add_left (firstBy_sublist _ _ _).length_le _

/-! ### Names of regions -/

theorem map_name_modify_regions (rs : List Region) (region n : Nat) :
    (rs.modify region fun r => { r with nodes := r.nodes ++ [n] }).map (·.name) =
      rs.map (·.name) := by
  refine List.ext_getElem? fun i => ?_
  rw [List.getElem?_map, List.getElem?_map, List.getElem?_modify]
  cases rs[i]? with
  | none => rfl
  | some r => by_cases hi : region = i <;> simp [hi]

theorem map_name_regions_addSourceNode (g : Graph) (region : Nat) (n : Source.Node) :
    (g.addSourceNode region n).regions.map (·.name) = g.regions.map (·.name) := by
  have hin := interned_internBuffers (n.inputs.map (·.name)) g
  have hout := interned_internBuffers (n.outputs.map (·.name))
    (g.internBuffers (n.inputs.map (·.name))).1
  rw [← (hin.trans hout).regions_eq]
  exact map_name_modify_regions ..

theorem map_name_regions_addSourceRegion (g : Graph) (r : Source.Ident × List Source.Node) :
    (g.addSourceRegion r).regions.map (·.name) = g.regions.map (·.name) ++ [r.1.name] := by
  have hnodes : ∀ (ns : List Source.Node) (g : Graph) (region : Nat),
      (ns.foldl (addSourceNode region) g).regions.map (·.name) = g.regions.map (·.name) := by
    intro ns
    induction ns with
    | nil => exact fun _ _ => rfl
    | cons n ns ih => exact fun g region => (ih _ region).trans (map_name_regions_addSourceNode ..)
  rw [addSourceRegion, hnodes, addRegion, List.map_append]
  rfl

theorem map_name_regions_addSourceRegions :
    ∀ (rs : List (Source.Ident × List Source.Node)) (g : Graph),
      (rs.foldl addSourceRegion g).regions.map (·.name) =
        g.regions.map (·.name) ++ rs.map (·.1.name)
  | [], g => (List.append_nil _).symm
  | r :: rs, g => by
    rw [List.foldl_cons, map_name_regions_addSourceRegions rs, map_name_regions_addSourceRegion,
      List.append_assoc, List.map_cons, List.singleton_append]

theorem Built.addSourceRegions :
    ∀ (rs : List (Source.Ident × List Source.Node)) {g : Graph}, g.Built →
      (rs.foldl Graph.addSourceRegion g).Built ∧
        (rs.foldl Graph.addSourceRegion g).nodes.length ≤
          g.nodes.length + (rs.flatMap (·.2)).length
  | [], _, h => ⟨h, Nat.le_refl _⟩
  | r :: rs, g, h => by
    obtain ⟨hbuilt, hnodes⟩ := h.addSourceRegion r
    obtain ⟨hbuilt', hnodes'⟩ := addSourceRegions rs hbuilt
    refine ⟨hbuilt', Nat.le_trans hnodes' ?_⟩
    rw [List.flatMap_cons, List.length_append]
    omega

end Dataflow.Graph

theorem built_graphOf (regions : List (Source.Ident × List Source.Node)) :
    (graphOf regions).Built :=
  (Dataflow.Graph.Built.addSourceRegions _ .empty).1

theorem map_name_regions_graphOf (rs : List (Source.Ident × List Source.Node)) :
    (graphOf rs).regions.map (·.name) = (firstBy (·.1.name) [] rs).map (·.1.name) :=
  (Dataflow.Graph.map_name_regions_addSourceRegions _ .empty).trans (List.nil_append _)

theorem length_nodes_graphOf_le (regions : List (Source.Ident × List Source.Node)) :
    (graphOf regions).nodes.length ≤ (regions.flatMap (·.2)).length := by
  have hnodes := (Dataflow.Graph.Built.addSourceRegions (firstBy (·.1.name) [] regions) .empty).2
  have hsub := firstBy_sublist (fun r : Source.Ident × List Source.Node => r.1.name) [] regions
  have hle := (hsub.flatMap (·.2)).length_le
  exact Nat.le_trans hnodes (Nat.le_trans (Nat.le_of_eq (Nat.zero_add _)) hle)

/-! ## Whole programs -/

/-- The design of a program can be banked. -/
theorem Design.bankable_ofProgram {p : Source.Program} (hp : p.Counted) :
    (Design.ofProgram p).Bankable where
  named n hn a ha := by
    obtain ⟨loop, -, id, rfl⟩ := exists_loop_of_mem_nestsOf hn
    exact accesses_lowerBody_array_lt a ha
  counted n hn := by
    obtain ⟨loop, hloop, id, rfl⟩ := exists_loop_of_mem_nestsOf hn
    have hle := length_accesses_lowerBody_le
      (memoriesOf (p.statements.filterMap (·.array?))) loop.2 [(loop.1.var.name, 0)] (id + 1) 1
    exact Int.le_trans (Int.ofNat_le.mpr hle) (hp loop hloop)
  size_pos m hm size hsize := by
    obtain ⟨decl, -, rfl⟩ := exists_decl_of_mem_memoriesOf hm
    obtain ⟨n, -, rfl⟩ := List.mem_map.mp hsize
    exact dimensionSize_pos n
  size_le m hm size hsize := by
    obtain ⟨decl, -, rfl⟩ := exists_decl_of_mem_memoriesOf hm
    obtain ⟨n, -, rfl⟩ := List.mem_map.mp hsize
    exact dimensionSize_le n
  unbanked m hm := by
    obtain ⟨decl, -, rfl⟩ := exists_decl_of_mem_memoriesOf hm
    rfl

/-- Every layout that banking gives to an array of a program is an injective banking of
all of its indices. Each index has a bank and an offset in each dimension, both in
bounds, from which the mode decided last for the array gives back the position; and no
two indices share them. -/
theorem Design.ofProgram_banked_injectively (p : Source.Program) (hp : p.Counted) :
    ∃ banked plan, (Design.ofProgram p).bank? = .ok (banked, plan) ∧
      banked.memories.map (·.shape) = (Design.ofProgram p).memories.map (·.shape) ∧
      ∀ (i : Nat) (m : Memory), banked.memories[i]? = some m →
        m.layout = (plan.final? i).map (·.layout) ∧
        ∀ l, m.layout = some l → ∃ dec, plan.final? i = some dec ∧
          (∀ index, InShape m.shape index →
            ∃ tuple, l.apply index = some tuple ∧ PlacesIndex dec.dims m.shape index tuple) ∧
          ∀ x y, InShape m.shape x → InShape m.shape y → l.apply x = l.apply y → x = y := by
  have h := Design.bankable_ofProgram hp
  refine ⟨(ofProgram p).bank.1, (ofProgram p).bank.2, h.bank?_eq_ok, ?_, fun i m hm => ?_⟩
  · refine List.ext_getElem? fun i => ?_
    rw [List.getElem?_map, List.getElem?_map, h.getElem?_bank, Option.map_map]
    rfl
  · rw [h.getElem?_bank, Option.map_eq_some_iff] at hm
    obtain ⟨m, hm, rfl⟩ := hm
    refine ⟨rfl, fun l hl => ?_⟩
    obtain ⟨dec, hdec, rfl⟩ := Option.map_eq_some_iff.mp hl
    have hfits := h.fits_of_final? hdec hm
    exact ⟨dec, hdec, fun index => hfits.places, fun x y => hfits.apply_inj⟩

/-- A pipelined loop over `i` that reads an array of 8 by 10 at `(i, i)` and at
`(i + 1, i + 3)`. -/
def staircase : Source.Program :=
  let here : Span := ⟨0, 0⟩
  let i : Source.Index := .var ⟨"i", here⟩
  let plus (k : Int64) : Source.Index := .binary .add i (.int ⟨k, here⟩)
  let read (row column : Source.Index) : Source.Access := ⟨.read, ⟨"A", here⟩, [row, column], here⟩
  ⟨[⟨.array ⟨⟨"A", here⟩, [⟨8, here⟩, ⟨10, here⟩], ⟨"f32", here⟩, none⟩, here⟩,
    ⟨.loop ⟨⟨"i", here⟩, 0, 7, none, true, here⟩
      (.access (read i i) (.access (read (plus 1) (plus 3)) .done)), here⟩], here⟩

theorem counted_staircase : staircase.Counted := by
  intro loop hloop
  cases List.mem_singleton.mp hloop
  decide

theorem staircase_banked_injectively :
    staircase.Counted ∧ ∃ banked plan l, (Design.ofProgram staircase).bank? = .ok (banked, plan) ∧
      (plan.final? 0).map (fun dec => dec.dims.map (·.mode)) = some [.cyclic 2, .block 2 5] ∧
      (banked.memories[0]?).bind (·.layout) = some l ∧
      ∀ x y, InShape [8, 10] x → InShape [8, 10] y → l.apply x = l.apply y → x = y := by
  obtain ⟨banked, plan, hok, -, hall⟩ :=
    Design.ofProgram_banked_injectively staircase counted_staircase
  cases hok
  obtain ⟨dec, -, -, hinj⟩ := (hall 0 _ rfl).2 _ rfl
  exact ⟨counted_staircase, _, _, _, rfl, by decide +kernel, rfl, hinj⟩

end Bankflow
