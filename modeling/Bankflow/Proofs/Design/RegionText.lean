import Bankflow.Proofs.Design.WellFormed
import Bankflow.Proofs.Source.Legal
import Bankflow.Proofs.Source.Printing

/-!
# The text of regions reads back

A graph is built from the names of its regions, nodes and buffers (`RegionNames`): up to
spans it depends on nothing else (`withoutSpans_graphOf`), and it can be written from the
names alone (`flatMap_regionLines_graphOf`). These lines are regions of the source language
that have the same names (`RegionNames.prints`).
-/

namespace Bankflow

open Source hiding Node

/-- A node by the names of its buffers. -/
structure NodeNames where
  name : String
  inputs : List String
  outputs : List String

/-- A region by the names of its nodes. -/
structure RegionNames where
  name : String
  nodes : List NodeNames

def NodeNames.of (n : Source.Node) : NodeNames :=
  ⟨n.name.name, n.inputs.map (·.name), n.outputs.map (·.name)⟩

def RegionNames.of (r : Ident × List Source.Node) : RegionNames := ⟨r.1.name, r.2.map .of⟩

/-- The names of a region and of those nodes that are kept. -/
def RegionNames.kept (r : Ident × List Source.Node) : RegionNames :=
  .of (r.1, firstBy (·.name.name) [] r.2)

theorem RegionNames.kept_eq_of {r : Ident × List Source.Node}
    (h : (r.2.map (·.name.name)).Nodup) : kept r = of r := by
  rw [kept, firstBy_eq_self (.of_nodup h)]

/-! ## Spans -/

namespace Dataflow

/-- The graph with no spans that differ. -/
def Graph.withoutSpans (g : Graph) : Graph :=
  { g with
    nodes := g.nodes.map fun n => { n with span := ⟨0, 0⟩ }
    regions := g.regions.map fun r => { r with span := ⟨0, 0⟩ } }

end Dataflow

/-- A node of these names at no place in particular. -/
def NodeNames.node (n : NodeNames) : Source.Node :=
  ⟨⟨n.name, ⟨0, 0⟩⟩, n.inputs.map (⟨·, ⟨0, 0⟩⟩), n.outputs.map (⟨·, ⟨0, 0⟩⟩), ⟨0, 0⟩⟩

/-- A region of these names at no place in particular. -/
def RegionNames.region (r : RegionNames) : Ident × List Source.Node :=
  (⟨r.name, ⟨0, 0⟩⟩, r.nodes.map (·.node))

theorem firstBy_map {α β : Type} (key : β → String) (f : α → β) :
    ∀ (l : List α) (seen : List String),
      firstBy key seen (l.map f) = (firstBy (fun a => key (f a)) seen l).map f
  | [], _ => rfl
  | a :: l, seen => by
    rw [List.map_cons, firstBy, firstBy]
    split
    · exact firstBy_map key f l seen
    · rw [firstBy_map key f l, List.map_cons]

namespace Dataflow.Graph

theorem internBuffers_withoutSpans :
    ∀ (names : List String) (g : Graph), g.withoutSpans.internBuffers names =
      ((g.internBuffers names).1.withoutSpans, (g.internBuffers names).2)
  | [], _ => rfl
  | name :: names, g => by
    have hone : g.withoutSpans.internBuffer name =
        ((g.internBuffer name).1.withoutSpans, (g.internBuffer name).2) := by
      have hfind : g.withoutSpans.bufferNamed? name = g.bufferNamed? name := rfl
      unfold internBuffer
      rw [hfind]
      cases g.bufferNamed? name <;> rfl
    simp only [internBuffers, hone, internBuffers_withoutSpans names]

theorem map_modify {α β : Type} {g : α → β} {f : α → α} {f' : β → β} (h : ∀ a, g (f a) = f' (g a)) :
    ∀ (i : Nat) (l : List α), (l.modify i f).map g = (l.map g).modify i f'
  | _, [] => by simp
  | 0, a :: l => by simp [h]
  | i + 1, a :: l => by simp [map_modify h i l]

theorem addNode_withoutSpans (g : Graph) (region : Nat) (name : String) (inputs outputs : List Nat)
    (span : Span) : (g.withoutSpans.addNode region name inputs outputs ⟨0, 0⟩).1 =
      (g.addNode region name inputs outputs span).1.withoutSpans := by
  simp only [addNode, withoutSpans, List.map_append, List.map_cons, List.map_nil, List.length_map,
    Graph.mk.injEq, true_and]
  symm
  apply map_modify
  exact fun _ => rfl

theorem addSourceNode_withoutSpans (region : Nat) (g : Graph) (n : Source.Node) :
    addSourceNode region g.withoutSpans (NodeNames.of n).node =
      (addSourceNode region g n).withoutSpans := by
  have hnames : ∀ xs : List Ident,
      ((xs.map (·.name)).map fun x => (⟨x, ⟨0, 0⟩⟩ : Ident)).map (·.name) = xs.map (·.name) := by
    intro xs
    simp
  simp only [addSourceNode, NodeNames.of, NodeNames.node, hnames, internBuffers_withoutSpans]
  exact addNode_withoutSpans _ _ _ _ _ _

theorem foldl_addSourceNode_withoutSpans (region : Nat) :
    ∀ (ns : List Source.Node) (g : Graph),
      (ns.map fun n => (NodeNames.of n).node).foldl (addSourceNode region) g.withoutSpans =
        (ns.foldl (addSourceNode region) g).withoutSpans
  | [], _ => rfl
  | n :: ns, g => by
    rw [List.map_cons, List.foldl_cons, addSourceNode_withoutSpans,
      foldl_addSourceNode_withoutSpans region ns, List.foldl_cons]

theorem addSourceRegion_withoutSpans (g : Graph) (r : Ident × List Source.Node) :
    g.withoutSpans.addSourceRegion (RegionNames.of r).region =
      (g.addSourceRegion r).withoutSpans := by
  have hregion : g.withoutSpans.addRegion r.1.name ⟨0, 0⟩ =
      ((g.addRegion r.1.name r.1.span).1.withoutSpans, g.regions.length) := by
    simp [addRegion, withoutSpans]
  have hnodes : firstBy (·.name.name) [] ((r.2.map NodeNames.of).map (·.node)) =
      (firstBy (·.name.name) [] r.2).map fun n => (NodeNames.of n).node := by
    rw [List.map_map]
    exact firstBy_map _ _ r.2 []
  simp only [addSourceRegion, RegionNames.of, RegionNames.region, hregion, hnodes]
  exact foldl_addSourceNode_withoutSpans _ _ _

end Dataflow.Graph

/-- Up to spans, a graph depends only on names. -/
theorem withoutSpans_graphOf (rs : List (Ident × List Source.Node)) :
    (graphOf rs).withoutSpans = graphOf ((rs.map RegionNames.of).map (·.region)) := by
  have hfold : ∀ (l : List (Ident × List Source.Node)) (g : Dataflow.Graph),
      (l.foldl Dataflow.Graph.addSourceRegion g).withoutSpans =
        (l.map fun r => (RegionNames.of r).region).foldl Dataflow.Graph.addSourceRegion
          g.withoutSpans := by
    intro l
    induction l with
    | nil => exact fun _ => rfl
    | cons r l ih =>
      intro g
      rw [List.foldl_cons, ih, List.map_cons, List.foldl_cons,
        Dataflow.Graph.addSourceRegion_withoutSpans]
  have hregions : firstBy (·.1.name) [] ((rs.map RegionNames.of).map (·.region)) =
      (firstBy (·.1.name) [] rs).map fun r => (RegionNames.of r).region := by
    rw [List.map_map]
    exact firstBy_map _ _ rs []
  rw [graphOf, hfold, graphOf, hregions]
  rfl

/-! ## Lines -/

def bufferNames (names : List String) : String := "(" ++ ", ".intercalate names ++ ")"

def NodeNames.line (n : NodeNames) : String :=
  "  node " ++ n.name ++ bufferNames n.inputs ++
    if n.outputs.isEmpty then "" else " -> " ++ bufferNames n.outputs

def RegionNames.lines (r : RegionNames) : List String :=
  ("region " ++ r.name ++ " \x7b") :: r.nodes.map (·.line) ++ ["\x7d"]

namespace Dataflow.Graph

/-- The buffers of these numbers have these names. -/
def BuffersNamed (g : Graph) (bs : List Nat) (names : List String) : Prop :=
  List.Forall₂ (fun b name => (g.buffers.map (·.name))[b]? = some name) bs names

/-- Node `id` has this name and buffers of these names, and no level. -/
structure NodeNamed (g : Graph) (id : Nat) (n : NodeNames) : Prop where
  node : ∃ x, g.nodes[id]? = some x ∧ x.name = n.name ∧ x.level = none ∧
    g.BuffersNamed x.inputs n.inputs ∧ g.BuffersNamed x.outputs n.outputs

/-- The region has this name and nodes of these names, and it is not known to be legal. -/
structure RegionNamed (g : Graph) (r : Region) (n : RegionNames) : Prop where
  name_eq : r.name = n.name
  legal_eq : r.legal = false
  nodes : List.Forall₂ g.NodeNamed r.nodes n.nodes

/-- Graph `g'` has the nodes of `g` and the names of its buffers, and perhaps more. -/
structure Extends (g g' : Graph) : Prop where
  nodes : g.nodes <+: g'.nodes
  buffers : g.buffers.map (·.name) <+: g'.buffers.map (·.name)

variable {g g' : Graph}

theorem Extends.refl (g : Graph) : g.Extends g := ⟨List.prefix_rfl, List.prefix_rfl⟩

theorem Extends.trans {g'' : Graph} (h : g.Extends g') (h' : g'.Extends g'') : g.Extends g'' :=
  ⟨h.nodes.trans h'.nodes, h.buffers.trans h'.buffers⟩

theorem getElem?_of_prefix {α : Type} {l l' : List α} {i : Nat} {a : α} (h : l <+: l')
    (ha : l[i]? = some a) : l'[i]? = some a := by
  obtain ⟨t, rfl⟩ := h
  rw [List.getElem?_append_left (List.getElem?_eq_some_iff.mp ha).1, ha]

theorem BuffersNamed.mono {bs : List Nat} {names : List String} (h : g.BuffersNamed bs names)
    (hg : g.Extends g') : g'.BuffersNamed bs names :=
  List.Forall₂.imp (fun _ _ => getElem?_of_prefix hg.buffers) h

theorem NodeNamed.mono {id : Nat} {n : NodeNames} (h : g.NodeNamed id n) (hg : g.Extends g') :
    g'.NodeNamed id n := by
  obtain ⟨x, hx, hname, hlevel, hin, hout⟩ := h.node
  exact ⟨x, getElem?_of_prefix hg.nodes hx, hname, hlevel, hin.mono hg, hout.mono hg⟩

theorem RegionNamed.mono {r : Region} {n : RegionNames} (h : g.RegionNamed r n)
    (hg : g.Extends g') : g'.RegionNamed r n :=
  ⟨h.name_eq, h.legal_eq, h.nodes.imp fun _ _ hn => hn.mono hg⟩

/-! ### Building -/

theorem internBuffer_named (g : Graph) (name : String) :
    g.Extends (g.internBuffer name).1 ∧
      (g.internBuffer name).1.BuffersNamed [(g.internBuffer name).2] [name] := by
  unfold internBuffer
  split
  · next b hb =>
    refine ⟨.refl g, .cons ?_ .nil⟩
    obtain ⟨hlt, hname, -⟩ := List.findIdx?_eq_some_iff_getElem.mp hb
    rw [List.getElem?_map, List.getElem?_eq_getElem hlt, Option.map_some]
    exact congrArg some (of_decide_eq_true hname)
  · refine ⟨⟨List.prefix_rfl, ?_⟩, .cons ?_ .nil⟩
    · exact (List.prefix_append _ _).map _
    · simp

theorem internBuffers_named :
    ∀ (names : List String) (g : Graph),
      g.Extends (g.internBuffers names).1 ∧
        (g.internBuffers names).1.BuffersNamed (g.internBuffers names).2 names
  | [], g => ⟨.refl g, .nil⟩
  | name :: names, g => by
    obtain ⟨hone, hname⟩ := internBuffer_named g name
    obtain ⟨hmore, hnames⟩ := internBuffers_named names (g.internBuffer name).1
    have hfirst := hname.mono hmore
    exact ⟨hone.trans hmore, .cons (List.forall₂_cons.mp hfirst).1 hnames⟩

theorem extends_addNode (g : Graph) (region : Nat) (name : String) (inputs outputs : List Nat)
    (span : Span) : g.Extends (g.addNode region name inputs outputs span).1 :=
  ⟨List.prefix_append _ _, map_name_addNode ▸ List.prefix_rfl⟩

/-- The regions before the last one have these names, and the last one has these nodes so
far. -/
structure Open (g : Graph) (done : List RegionNames) (last : RegionNames) : Prop where
  regions : ∃ rs r, g.regions = rs ++ [r] ∧ List.Forall₂ g.RegionNamed rs done ∧
    g.RegionNamed r last

theorem modify_length_append {α : Type} (f : α → α) (a : α) :
    ∀ l : List α, (l ++ [a]).modify l.length f = l ++ [f a]
  | [] => rfl
  | b :: l => by simp [modify_length_append f a l]

/-- A node of a program is added once its buffers are there. -/
theorem exists_addSourceNode_eq (region : Nat) (g : Graph) (n : Source.Node) :
    ∃ g' inputs outputs,
      addSourceNode region g n = (g'.addNode region n.name.name inputs outputs n.span).1 ∧
        g.Extends g' ∧ g'.regions = g.regions ∧
          g'.BuffersNamed inputs (NodeNames.of n).inputs ∧
            g'.BuffersNamed outputs (NodeNames.of n).outputs := by
  obtain ⟨hext, hinputs⟩ := internBuffers_named (n.inputs.map (·.name)) g
  have hin := interned_internBuffers (n.inputs.map (·.name)) g
  generalize hg' : g.internBuffers (n.inputs.map (·.name)) = p at hext hinputs hin
  obtain ⟨hext', houtputs⟩ := internBuffers_named (n.outputs.map (·.name)) p.1
  have hout := interned_internBuffers (n.outputs.map (·.name)) p.1
  exact ⟨_, _, _, by rw [addSourceNode, hg'], hext.trans hext',
    hout.regions_eq.trans hin.regions_eq, hinputs.mono hext', houtputs⟩

theorem Open.addSourceNode {done : List RegionNames} {last : RegionNames} (h : g.Open done last)
    (n : Source.Node) : (addSourceNode done.length g n).Open done
      { last with nodes := last.nodes ++ [.of n] } := by
  obtain ⟨rs, r, hregions, hdone, hlast⟩ := h.regions
  obtain ⟨g', inputs, outputs, heq, hext, hregions', hinputs, houtputs⟩ :=
    exists_addSourceNode_eq done.length g n
  have hadd := extends_addNode g' done.length n.name.name inputs outputs n.span
  have hnode : (g'.addNode done.length n.name.name inputs outputs n.span).1.NodeNamed
      g'.nodes.length (.of n) :=
    ⟨_, List.getElem?_concat_length, rfl, rfl, hinputs.mono hadd, houtputs.mono hadd⟩
  rw [heq]
  refine ⟨rs, { r with nodes := r.nodes ++ [g'.nodes.length] }, ?_,
    hdone.imp fun _ _ hr => hr.mono (hext.trans hadd), ?_⟩
  · show List.modify _ _ _ = _
    rw [hregions', hregions, ← hdone.length_eq, modify_length_append]
  · have hlast' := hlast.mono (hext.trans hadd)
    exact ⟨hlast'.name_eq, hlast'.legal_eq, List.rel_append hlast'.nodes (.cons hnode .nil)⟩

theorem Open.foldl_addSourceNode {done : List RegionNames} :
    ∀ (ns : List Source.Node) {last : RegionNames} {g : Graph}, g.Open done last →
      (ns.foldl (Graph.addSourceNode done.length) g).Open done
        { last with nodes := last.nodes ++ ns.map .of }
  | [], _, _, h => by simpa using h
  | n :: ns, _, _, h => by
    simpa using foldl_addSourceNode ns (h.addSourceNode n)

/-- The regions of the graph have these names. -/
def Named (g : Graph) (rs : List RegionNames) : Prop := List.Forall₂ g.RegionNamed g.regions rs

theorem Named.addSourceRegion {done : List RegionNames} (h : g.Named done)
    (r : Ident × List Source.Node) : (g.addSourceRegion r).Named (done ++ [.kept r]) := by
  have hext : g.Extends (g.addRegion r.1.name r.1.span).1 := ⟨List.prefix_rfl, List.prefix_rfl⟩
  have hopen : (g.addRegion r.1.name r.1.span).1.Open done ⟨r.1.name, []⟩ :=
    ⟨g.regions, _, rfl, h.imp fun _ _ hn => hn.mono hext, rfl, rfl, .nil⟩
  have hlength : (g.addRegion r.1.name r.1.span).2 = done.length := h.length_eq
  obtain ⟨rs, last, hregions, hdone, hlast⟩ :=
    (hopen.foldl_addSourceNode (firstBy (·.name.name) [] r.2)).regions
  simp only [Graph.addSourceRegion, hlength]
  rw [Named, hregions]
  exact List.rel_append hdone (.cons hlast .nil)

theorem Named.foldl_addSourceRegion :
    ∀ {rs : List (Ident × List Source.Node)} {done : List RegionNames} {g : Graph},
      g.Named done → (rs.foldl Graph.addSourceRegion g).Named (done ++ rs.map .kept)
  | [], _, _, h => by simpa using h
  | r :: rs, _, _, h => by
    simpa using (h.addSourceRegion r).foldl_addSourceRegion

/-! ### Writing -/

theorem BuffersNamed.bufferList_eq {bs : List Nat} {names : List String}
    (h : g.BuffersNamed bs names) : g.bufferList bs = bufferNames names := by
  have hnames : names.map id = bs.map g.bufferName := by
    refine map_eq_map_of_forall₂ (List.Forall₂.imp (fun b name hb => ?_) h)
    obtain ⟨buffer, hbuffer, rfl⟩ := Option.map_eq_some_iff.mp (List.getElem?_map ▸ hb)
    rw [bufferName, hbuffer, id]
  rw [bufferList, bufferNames, ← hnames, List.map_id]

theorem NodeNamed.line_eq {id : Nat} {n : NodeNames} (h : g.NodeNamed id n) :
    (g.nodes[id]?).map g.nodeLine = some n.line := by
  obtain ⟨x, hx, hname, hlevel, hin, hout⟩ := h.node
  have hempty : x.outputs.isEmpty = n.outputs.isEmpty := by
    rw [Bool.eq_iff_iff, List.isEmpty_iff_length_eq_zero, List.isEmpty_iff_length_eq_zero,
      List.Forall₂.length_eq hout]
  rw [hx, Option.map_some, nodeLine, NodeNames.line]
  simp only [hname, hlevel, hempty, hin.bufferList_eq, hout.bufferList_eq, String.append_empty]

theorem RegionNamed.lines_eq {r : Region} {n : RegionNames} (h : g.RegionNamed r n) :
    g.regionLines r = n.lines := by
  have hlines : n.nodes.map (fun n => some n.line) =
      r.nodes.map fun id => (g.nodes[id]?).map g.nodeLine :=
    map_eq_map_of_forall₂ (h.nodes.imp fun _ _ hn => hn.line_eq.symm)
  have hnodes : (r.nodes.filterMap (g.nodes[·]?)).map g.nodeLine = n.nodes.map (·.line) := by
    rw [List.map_filterMap, ← List.filterMap_eq_map]
    simpa [List.filterMap_map] using congrArg (List.filterMap id) hlines.symm
  simp only [regionLines, RegionNames.lines, h.name_eq, h.legal_eq, hnodes, Bool.false_eq_true,
    if_false, String.append_empty]

end Dataflow.Graph

/-- A graph has the names of the regions and nodes that are kept. -/
theorem named_graphOf (rs : List (Ident × List Source.Node)) :
    (graphOf rs).Named ((firstBy (·.1.name) [] rs).map .kept) := by
  have hempty : Dataflow.Graph.empty.Named [] := .nil
  exact hempty.foldl_addSourceRegion

/-- A graph is written from its names. -/
theorem flatMap_regionLines_graphOf {rs : List (Ident × List Source.Node)}
    (hrs : (rs.map (·.1.name)).Nodup) (hnodes : ∀ r ∈ rs, (r.2.map (·.name.name)).Nodup) :
    (graphOf rs).regions.flatMap (graphOf rs).regionLines =
      (rs.map RegionNames.of).flatMap (·.lines) := by
  have hnamed := named_graphOf rs
  rw [firstBy_eq_self (.of_nodup hrs),
    List.map_congr_left fun r hr => RegionNames.kept_eq_of (hnodes r hr)] at hnamed
  rw [List.flatMap_def, List.flatMap_def]
  exact congrArg List.flatten
    (map_eq_map_of_forall₂ (List.Forall₂.imp (fun _ _ hr => hr.lines_eq.symm) hnamed)).symm

/-! ## Reading -/

structure NodeNames.IsLegal (n : NodeNames) : Prop where
  name : IsName n.name
  inputs : ∀ b ∈ n.inputs, IsName b
  outputs : ∀ b ∈ n.outputs, IsName b

structure RegionNames.IsLegal (r : RegionNames) : Prop where
  name : IsName r.name
  nodes : ∀ n ∈ r.nodes, n.IsLegal

theorem apart_bufferNames (names : List String) (rest : String) :
    Apart (bufferNames names ++ rest) := by
  simp only [bufferNames, String.append_assoc]
  exact Apart.append (by decide) (by decide)

/-- The outputs of a node, left out if there are none. -/
theorem prints_outputs {outputs : List String} (h : ∀ b ∈ outputs, IsName b) :
    Prints (if outputs.isEmpty then "" else " -> " ++ bufferNames outputs)
      (fun o : Option (Span × Phrase.Names) =>
        o.elim [] fun (span, l) => Symbol.arrow.lexeme span :: l.tokens)
      fun o => (o.elim [] fun (_, l) => l.tree).map (·.name) = outputs := by
  intro rest R hrest hR
  cases outputs with
  | nil => exact hR none rfl
  | cons b outputs =>
    simp only [List.isEmpty_cons, Bool.false_eq_true, if_false, String.append_assoc]
    refine Lexes.spacedMark .arrow 1 1 rfl nofun fun arrow => ?_
    exact Phrase.Names.prints h _ _ hrest fun l hl => hR (some (arrow, l)) hl

theorem apart_outputs (outputs : List String) {rest : String} (h : Apart rest) :
    Apart ((if outputs.isEmpty then "" else " -> " ++ bufferNames outputs) ++ rest) := by
  cases outputs with
  | nil => exact h
  | cons b outputs =>
    simp only [List.isEmpty_cons, Bool.false_eq_true, if_false, String.append_assoc]
    exact Apart.append (by decide) (by decide)

/-- The line of a node is a node with its names. -/
theorem NodeNames.prints {n : NodeNames} (h : n.IsLegal) :
    Prints n.line Phrase.Node.tokens fun p => NodeNames.of p.tree = n := by
  intro rest R hrest hR
  simp only [line, String.append_assoc]
  refine Lexes.spacedKeyword .node 2 1 rfl nofun fun keyword => ?_
  refine Lexes.name h.name (apart_bufferNames _ _) fun x => ?_
  refine Phrase.Names.prints h.inputs _ _ (apart_outputs _ hrest) fun ins hins => ?_
  refine prints_outputs h.outputs _ _ hrest fun outs houts => ?_
  have hnode := hR ⟨keyword, ⟨n.name, x⟩, ins, outs⟩
    (congrArg₂ (NodeNames.mk n.name) hins houts)
  simpa only [Phrase.Node.tokens, List.cons_append, List.append_assoc] using hnode

theorem NodeNames.isLine_line (n : NodeNames) : IsLine n.line := by
  simp only [line, String.append_assoc]
  exact IsLine.append (by decide) _

/-- The lines of a region are a region with its names. -/
theorem RegionNames.prints {r : RegionNames} (h : r.IsLegal) :
    PrintsLines r.lines (ended Phrase.Region.tokens) fun p =>
      RegionNames.of (p.1.name, p.1.nodes.tree Phrase.Node.tree) = r := by
  have hhead : Prints ("region " ++ r.name ++ " \x7b")
      (fun p : Span × Ident × Span =>
        [Keyword.region.lexeme p.1, p.2.1.lexeme, Symbol.lbrace.lexeme p.2.2])
      fun p => p.2.1.name = r.name := by
    intro rest R _ hR
    simp only [String.append_assoc]
    refine Lexes.spacedKeyword .region 0 1 rfl nofun fun keyword => ?_
    refine Lexes.name h.name (Apart.append (by decide) (by decide)) fun x => ?_
    exact Lexes.spacedMark .lbrace 1 0 rfl nofun fun left => hR (keyword, ⟨r.name, x⟩, left) rfl
  have hopen := PrintsLines.line (IsLine.append (IsLine.append (by decide) _) _) hhead
  have hnodes : PrintsLines (r.nodes.flatMap fun n => [n.line])
      (List.flatMap (ended Phrase.Node.tokens))
      fun l => List.Forall₂ (fun n p => NodeNames.of p.tree = n) r.nodes (l.map (·.1)) :=
    PrintsLines.items fun n hn => PrintsLines.line (n.isLine_line) (NodeNames.prints (h.nodes n hn))
  have hclose := PrintsLines.line (by decide) (prints_mark .rbrace (by decide))
  rw [lines, List.map_eq_flatMap]
  refine ((hopen.append hnodes).append hclose).map
    (fun x => (⟨x.1.1.1.1, x.1.1.1.2.1, x.1.1.1.2.2, [x.1.1.2], .ofList x.1.2, x.2.1⟩, x.2.2))
    (fun x => ?_) fun x ⟨⟨hname, hnodes⟩, _⟩ => ?_
  · simp [ended, Phrase.Region.tokens, Phrase.Lines.tokens_ofList]
  · have hof : (x.1.2.map (·.1)).map (fun p => NodeNames.of p.tree) = r.nodes.map id :=
      map_eq_map_of_forall₂ hnodes
    rw [List.map_id, List.map_map] at hof
    simp only [RegionNames.of, Phrase.Lines.tree_ofList, List.map_map]
    exact congrArg₂ RegionNames.mk hname hof

end Bankflow
