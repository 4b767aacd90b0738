import Bankflow.Proofs.Design.OfProgram
import Bankflow.Proofs.Source.Spans

/-!
# Where findings are

What is found in a program is at one of its tokens, or at an access (`Finding.At`). The
finding of a name that is unknown or used again is at this name (`Issue.subject?`). The same
goes for the spans that the graph of a program keeps (`spansIn_ofProgram`).
-/

namespace Bankflow

open Source hiding Node

variable {ts : List Lexeme}

/-- The name that an issue is about, where the finding is at the name. -/
def Issue.subject? : Issue → Option String
  | unknownArray x | unknownVariable x | duplicateArray x | shadowedVariable x => some x
  | duplicateRegion x | duplicateNode x _ _ => some x
  | _ => none

/-- The finding covers some of the tokens, and only its subject if it has one. -/
structure Finding.At (ts : List Lexeme) (f : Finding) : Prop where
  covered : CoveredBy ts f.span
  subject : ∀ name, f.issue.subject? = some name → (Ident.mk name f.span).lexeme ∈ ts

namespace Finding.At

/-- A finding about a name at that name. -/
theorem ident {issue : Issue} {x : Ident} (hx : x.lexeme ∈ ts)
    (hissue : ∀ name ∈ issue.subject?, name = x.name) : Finding.At ts ⟨issue, x.span⟩ where
  covered := coveredBy_of_mem hx
  subject name hname := by
    rw [hissue name hname]
    exact hx

/-- A finding that is not about a name. -/
theorem other {issue : Issue} {span : Span} (hspan : CoveredBy ts span)
    (hissue : issue.subject? = none) : Finding.At ts ⟨issue, span⟩ where
  covered := hspan
  subject name hname := by
    rw [hissue] at hname
    cases hname

end Finding.At

/-! ## Findings -/

/-- All findings are at these tokens. -/
def AllAt (ts : List Lexeme) (fs : List Finding) : Prop := ∀ f ∈ fs, f.At ts

namespace AllAt

variable {f : Finding} {fs gs : List Finding}

theorem nil : AllAt ts [] := List.forall_mem_nil _

theorem cons (hf : f.At ts) (hfs : AllAt ts fs) : AllAt ts (f :: fs) :=
  List.forall_mem_cons.mpr ⟨hf, hfs⟩

theorem append (hf : AllAt ts fs) (hg : AllAt ts gs) : AllAt ts (fs ++ gs) :=
  List.forall_mem_append.mpr ⟨hf, hg⟩

end AllAt

open AllAt

theorem allAt_shapeFindings {d : ArrayDecl} (hd : d.WrittenIn ts) : AllAt ts (shapeFindings d) := by
  intro f hf
  obtain ⟨n, hn, hf⟩ := List.mem_filterMap.mp hf
  split at hf
  · cases hf
    exact .other (coveredBy_of_mem (hd.shape n hn)) rfl
  · cases hf

theorem allAt_spaceFindings {d : ArrayDecl} (hd : d.WrittenIn ts) : AllAt ts (spaceFindings d) := by
  unfold spaceFindings
  split
  · next n hn =>
    split
    · exact nil
    · exact cons (.other (coveredBy_of_mem (hd.space n hn)) rfl) nil
  · exact nil

theorem allAt_arrayFindings : ∀ {ds : List ArrayDecl} {seen : List String},
    (∀ d ∈ ds, d.WrittenIn ts) → AllAt ts (arrayFindings seen ds)
  | [], _, _ => nil
  | d :: ds, seen, h => by
    obtain ⟨hd, hds⟩ := List.forall_mem_cons.mp h
    rw [arrayFindings]
    split
    · exact cons (.ident hd.name (by simp [Issue.subject?])) (allAt_arrayFindings hds)
    · exact ((allAt_shapeFindings hd).append (allAt_spaceFindings hd)).append
        (allAt_arrayFindings hds)

theorem allAt_settingFindings {name : Ident} {value : SettingValue} (hname : name.lexeme ∈ ts)
    (hvalue : CoveredBy ts value.span) : AllAt ts (settingFindings name value) := by
  unfold settingFindings
  split
  · split
    · exact nil
    · exact cons (.other hvalue rfl) nil
  · exact cons (.other (coveredBy_of_mem hname) rfl) nil

theorem lexeme_mem_of_mem_unknowns {scope : Scope} {x : Ident} :
    ∀ {e : Index}, e.WrittenIn ts → x ∈ e.unknowns scope → x.lexeme ∈ ts
  | .int _, _, hx => absurd hx List.not_mem_nil
  | .var y, h, hx => by
    rw [Index.unknowns] at hx
    split at hx
    · exact absurd hx List.not_mem_nil
    · rw [List.mem_singleton.mp hx]
      exact h
  | .neg e _, h, hx => lexeme_mem_of_mem_unknowns (e := e) h hx
  | .binary _ l r, h, hx => by
    rcases List.mem_append.mp hx with hx | hx
    · exact lexeme_mem_of_mem_unknowns h.1 hx
    · exact lexeme_mem_of_mem_unknowns h.2 hx

theorem lexeme_mem_of_mem_firstUnknowns {scope : Scope} {x : Ident} :
    ∀ {es : List Index}, (∀ e ∈ es, e.WrittenIn ts) → x ∈ firstUnknowns scope es → x.lexeme ∈ ts
  | [], _, hx => absurd hx List.not_mem_nil
  | e :: es, h, hx => by
    obtain ⟨he, hes⟩ := List.forall_mem_cons.mp h
    rw [firstUnknowns] at hx
    split at hx
    · exact lexeme_mem_of_mem_firstUnknowns hes hx
    · exact lexeme_mem_of_mem_unknowns he hx

theorem allAt_accessFindings (memories : List Memory) (scope : Scope) {a : Source.Access}
    (ha : a.WrittenIn ts) : AllAt ts (accessFindings memories scope a) := by
  unfold accessFindings
  split
  · exact cons (.ident ha.array (by simp [Issue.subject?])) nil
  · split
    · refine List.forall_mem_map.mpr fun x hx => ?_
      exact .ident (lexeme_mem_of_mem_firstUnknowns ha.indices hx) (by simp [Issue.subject?])
    · exact cons (.other ha.span rfl) nil

theorem allAt_headFindings (scope : Scope) {h : Source.LoopHead} (hh : h.WrittenIn ts) :
    AllAt ts (headFindings scope h) := by
  refine append ?_ ?_
  · unfold shadowFindings
    split
    · exact cons (.ident hh.var (by simp [Issue.subject?])) nil
    · exact nil
  · cases hstep : h.step with
    | none => exact nil
    | some n =>
      unfold stepFindings
      dsimp only
      split
      · exact cons (.other (coveredBy_of_mem (hh.step n hstep)) rfl) nil
      · exact nil

theorem allAt_bodyFindings (memories : List Memory) :
    ∀ {body : Source.LoopBody} {scope : Scope}, BodyWrittenIn ts body →
      AllAt ts (bodyFindings memories scope body)
  | .done, _, _ => nil
  | .access _ _, scope, h =>
    (allAt_accessFindings memories scope h.1).append (allAt_bodyFindings memories h.2)
  | .loop _ _ _, scope, h =>
    ((allAt_headFindings scope h.1).append (allAt_bodyFindings memories h.2.1)).append
      (allAt_bodyFindings memories h.2.2)

theorem allAt_nodeFindings (region : String) :
    ∀ {ns : List Source.Node} {seen : List (String × Nat)}, (∀ n ∈ ns, n.WrittenIn ts) →
      AllAt ts (nodeFindings region seen ns)
  | [], _, _ => nil
  | n :: ns, seen, h => by
    obtain ⟨hn, hns⟩ := List.forall_mem_cons.mp h
    rw [nodeFindings]
    split
    · exact cons (.ident hn.name (by simp [Issue.subject?])) (allAt_nodeFindings region hns)
    · exact allAt_nodeFindings region hns

theorem allAt_statementFindings (memories : List Memory) :
    ∀ {ss : List Statement} {regions : List String}, (∀ s ∈ ss, s.decl.WrittenIn ts) →
      AllAt ts (statementFindings memories regions ss)
  | [], _, _ => nil
  | ⟨decl, span⟩ :: ss, regions, h => by
    obtain ⟨hs, hss⟩ := List.forall_mem_cons.mp h
    cases decl with
    | array _ =>
      rw [statementFindings]
      exact allAt_statementFindings memories hss
    | setting name value =>
      exact (allAt_settingFindings hs.1 hs.2).append (allAt_statementFindings memories hss)
    | loop head body =>
      exact ((allAt_headFindings [] hs.1).append (allAt_bodyFindings memories hs.2)).append
        (allAt_statementFindings memories hss)
    | region name nodes =>
      simp only [statementFindings]
      split
      · exact cons (.ident hs.1 (by simp [Issue.subject?])) (allAt_statementFindings memories hss)
      · exact (allAt_nodeFindings name.name hs.2).append (allAt_statementFindings memories hss)

theorem writtenIn_of_mem_arrays {ss : List Statement} (h : ∀ s ∈ ss, s.decl.WrittenIn ts) :
    ∀ d ∈ ss.filterMap (·.array?), d.WrittenIn ts := by
  intro d hd
  obtain ⟨⟨decl, span⟩, hs, hd⟩ := List.mem_filterMap.mp hd
  have hs := h _ hs
  cases decl <;> cases hd
  exact hs

/-- What is found in a program is at its tokens. -/
theorem allAt_findings {p : Program} (h : ∀ s ∈ p.statements, s.decl.WrittenIn ts) :
    AllAt ts (findings p) :=
  (allAt_arrayFindings (writtenIn_of_mem_arrays h)).append (allAt_statementFindings _ h)

/-! ## Graphs -/

/-- The spans of all nodes and regions have the property `P`. -/
structure Dataflow.Graph.SpansIn (P : Span → Prop) (g : Dataflow.Graph) : Prop where
  nodes : ∀ x ∈ g.nodes, P x.span
  regions : ∀ r ∈ g.regions, P r.span

namespace Dataflow.Graph.SpansIn

variable {P : Span → Prop} {g : Dataflow.Graph}

theorem addNode (h : g.SpansIn P) (region : Nat) (name : String) (inputs outputs : List Nat)
    {span : Span} (hspan : P span) : (g.addNode region name inputs outputs span).1.SpansIn P where
  nodes := List.forall_mem_append.mpr ⟨h.nodes, List.forall_mem_singleton.mpr hspan⟩
  regions r hr := by
    obtain ⟨i, hi⟩ := List.mem_iff_getElem?.mp hr
    rw [Graph.addNode, List.getElem?_modify, Option.map_eq_map, Option.map_eq_some_iff] at hi
    obtain ⟨old, hold, rfl⟩ := hi
    have hold := h.regions old (List.mem_of_getElem? hold)
    split <;> exact hold

theorem addSourceNode (h : g.SpansIn P) (region : Nat) {n : Source.Node} (hn : P n.span) :
    (Graph.addSourceNode region g n).SpansIn P := by
  have hin := interned_internBuffers (n.inputs.map (·.name)) g
  have hout := interned_internBuffers (n.outputs.map (·.name))
    (g.internBuffers (n.inputs.map (·.name))).1
  refine addNode ⟨?_, ?_⟩ region n.name.name _ _ hn
  · rw [hout.nodes_eq, hin.nodes_eq]
    exact h.nodes
  · rw [hout.regions_eq, hin.regions_eq]
    exact h.regions

theorem addSourceRegion (h : g.SpansIn P) {r : Ident × List Source.Node} (hname : P r.1.span)
    (hnodes : ∀ n ∈ r.2, P n.span) : (g.addSourceRegion r).SpansIn P := by
  have hregion : (g.addRegion r.1.name r.1.span).1.SpansIn P :=
    ⟨h.nodes, List.forall_mem_append.mpr ⟨h.regions, List.forall_mem_singleton.mpr hname⟩⟩
  exact List.foldlRecOn _ _ hregion fun g hg n hn =>
    hg.addSourceNode _ (hnodes n ((firstBy_sublist _ _ _).subset hn))

end Dataflow.Graph.SpansIn

/-- Nodes and regions of a graph keep the spans that they have in the program. -/
theorem spansIn_ofProgram {p : Program} (h : ∀ s ∈ p.statements, s.decl.WrittenIn ts) :
    (Design.ofProgram p).graph.SpansIn (CoveredBy ts) := by
  have hempty : Dataflow.Graph.empty.SpansIn (CoveredBy ts) :=
    ⟨List.forall_mem_nil _, List.forall_mem_nil _⟩
  refine List.foldlRecOn _ _ hempty fun g hg r hr => ?_
  obtain ⟨⟨decl, span⟩, hs, hr⟩ := List.mem_filterMap.mp ((firstBy_sublist _ _ _).subset hr)
  have hs := h _ hs
  cases decl <;> cases hr
  exact hg.addSourceRegion (coveredBy_of_mem hs.1) fun n hn => (hs.2 n hn).span

end Bankflow
