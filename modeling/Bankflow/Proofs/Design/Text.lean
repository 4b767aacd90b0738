import Bankflow.Proofs.Design.Findings
import Bankflow.Proofs.Design.LoopText
import Bankflow.Proofs.Design.RegionText

/-!
# The text of a design reads back

The design of a program without errors can be written, and its text is a program in which
nothing is wrong and whose design is the same (`Design.text_ofProgram_reads_back`). Arrays
come first in it, then loops, then regions; there are no settings.
-/

namespace Bankflow

open Source hiding Access LoopHead LoopBody Node

/-! ## Arrays -/

/-- Declaration `d'` is well formed and declares the array that `d` declares. -/
structure ArrayMatches (d' d : ArrayDecl) : Prop where
  ofDecl_eq : Memory.ofDecl d' = .ofDecl d
  wellFormed : d'.WellFormed

theorem prints_shape {shape : List Nat} (hne : shape ≠ []) (hpos : ∀ n ∈ shape, 0 < n)
    (hfits : ∀ n ∈ shape, (n : Int) ≤ Word.greatest) :
    Prints (", ".intercalate (shape.map toString)) (Phrase.CommaList.tokens fun n => [n.lexeme])
      fun l => (l.tree id).map dimensionSize = shape ∧ ∀ n ∈ l.tree id, 0 < n.value.toInt := by
  have hnumber : ∀ n ∈ shape, Prints (toString n) (fun x : Number => [x.lexeme])
      fun x => 0 < x.value.toInt ∧ dimensionSize x = n := by
    intro n hn rest R hrest hR
    have hv := Word.toInt_ofNat_of_le (hfits n hn)
    have hpos := hpos n hn
    refine Lexes.natural hv hrest fun span => hR ⟨_, span⟩ ⟨?_, ?_⟩
    · rw [hv]
      omega
    · rw [dimensionSize, hv]
      omega
  refine (Phrase.CommaList.prints toString hne hnumber).map id (fun _ => rfl) fun l hl => ?_
  have hsizes : (l.tree id).map dimensionSize = shape.map id :=
    map_eq_map_of_forall₂ (hl.imp fun _ _ hx => hx.2)
  exact ⟨hsizes.trans (List.map_id shape), forall_mem_of_forall₂ hl.flip fun _ _ hx => hx.1⟩

theorem spaceOf_le (o : Option Number) : spaceOf o ≤ 4294967295 := by
  unfold spaceOf
  split
  · split
    · next h =>
      simp only [isSpace, Bool.and_eq_true, decide_eq_true_eq] at h
      omega
    · exact Nat.zero_le _
  · exact Nat.zero_le _

/-- The memory space, left out if it is the first. -/
theorem prints_space {space : Nat} (h : space ≤ 4294967295) :
    Prints (if space = 0 then "" else " @ " ++ toString space)
      (fun o : Option (Span × Number) =>
        o.elim [] fun (span, n) => [Symbol.atSign.lexeme span, n.lexeme])
      fun o => spaceOf (o.map (·.2)) = space ∧ ∀ n, o.map (·.2) = some n → isSpace n = true := by
  intro rest R hrest hR
  by_cases hzero : space = 0
  · subst hzero
    exact hR none ⟨rfl, nofun⟩
  · have hv := Word.toInt_ofNat_of_le (n := space) (by simp only [Word.greatest]; omega)
    have hspace : ∀ span, isSpace ⟨Int64.ofNat space, span⟩ = true := by
      intro span
      simp only [isSpace, hv, Bool.and_eq_true, decide_eq_true_eq]
      omega
    rw [if_neg hzero, String.append_assoc]
    refine Lexes.spacedMark .atSign 1 1 rfl nofun fun span => ?_
    refine Lexes.natural hv hrest fun span' => hR (some (span, ⟨_, span'⟩)) ⟨?_, ?_⟩
    · show (if isSpace _ = true then _ else _) = _
      rw [if_pos (hspace span'), hv]
      rfl
    · rintro n ⟨⟩
      exact hspace span'

theorem apart_space (space : Nat) {rest : String} (h : Apart rest) :
    Apart ((if space = 0 then "" else " @ " ++ toString space) ++ rest) := by
  split
  · exact h
  · rw [String.append_assoc]
    exact Apart.append (by decide) (by decide)

/-- The line of an array declares it. -/
theorem Memory.prints {d : ArrayDecl} (hl : d.IsLegal) :
    Prints (Memory.ofDecl d).line Phrase.Array.tokens
      fun p => ∃ d', p.tree = .array d' ∧ ArrayMatches d' d := by
  intro rest R hrest hR
  have hne : d.shape.map dimensionSize ≠ [] := by simpa using hl.shape_ne
  have hshape := prints_shape hne (List.forall_mem_map.mpr fun n _ => dimensionSize_pos n)
    (List.forall_mem_map.mpr fun n _ => dimensionSize_le n)
  simp only [line, ofDecl, shapeText, String.append_assoc, String.append_empty]
  refine Lexes.spacedKeyword .array 0 1 rfl nofun fun keyword => ?_
  refine Lexes.name hl.name (Apart.append (by decide) (by decide)) fun x => ?_
  refine Lexes.mark .lbracket nofun fun left => ?_
  refine hshape _ _ (Apart.append (by decide) (by decide)) fun l ⟨hsizes, hpos⟩ => ?_
  refine Lexes.mark .rbracket nofun fun right => ?_
  refine Lexes.spacedMark .colon 1 1 rfl nofun fun colon => ?_
  refine Lexes.name hl.elementType (apart_space _ hrest) fun type => ?_
  refine prints_space (spaceOf_le _) _ _ hrest fun space ⟨hspace, hfits⟩ => ?_
  have hmatch : ArrayMatches ⟨⟨d.name.name, x⟩, l.tree id, ⟨d.elementType.name, type⟩,
      space.map (·.2)⟩ d := by
    refine ⟨?_, hpos, hfits⟩
    rw [ofDecl, hsizes, hspace, ofDecl]
  have harray := hR ⟨keyword, ⟨d.name.name, x⟩, left, l, right, colon, ⟨d.elementType.name, type⟩,
    space⟩ ⟨_, rfl, hmatch⟩
  simpa only [Phrase.Array.tokens, List.cons_append, List.append_assoc] using harray

theorem Memory.isLine_line (m : Memory) : IsLine m.line := by
  simp only [line, String.append_assoc]
  exact IsLine.append (by decide) _

/-! ## Statements -/

/-- The statements are declarations of one kind, one for each of `xs`. -/
def Declares {ξ η : Type} (mk : η → Decl) (Q : η → ξ → Prop) (xs : List ξ)
    (l : List (Phrase.Statement × Span)) : Prop :=
  ∃ ys, l.map (·.1.decl) = ys.map mk ∧ List.Forall₂ Q ys xs

theorem Declares.cons {ξ η : Type} {mk : η → Decl} {Q : η → ξ → Prop} {x : ξ} {xs : List ξ}
    {d : Phrase.Statement × Span} {l : List (Phrase.Statement × Span)}
    (hd : ∃ y, d.1.decl = mk y ∧ Q y x) (hl : Declares mk Q xs l) :
    Declares mk Q (x :: xs) (d :: l) := by
  obtain ⟨y, hy, hQ⟩ := hd
  obtain ⟨ys, hys, hall⟩ := hl
  exact ⟨y :: ys, by rw [List.map_cons, hy, hys, List.map_cons], .cons hQ hall⟩

/-- Blocks of lines, each a declaration. -/
theorem prints_declarations {ξ η : Type} {mk : η → Decl} {Q : η → ξ → Prop}
    {lines : ξ → List String} : ∀ {xs : List ξ},
      (∀ x ∈ xs, PrintsLines (lines x) (ended Phrase.Statement.tokens)
        fun s => ∃ y, s.1.decl = mk y ∧ Q y x) →
      PrintsLines (xs.flatMap lines) (List.flatMap (ended Phrase.Statement.tokens))
        (Declares mk Q xs)
  | [], _ => .nil ⟨[], rfl, .nil⟩
  | x :: xs, h => by
    obtain ⟨hx, hxs⟩ := List.forall_mem_cons.mp h
    rw [List.flatMap_cons]
    exact hx.cons (prints_declarations hxs) fun _ _ => Declares.cons

/-- Arrays are written one a line. -/
theorem prints_arrays {ds : List ArrayDecl} (h : ∀ d ∈ ds, d.IsLegal) :
    PrintsLines ((ds.map Memory.ofDecl).map Memory.line)
      (List.flatMap (ended Phrase.Statement.tokens)) (Declares .array ArrayMatches ds) := by
  rw [List.map_map, List.map_eq_flatMap]
  refine prints_declarations fun d hd => ?_
  have hline : Prints (Memory.ofDecl d).line Phrase.Statement.tokens
      fun s => ∃ d', s.decl = .array d' ∧ ArrayMatches d' d :=
    (Memory.prints (h d hd)).map .array (fun _ => rfl) fun _ hp => hp
  exact .line (Memory.isLine_line _) hline

/-- Nests are written one after the other. -/
theorem Design.prints_nests {d : Design} (hmem : ∀ m ∈ d.memories, m.IsLegal) :
    ∀ {ls : List (Source.LoopHead × Source.LoopBody)} {id : Nat},
      (∀ l ∈ ls, Source.bodyWellFormed d.memories [l.1.var.name] l.2) →
      (∀ l ∈ ls, ∀ h ∈ l.1 :: l.2.heads, h.IsLegal) →
      (∀ n ∈ nestsOf d.memories id ls, ∀ x ∈ n.accesses, x.Readable) →
      PrintsLines ((nestsOf d.memories id ls).flatMap d.nestLines)
        (List.flatMap (ended Phrase.Statement.tokens))
        (Declares (fun l => .loop l.1 l.2) (NestMatches d.memories) ls)
  | [], _, _, _, _ => .nil ⟨[], rfl, .nil⟩
  | l :: ls, id, hbody, hlegal, hread => by
    obtain ⟨hbody, hbodies⟩ := List.forall_mem_cons.mp hbody
    obtain ⟨hlegal, hlegals⟩ := List.forall_mem_cons.mp hlegal
    obtain ⟨hread, hreads⟩ := List.forall_mem_cons.mp hread
    have hblock : PrintsLines _ (ended Phrase.Statement.tokens)
        fun s => ∃ l', s.1.decl = .loop l'.1 l'.2 ∧ NestMatches d.memories l' l :=
      (prints_nest hmem hbody hlegal hread).map (fun p => (.loop p.1, p.2)) (fun _ => rfl)
        fun p hp => ⟨p.1.tree, rfl, hp⟩
    exact hblock.cons (prints_nests hmem hbodies hlegals hreads) fun _ _ => Declares.cons

/-- Regions are written one after the other. -/
theorem prints_regions {rs : List RegionNames} (h : ∀ r ∈ rs, r.IsLegal) :
    PrintsLines (rs.flatMap (·.lines)) (List.flatMap (ended Phrase.Statement.tokens))
      (Declares (fun r => .region r.1 r.2) (fun r' r => RegionNames.of r' = r) rs) := by
  refine prints_declarations fun r hr => ?_
  exact (RegionNames.prints (h r hr)).map (fun p => (.region p.1, p.2)) (fun _ => rfl)
    fun p hp => ⟨(p.1.name, p.1.nodes.tree Phrase.Node.tree), rfl, hp⟩

/-! ## Programs -/

/-- Statements that are these arrays, loops and regions, with no settings. -/
def ConsistsOf (ss : List Statement) (ds : List ArrayDecl)
    (ls : List (Source.LoopHead × Source.LoopBody)) (rs : List (Ident × List Source.Node)) : Prop :=
  ss.map (·.decl) =
    ds.map .array ++ ls.map (fun l => .loop l.1 l.2) ++ rs.map (fun r => .region r.1 r.2)

namespace ConsistsOf

variable {ss : List Statement} {ds : List ArrayDecl}
  {ls : List (Source.LoopHead × Source.LoopBody)} {rs : List (Ident × List Source.Node)}

/-- What depends on declarations alone can be read off them. -/
theorem filterMap_eq (h : ConsistsOf ss ds ls rs) {κ : Type} (kind : Decl → Option κ) :
    ss.filterMap (fun s => kind s.decl) = ds.filterMap (fun d => kind (.array d)) ++
      ls.filterMap (fun l => kind (.loop l.1 l.2)) ++
        rs.filterMap (fun r => kind (.region r.1 r.2)) := by
  have hdecls : ss.filterMap (fun s => kind s.decl) = (ss.map (·.decl)).filterMap kind := by
    rw [List.filterMap_map]
    rfl
  rw [hdecls, h, List.filterMap_append, List.filterMap_append, List.filterMap_map,
    List.filterMap_map, List.filterMap_map]
  rfl

theorem arrays (h : ConsistsOf ss ds ls rs) : ss.filterMap (·.array?) = ds := by
  have heq := h.filterMap_eq fun d => (⟨d, ⟨0, 0⟩⟩ : Statement).array?
  simpa [Statement.array?] using heq

theorem loops (h : ConsistsOf ss ds ls rs) : ss.filterMap (·.loop?) = ls := by
  have heq := h.filterMap_eq fun d => (⟨d, ⟨0, 0⟩⟩ : Statement).loop?
  simpa [Statement.loop?] using heq

theorem regions (h : ConsistsOf ss ds ls rs) : ss.filterMap (·.region?) = rs := by
  have heq := h.filterMap_eq fun d => (⟨d, ⟨0, 0⟩⟩ : Statement).region?
  simpa [Statement.region?] using heq

theorem settings (h : ConsistsOf ss ds ls rs) : ss.filterMap (·.setting?) = [] := by
  have heq := h.filterMap_eq fun d => (⟨d, ⟨0, 0⟩⟩ : Statement).setting?
  simpa [Statement.setting?] using heq

end ConsistsOf

/-- Program `p'` says in order and without settings what `p` says. -/
structure Restates (p' p : Program) : Prop where
  parts : ∃ ds ls rs, ConsistsOf p'.statements ds ls rs ∧
    List.Forall₂ ArrayMatches ds (p.statements.filterMap (·.array?)) ∧
      List.Forall₂ (NestMatches (Design.ofProgram p).memories) ls
        (p.statements.filterMap (·.loop?)) ∧
        rs.map RegionNames.of = (p.statements.filterMap (·.region?)).map RegionNames.of

theorem nestsOf_eq_of_forall₂ {memories : List Memory}
    {ls' ls : List (Source.LoopHead × Source.LoopBody)}
    (h : List.Forall₂ (NestMatches memories) ls' ls) (id : Nat) :
    nestsOf memories id ls' = nestsOf memories id ls := by
  induction h generalizing id with
  | nil => rfl
  | @cons l' l _ _ hl _ ih =>
    have hlength : l'.2.heads.length = l.2.heads.length := by
      simpa [Nest.ofSource] using congrArg (·.vars.length) (hl.ofSource_eq 0)
    simp only [nestsOf, hl.ofSource_eq, hlength, ih]

theorem map_name_eq_of_forall₂ {ds' ds : List ArrayDecl} (h : List.Forall₂ ArrayMatches ds' ds) :
    ds'.map (·.name.name) = ds.map (·.name.name) := by
  symm
  refine map_eq_map_of_forall₂ (h.imp fun d' d hd => ?_)
  exact congrArg Memory.name hd.ofDecl_eq.symm

namespace Restates

variable {p' p : Program}

/-- The memories of a program whose arrays are declared once. -/
theorem memories_eq (h : Restates p' p) (hp : p.WellFormed) :
    (Design.ofProgram p').memories = (Design.ofProgram p).memories := by
  obtain ⟨ds, ls, rs, hparts, hds, -, -⟩ := h.parts
  have hnodup : (ds.map (·.name.name)).Nodup := map_name_eq_of_forall₂ hds ▸ hp.arrays_nodup
  simp only [Design.ofProgram, hparts.arrays, memoriesOf_eq_map hnodup,
    memoriesOf_eq_map hp.arrays_nodup]
  exact (map_eq_map_of_forall₂ (hds.imp fun _ _ hd => hd.ofDecl_eq.symm)).symm

theorem wellFormed (h : Restates p' p) (hp : p.WellFormed) : p'.WellFormed := by
  have hmem : memoriesOf (p'.statements.filterMap (·.array?)) = (Design.ofProgram p).memories :=
    h.memories_eq hp
  obtain ⟨ds, ls, rs, hparts, hds, hls, hrs⟩ := h.parts
  refine ⟨?_, ?_, ⟨?_, ?_, ?_, ?_⟩⟩
  · rw [hparts.arrays, map_name_eq_of_forall₂ hds]
    exact hp.arrays_nodup
  · rw [hparts.arrays]
    exact forall_mem_of_forall₂ hds fun _ _ hd => hd.wellFormed
  · rw [hparts.settings]
    exact nofun
  · rw [hparts.loops, hmem]
    exact forall_mem_of_forall₂ hls fun l _ hl => ⟨hl.head, hl.body⟩
  · have hnames := congrArg (List.map RegionNames.name) hrs
    rw [List.map_map, List.map_map] at hnames
    rw [hparts.regions]
    refine .of_nodup ?_
    rw [show rs.map (·.1.name) = _ from hnames]
    exact hp.statements.regions.nodup
  · rw [hparts.regions]
    intro r' hr'
    obtain ⟨r, hr, hof⟩ := List.mem_map.mp (hrs ▸ List.mem_map_of_mem hr')
    have hnodes := congrArg (fun r : RegionNames => r.nodes.map NodeNames.name) hof
    simp only [RegionNames.of, List.map_map] at hnodes
    rw [show r'.2.map (·.name.name) = _ from hnodes.symm]
    exact hp.statements.nodes r hr

/-- Nothing is wrong with a program that restates one without errors. -/
theorem findings_eq_nil (h : Restates p' p) (hp : p.WellFormed) : findings p' = [] := by
  obtain ⟨ds, ls, rs, hparts, -⟩ := h.parts
  have hclean := Source.Program.wellFormed_iff_clean.mp (h.wellFormed hp)
  refine List.eq_nil_iff_forall_not_mem.mpr fun f hf => ?_
  have herror := isError_of_mem_findings hparts.settings hf
  rw [hclean f hf] at herror
  cases herror

end Restates

/-- The design with no spans that differ; only its graph has any. -/
def Design.withoutSpans (d : Design) : Design := { d with graph := d.graph.withoutSpans }

theorem Restates.withoutSpans_eq {p' p : Program} (h : Restates p' p) (hp : p.WellFormed) :
    (Design.ofProgram p').withoutSpans = (Design.ofProgram p).withoutSpans := by
  have hmem := h.memories_eq hp
  obtain ⟨ds, ls, rs, hparts, -, hls, hrs⟩ := h.parts
  have hnests : (Design.ofProgram p').nests = (Design.ofProgram p).nests := by
    show nestsOf (Design.ofProgram p').memories 0 (p'.statements.filterMap (·.loop?)) =
      nestsOf (Design.ofProgram p).memories 0 (p.statements.filterMap (·.loop?))
    rw [hmem, hparts.loops, nestsOf_eq_of_forall₂ hls]
  have hgraph : (Design.ofProgram p').graph.withoutSpans =
      (Design.ofProgram p).graph.withoutSpans := by
    show (graphOf (p'.statements.filterMap (·.region?))).withoutSpans =
      (graphOf (p.statements.filterMap (·.region?))).withoutSpans
    rw [withoutSpans_graphOf, withoutSpans_graphOf, hparts.regions, hrs]
  rw [Design.withoutSpans, Design.withoutSpans, hmem, hnests, hgraph]

/-! ## Whole texts -/

section Legal

variable {p : Program} (hlegal : ∀ s ∈ p.statements, s.decl.IsLegal)

include hlegal

theorem forall_mem_filterMap {κ : Type} {kind : Statement → Option κ} {P : κ → Prop}
    (h : ∀ decl span x, decl.IsLegal → kind ⟨decl, span⟩ = some x → P x) :
    ∀ x ∈ p.statements.filterMap kind, P x := by
  intro x hx
  obtain ⟨s, hs, hsome⟩ := List.mem_filterMap.mp hx
  exact h s.decl s.span x (hlegal s hs) hsome

theorem array_isLegal : ∀ d ∈ p.statements.filterMap (·.array?), d.IsLegal := by
  refine forall_mem_filterMap hlegal fun decl span d hdecl hsome => ?_
  cases decl <;> cases hsome
  exact hdecl

theorem loop_isLegal :
    ∀ l ∈ p.statements.filterMap (·.loop?), ∀ h ∈ l.1 :: l.2.heads, h.IsLegal := by
  refine forall_mem_filterMap hlegal fun decl span l hdecl hsome => ?_
  cases decl <;> cases hsome
  exact hdecl

theorem region_isLegal :
    ∀ r ∈ p.statements.filterMap (·.region?), (RegionNames.of r).IsLegal := by
  refine forall_mem_filterMap hlegal fun decl span r hdecl hsome => ?_
  cases decl <;> cases hsome
  refine ⟨hdecl.1, List.forall_mem_map.mpr fun n hn => ?_⟩
  have hnode := hdecl.2 n hn
  exact ⟨hnode.name, List.forall_mem_map.mpr hnode.inputs, List.forall_mem_map.mpr hnode.outputs⟩

/-- The lines of the design of a program restate the program. -/
theorem Design.prints_ofProgram (hp : p.WellFormed)
    (hread : ∀ n ∈ (ofProgram p).nests, ∀ x ∈ n.accesses, x.Readable) :
    ∃ lines, (ofProgram p).text = unlines lines ∧
      PrintsLines lines (List.flatMap (ended Phrase.Statement.tokens))
        fun l => ∀ span, Restates ⟨l.map (·.1.tree), span⟩ p := by
  have hmemories : (ofProgram p).memories = (p.statements.filterMap (·.array?)).map .ofDecl :=
    memoriesOf_eq_map hp.arrays_nodup
  have hmem : ∀ m ∈ (ofProgram p).memories, m.IsLegal := by
    rw [hmemories]
    refine List.forall_mem_map.mpr fun d hd => ?_
    have hd := array_isLegal hlegal d hd
    exact ⟨hd.name, by simpa [Memory.ofDecl] using hd.shape_ne⟩
  have harrays := prints_arrays (array_isLegal hlegal)
  rw [← hmemories] at harrays
  have hnests := prints_nests hmem (fun l hl => (hp.statements.loops l hl).2) (loop_isLegal hlegal)
    hread
  have hregions := prints_regions (List.forall_mem_map.mpr (region_isLegal hlegal))
  rw [← flatMap_regionLines_graphOf hp.statements.regions.nodup hp.statements.nodes] at hregions
  refine ⟨_, rfl, ((harrays.append hnests).append hregions).map (fun x => x.1.1 ++ x.1.2 ++ x.2)
    (fun x => ?_) ?_⟩
  · rw [List.flatMap_append, List.flatMap_append]
  · rintro ⟨⟨as, ns⟩, gs⟩ ⟨⟨⟨ds, hdecls, hds⟩, ls, hloops, hls⟩, rs, hregs, hrs⟩ span
    refine ⟨ds, ls, rs, ?_, hds, hls, ?_⟩
    · rw [ConsistsOf, List.map_map, ← hdecls, ← hloops, ← hregs, ← List.map_append,
        ← List.map_append]
      rfl
    · have hnames := map_eq_map_of_forall₂ (g := id) (hrs.imp fun _ _ hr => hr.symm)
      rw [List.map_id] at hnames
      exact hnames.symm

end Legal

/-- A text of statements is read as these statements, with nothing wrong. -/
theorem Source.parse_unlines {lines : List String} {P : List (Phrase.Statement × Span) → Prop}
    (h : PrintsLines lines (List.flatMap (ended Phrase.Statement.tokens)) P) :
    ∃ l span, P l ∧ parse (unlines lines) = ⟨some ⟨l.map (·.1.tree), span⟩, []⟩ := by
  have hlexes := h.lexes "" (fun us => ∃ l, P l ∧ us = l.flatMap (ended Phrase.Statement.tokens))
    nofun (fun l hl => Lexes.nil ⟨l, hl, List.append_nil _⟩) 0
  rw [String.append_empty] at hlexes
  obtain ⟨herrors, l, hl, htokens⟩ := hlexes
  let d : Phrase.Program := ⟨[], .ofList l⟩
  have hd : (lex (unlines lines)).tokens = d.tokens :=
    htokens.trans (Phrase.Lines.tokens_ofList _ l).symm
  have herrors' : (lex (unlines lines)).errors = [] := herrors
  have htree : d.tree (unlines lines).utf8ByteSize =
      ⟨l.map (·.1.tree), tokensSpan d.tokens (unlines lines).utf8ByteSize⟩ := by
    rw [Phrase.Program.tree, Phrase.Lines.tree_ofList]
  refine ⟨l, tokensSpan d.tokens (unlines lines).utf8ByteSize, hl, ?_⟩
  rw [← htree, parse]
  simp only [hd, herrors', d.programOf_tokens]

theorem Design.text?_ofProgram (p : Program) : (ofProgram p).text? = .ok (ofProgram p).text := by
  have hok : (ofProgram p).checkAccesses ((ofProgram p).nests.flatMap Nest.accesses) = .ok () := by
    refine checkAccesses_eq_ok fun x hx => ?_
    obtain ⟨n, hn, hx⟩ := List.mem_flatMap.mp hx
    obtain ⟨l, -, id, rfl⟩ := exists_loop_of_mem_nestsOf hn
    exact accesses_lowerBody_array_lt x hx
  rw [text?, hok]
  rfl

/-- The design of a program without errors reads back. If no index has the least word as a
constant, the design has a text, this text is a program in which nothing is wrong, and the
design of that program is the same but for spans. -/
theorem Design.text_ofProgram_reads_back (source : String) (p : Program)
    (hparse : parse source = ⟨some p, []⟩)
    (hclean : (findings p).any Finding.isError = false)
    (hleast : ∀ n ∈ (ofProgram p).nests, ∀ x ∈ n.accesses, ∀ e ∈ x.indices,
      Int64.minValue ∉ e.constants) :
    ∃ text p', (ofProgram p).text? = .ok text ∧ parse text = ⟨some p', []⟩ ∧ findings p' = [] ∧
      (ofProgram p').withoutSpans = (ofProgram p).withoutSpans := by
  have hp := Source.Program.wellFormed_iff_clean.mpr (Clean.iff_any.mpr hclean)
  obtain ⟨lines, htext, hlines⟩ := prints_ofProgram (decl_isLegal_of_parse hparse) hp hleast
  obtain ⟨l, span, hl, hread⟩ := Source.parse_unlines hlines
  refine ⟨_, _, text?_ofProgram p, htext ▸ hread, ?_, ?_⟩
  · exact (hl span).findings_eq_nil hp
  · exact (hl span).withoutSpans_eq hp

/-- An array that is read backwards by a loop before its declaration. -/
def backwards : String :=
  "region r \x7bnode a(x)\x7d\nloop i=0 to 8 \x7bread A[-(i-8)]\x7d\narray A[9]:f32"

/-- The same in order, with the step written and no minus before brackets. -/
def backwardsText : String :=
  "array A[9] : f32\nloop i = 0 to 8 step 1 \x7b\n  read A[(i - 8) * -1]\n\x7d\n" ++
    "region r \x7b\n  node a(x)\n\x7d\n"

theorem backwards_reads_back : ∃ p p', parse backwards = ⟨some p, []⟩ ∧
    (findings p).any Finding.isError = false ∧
    (∀ n ∈ (Design.ofProgram p).nests, ∀ x ∈ n.accesses, ∀ e ∈ x.indices,
      Int64.minValue ∉ e.constants) ∧
    (Design.ofProgram p).text? = .ok backwardsText ∧ parse backwardsText = ⟨some p', []⟩ ∧
    findings p' = [] ∧ (Design.ofProgram p').withoutSpans = (Design.ofProgram p).withoutSpans := by
  have herrors : (parse backwards).errors = [] := by decide +kernel
  have hprogram : (parse backwards).program.any fun p =>
      (findings p).any Finding.isError = false ∧
        (∀ n ∈ (Design.ofProgram p).nests, ∀ x ∈ n.accesses, ∀ e ∈ x.indices,
          Int64.minValue ∉ e.constants) ∧
        (Design.ofProgram p).text? = .ok backwardsText := by
    decide +kernel
  obtain ⟨p, hp, hdesign⟩ := Option.any_eq_true _ _ |>.mp hprogram
  obtain ⟨hclean, hleast, htext⟩ := of_decide_eq_true hdesign
  have hparse : parse backwards = ⟨some p, []⟩ := by rw [← hp, ← herrors]
  obtain ⟨text, p', htext', hread, hnil, hsame⟩ :=
    Design.text_ofProgram_reads_back backwards p hparse hclean hleast
  rw [htext] at htext'
  cases htext'
  exact ⟨p, p', hparse, hclean, hleast, htext, hread, hnil, hsame⟩

end Bankflow
