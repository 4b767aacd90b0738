import Bankflow.Proofs.Design.Resolver
import Mathlib.Data.Fintype.Basic
import Mathlib.Data.List.Sort

/-!
# Statements of different kinds in any order

What a program amounts to depends on the settings, arrays, loops and regions that it has, each
in their order, and not on how they are mixed. `Reorders` says this of the places of the
statements. Where statements of one kind keep their order, the statements of each kind are the
same list (`Reorders.filter_eq`), because their places are ascending on both sides.

Designs and options are made from these lists, and the findings of a program are those of the
lists, up to order (`statementFindings_perm`). A resolver takes the statements as they come, but
ends with the same (`Resolver.alike_ofProgram`). So programs whose statements are mixed in another
way are resolved alike (`reordered_resolves_alike`).
-/

namespace Bankflow

open Source (Ident ArrayDecl SettingValue Statement Program)

/-! ## Kinds of statements -/

/-- What a statement is about. -/
inductive Source.DeclKind where
  | setting
  | array
  | loop
  | region
  deriving DecidableEq, Repr

def Source.Statement.kind (s : Statement) : Source.DeclKind :=
  match s.decl with
  | .setting .. => .setting
  | .array _ => .array
  | .loop .. => .loop
  | .region .. => .region

/-- The same statements at other places, where those of one kind keep their order. -/
def Source.Reorders (ss ss' : List Statement) : Prop :=
  ∃ place : Fin ss.length ≃ Fin ss'.length, (∀ i, ss'.get (place i) = ss.get i) ∧
    ∀ i j, i < j → (ss.get i).kind = (ss.get j).kind → place i < place j

theorem filter_eq_map_get {α : Type} (p : α → Bool) (l : List α) :
    l.filter p = ((List.finRange l.length).filter (p ∘ l.get)).map l.get := by
  rw [← List.filter_map, List.map_get_finRange]

/-- The statements of each kind are the same. -/
theorem Source.Reorders.filter_eq {ss ss' : List Statement} (h : Reorders ss ss')
    (k : Source.DeclKind) : ss'.filter (·.kind = k) = ss.filter (·.kind = k) := by
  obtain ⟨place, hsame, hmono⟩ := h
  have hplaces : ((List.finRange ss.length).filter ((fun s => decide (s.kind = k)) ∘ ss.get)).map
      place = (List.finRange ss'.length).filter ((fun s => decide (s.kind = k)) ∘ ss'.get) := by
    refine List.SortedLT.eq_of_mem_iff ?_ ?_ fun i => ?_
    · refine (List.pairwise_map.mpr ?_).sortedLT
      refine ((List.pairwise_lt_finRange _).filter _).imp_of_mem fun hi hj hij => ?_
      have hi := of_decide_eq_true (List.mem_filter.mp hi).2
      have hj := of_decide_eq_true (List.mem_filter.mp hj).2
      exact hmono _ _ hij (hi.trans hj.symm)
    · exact ((List.pairwise_lt_finRange _).filter _).sortedLT
    · obtain ⟨j, rfl⟩ := place.surjective i
      rw [List.mem_map_of_injective place.injective, List.mem_filter, List.mem_filter,
        Function.comp_apply, Function.comp_apply, hsame, and_iff_right (List.mem_finRange _),
        and_iff_right (List.mem_finRange _)]
  rw [filter_eq_map_get _ ss', ← hplaces, filter_eq_map_get _ ss, List.map_map]
  exact List.map_congr_left fun i _ => hsame i

/-- What is made of the statements of one kind is made of the same statements. -/
theorem Source.Reorders.filterMap_eq {β : Type} {ss ss' : List Statement} (h : Reorders ss ss')
    {f : Statement → Option β} {k : Source.DeclKind} (hf : ∀ s, s.kind ≠ k → f s = none) :
    ss'.filterMap f = ss.filterMap f := by
  have honly : ∀ ss : List Statement, ss.filterMap f = (ss.filter (·.kind = k)).filterMap f := by
    intro ss
    rw [List.filterMap_filter]
    refine List.filterMap_congr fun s _ => ?_
    by_cases hs : s.kind = k
    · rw [if_pos (decide_eq_true hs)]
    · rw [if_neg (by simpa using hs), hf s hs]
  rw [honly ss', honly ss, h.filter_eq]

/-- The lists that resolving works on. -/
theorem Source.Reorders.lists_eq {ss ss' : List Statement} (h : Reorders ss ss') :
    ss'.filterMap (·.setting?) = ss.filterMap (·.setting?) ∧
      ss'.filterMap (·.array?) = ss.filterMap (·.array?) ∧
      ss'.filterMap (·.loop?) = ss.filterMap (·.loop?) ∧
      ss'.filterMap (·.region?) = ss.filterMap (·.region?) := by
  refine ⟨h.filterMap_eq (k := .setting) ?_, h.filterMap_eq (k := .array) ?_,
    h.filterMap_eq (k := .loop) ?_, h.filterMap_eq (k := .region) ?_⟩ <;>
  · rintro ⟨decl, span⟩ hkind
    cases decl <;> first | rfl | exact absurd rfl hkind

/-! ## Findings by kind -/

/-- What is wrong in an outermost loop. -/
def loopFindings (memories : List Memory) (l : Source.LoopHead × Source.LoopBody) : List Finding :=
  headFindings [] l.1 ++ bodyFindings memories [(l.1.var.name, 0)] l.2

/-- What is wrong in regions, after regions of some names. -/
def regionFindings (seen : List String) : List (Ident × List Source.Node) → List Finding
  | [] => []
  | (name, nodes) :: rest =>
    if name.name ∈ seen then ⟨.duplicateRegion name.name, name.span⟩ :: regionFindings seen rest
    else nodeFindings name.name [] nodes ++ regionFindings (name.name :: seen) rest

/-- What is wrong in some statements is what is wrong with their settings, their loops and their
regions. Names that were used before are looked for among the regions only. -/
theorem statementFindings_perm (memories : List Memory) :
    ∀ (ss : List Statement) (seen : List String), (statementFindings memories seen ss).Perm
      ((ss.filterMap (·.setting?)).flatMap (fun s => settingFindings s.1 s.2) ++
        ((ss.filterMap (·.loop?)).flatMap (loopFindings memories) ++
          regionFindings seen (ss.filterMap (·.region?))))
  | [], _ => .nil
  | ⟨.array d, _⟩ :: ss, seen => statementFindings_perm memories ss seen
  | ⟨.setting name value, _⟩ :: ss, seen => by
    have ih := statementFindings_perm memories ss seen
    have hsettings := ih.append_left (settingFindings name value)
    rwa [← List.append_assoc] at hsettings
  | ⟨.loop head body, _⟩ :: ss, seen => by
    have ih := statementFindings_perm memories ss seen
    have hloops := (ih.append_left (loopFindings memories (head, body))).trans
      (List.perm_append_comm_assoc ..)
    rwa [← List.append_assoc (loopFindings memories (head, body))] at hloops
  | ⟨.region name nodes, _⟩ :: ss, seen => by
    -- the findings of a region come before those of all regions after it
    have hlast : ∀ (ls : List Finding) {fs gs hs ks : List Finding}, fs.Perm (gs ++ (hs ++ ks)) →
        (ls ++ fs).Perm (gs ++ (hs ++ (ls ++ ks))) := by
      intro ls fs gs hs ks hfs
      refine (hfs.append_left ls).trans ((List.perm_append_comm_assoc ..).trans ?_)
      exact (List.perm_append_comm_assoc ..).append_left gs
    simp only [statementFindings]
    by_cases hseen : name.name ∈ seen
    · rw [if_pos hseen]
      refine (hlast [_] (statementFindings_perm memories ss seen)).trans (.of_eq ?_)
      simp [Statement.setting?, Statement.loop?, Statement.region?, regionFindings, hseen]
    · rw [if_neg hseen]
      refine (hlast _ (statementFindings_perm memories ss (name.name :: seen))).trans (.of_eq ?_)
      simp [Statement.setting?, Statement.loop?, Statement.region?, regionFindings, hseen]

/-! ## Programs -/

theorem Source.Reorders.findings_perm {p q : Program} (h : Reorders p.statements q.statements) :
    (findings q).Perm (findings p) := by
  obtain ⟨hsettings, harrays, hloops, hregions⟩ := h.lists_eq
  have hp := statementFindings_perm (memoriesOf (p.statements.filterMap (·.array?)))
    p.statements []
  have hq := statementFindings_perm (memoriesOf (p.statements.filterMap (·.array?)))
    q.statements []
  rw [hsettings, hloops, hregions] at hq
  rw [findings, findings, harrays]
  exact (hq.trans hp.symm).append_left _

/-- Resolvers that differ in the order of their findings only. -/
structure Resolver.Alike (r r' : Resolver) : Prop where
  stored : r'.stored = r.stored
  options : r'.options = r.options
  ids : r'.ids = r.ids
  arrays : r'.arrays = r.arrays
  findings : r'.findings.Perm r.findings
  diagnostics : (r'.findings.map Finding.diagnostic).Perm (r.findings.map Finding.diagnostic)

theorem Resolver.alike_ofProgram {p q : Program}
    (h : Source.Reorders p.statements q.statements) : (ofProgram p).Alike (ofProgram q) := by
  obtain ⟨hsettings, harrays, hloops, hregions⟩ := h.lists_eq
  have hfindings : (ofProgram q).findings.Perm (ofProgram p).findings := h.findings_perm
  refine ⟨?_, ?_, ?_, ?_, hfindings, hfindings.map _⟩
  · rw [ofProgram, ofProgram, of, of, harrays, hloops, hregions]
  · rw [ofProgram, ofProgram, of, of, hsettings]
  · rw [ofProgram, ofProgram, of, of, harrays, hloops]
  · rw [ofProgram, ofProgram, of, of, harrays]

/-- Programs with the same statements are resolved alike, if the settings, the arrays, the loops
and the regions each keep their order. A resolver that goes through them one after the other ends
with the same parts under the same numbers, the same options and tables, and the same findings up
to order, whatever is wrong with the programs; or it runs out of numbers for both. In particular
arrays may be declared before or after the loops that use them.

Where counters wrap, there must be less than `2 ^ 32` parts of each kind. -/
theorem reordered_resolves_alike (p q : Program) (h : Source.Reorders p.statements q.statements) :
    (∀ o, o = .stops ∨ (Design.ofProgram p).largest < 2 ^ 32 →
      (∀ r, resolve o p = .ok r → ∃ r', resolve o q = .ok r' ∧ r.Alike r' ∧
        r.Consistent ∧ r.stored.design = Design.ofProgram p ∧
        r.options = Options.ofProgram p ∧ r.findings = findings p) ∧
      (∀ f, resolve o p = .error f → resolve o q = .error f) ∧
      ((Design.ofProgram p).largest < 2 ^ 32 → ∃ r, resolve o p = .ok r)) ∧
    Design.ofProgram q = Design.ofProgram p ∧ Options.ofProgram q = Options.ofProgram p ∧
      (findings q).Perm (findings p) ∧
      ((findings q).map Finding.diagnostic).Perm ((findings p).map Finding.diagnostic) := by
  obtain ⟨hsettings, harrays, hloops, hregions⟩ := h.lists_eq
  have hdesign : Design.ofProgram q = Design.ofProgram p := by
    rw [Design.ofProgram, Design.ofProgram, harrays, hloops, hregions]
  refine ⟨fun o hroom => ?_, hdesign, ?_, h.findings_perm, h.findings_perm.map _⟩
  · have hp := resolve_eq o p hroom
    have hq := resolve_eq o q (hdesign.symm ▸ hroom)
    rw [hdesign] at hq
    refine ⟨fun r hr => ?_, fun f hf => ?_, fun hlt => ?_⟩
    · obtain ⟨hlt, rfl⟩ := eq_ofProgram_of_resolve hroom hr
      exact ⟨_, hq.trans (Overflow.counted_of_reaches (.inr hlt)), Resolver.alike_ofProgram h,
        Resolver.consistent_ofProgram hlt, Resolver.design_ofProgram hlt, rfl, rfl⟩
    · rw [hp] at hf
      rw [hq]
      by_cases hreaches : o.Reaches (Design.ofProgram p).largest
      · rw [Overflow.counted_of_reaches hreaches] at hf
        cases hf
      · rw [Overflow.counted_of_not_reaches hreaches] at hf ⊢
        exact hf
    · exact ⟨_, hp.trans (Overflow.counted_of_reaches (.inr hlt))⟩
  · rw [Options.ofProgram, Options.ofProgram, hsettings]

/-- An array, a setting that is not known, and a loop that reads the array and one that is not
declared. -/
def threeKinds : List Statement :=
  let here : Span := ⟨0, 0⟩
  let i : Source.Index := .var ⟨"i", here⟩
  let read (array : String) : Source.Access := ⟨.read, ⟨array, here⟩, [i], here⟩
  [⟨.array ⟨⟨"A", here⟩, [⟨8, here⟩], ⟨"f32", here⟩, none⟩, here⟩,
    ⟨.setting ⟨"x", here⟩ (.int ⟨1, here⟩), here⟩,
    ⟨.loop ⟨⟨"i", here⟩, 0, 8, none, false, here⟩
      (.access (read "A") (.access (read "B") .done)), here⟩]

/-- The array may be declared last. -/
theorem threeKinds_resolve_alike :
    Source.Reorders threeKinds threeKinds.reverse ∧
      (∃ r r', resolve .stops ⟨threeKinds, ⟨0, 0⟩⟩ = .ok r ∧
        resolve .stops ⟨threeKinds.reverse, ⟨0, 0⟩⟩ = .ok r' ∧ r.Alike r' ∧
        r.stored.memories.map (·.id) = [0] ∧
        r.stored.nests.map (fun n => n.accesses.map (·.array)) = [[0]] ∧
        r.findings.map (·.issue) = [.unknownSetting "x", .unknownArray "B"] ∧
        r'.findings.map (·.issue) = [.unknownArray "B", .unknownSetting "x"]) ∧
      Design.ofProgram ⟨threeKinds.reverse, ⟨0, 0⟩⟩ = Design.ofProgram ⟨threeKinds, ⟨0, 0⟩⟩ := by
  have hreorders : Source.Reorders threeKinds threeKinds.reverse := by
    refine ⟨(Fin.revPerm : Fin 3 ≃ Fin 3), ?_, ?_⟩
    · decide +kernel
    · decide +kernel
  obtain ⟨hresolve, hdesign, -⟩ :=
    reordered_resolves_alike ⟨threeKinds, ⟨0, 0⟩⟩ ⟨threeKinds.reverse, ⟨0, 0⟩⟩ hreorders
  obtain ⟨halike, -, hok⟩ := hresolve .stops (.inl rfl)
  obtain ⟨r, hr⟩ := hok (by decide +kernel)
  obtain ⟨r', hr', halike, -⟩ := halike r hr
  have heval : (resolve .stops ⟨threeKinds, ⟨0, 0⟩⟩).toOption.map (fun r =>
      (r.stored.memories.map (·.id), r.stored.nests.map (fun n => n.accesses.map (·.array)),
        r.findings.map (·.issue))) =
        some ([0], [[0]], [.unknownSetting "x", .unknownArray "B"]) := by
    decide +kernel
  have heval' : (resolve .stops ⟨threeKinds.reverse, ⟨0, 0⟩⟩).toOption.map (fun r =>
      r.findings.map (·.issue)) = some [.unknownArray "B", .unknownSetting "x"] := by
    decide +kernel
  rw [hr] at heval
  rw [hr'] at heval'
  simp only [Except.toOption, Option.map_some, Option.some.injEq, Prod.mk.injEq] at heval heval'
  obtain ⟨hids, harrays, hissues⟩ := heval
  exact ⟨hreorders, ⟨r, r', hr, hr', halike, hids, harrays, hissues, heval'⟩, hdesign⟩

end Bankflow
