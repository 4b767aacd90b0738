import Bankflow.Dataflow.Legality
import Bankflow.Proofs.Dataflow.Levels

/-!
# Schedules pass their certificate

Levels are longest walks, so a level is above those of the nodes that its node feeds, and
a node without outputs is at level `0`. Regions are marked legal by the legality check
only. The certificate of a schedule therefore passes on every graph that was built,
scheduled and checked (`Built.allPass_certificate`).
-/

namespace Bankflow.Dataflow.Graph

variable {g g₀ : Graph} {options : Options} {n m k l : Nat} {x : Node}

/-! ## Levels -/

theorem level?_eq_level (hx : g.nodes[n]? = some x) : g.level? n = x.level := by
  rw [level?, hx, Option.bind_some]

/-- A level is above the levels of the nodes that its node feeds. -/
theorem Levelling.lt_of_feeds (h : Levelling g₀ options g) (hnm : g₀.Feeds n m)
    (hn : g.level? n = some l) (hm : g.level? m = some k) : k < l :=
  (h.longest n l hn).2 (Walk.step hnm (h.longest m k hm).1)

theorem Levelling.levelsOrdered (h : Levelling g₀ options g) : g.levelsOrdered = true := by
  refine List.all_eq_true.mpr fun x hx => ?_
  obtain ⟨n, hn⟩ := List.mem_iff_getElem?.mp hx
  split
  · rfl
  · next l hl =>
    refine List.all_eq_true.mpr fun k hk => decide_eq_true ?_
    obtain ⟨m, hm, hmk⟩ := List.mem_filterMap.mp hk
    have hnm := (h.feeds_iff n m).mp ((h.mirrors.mem_successors hn).mp hm)
    exact h.lt_of_feeds hnm ((level?_eq_level hn).trans hl) hmk

theorem not_writes_of_outputs_nil (hx : g.nodes[n]? = some x) (ho : x.outputs = []) :
    ∀ b, ¬ g.Writes n b := by
  rintro b ⟨y, hy, hb⟩
  rw [hx] at hy
  cases hy
  rw [ho] at hb
  exact List.not_mem_nil hb

/-- A node without outputs is ready for level `0`, whatever is enforced. -/
theorem readyLevel?_of_outputs_nil {options : Options} (ho : x.outputs = [])
    (hlevel : x.level = none) : g.readyLevel? options x = some 0 := by
  refine readyLevel?_eq_some_iff.mpr ⟨hlevel, fun _ => ?_, ?_⟩
  · rw [isBlocked, ho, List.any_nil]
  · rw [successors, ho, List.flatMap_nil]
    rfl

/-- Nodes without outputs are at level `0` once no node is ready. -/
theorem Levelling.sinksAtZero {options' : Options} (h : Levelling g₀ options g)
    (hdone : g.readyCount options' = 0) : g.sinksAtZero = true := by
  refine List.all_eq_true.mpr fun x hx => ?_
  obtain ⟨n, hn⟩ := List.mem_iff_getElem?.mp hx
  cases ho : x.outputs with
  | cons b bs => rfl
  | nil =>
    have hfeeds : ∀ m, ¬ g₀.Feeds n m := by
      intro m hm
      obtain ⟨b, hb, -⟩ := (h.feeds_iff n m).mpr hm
      exact not_writes_of_outputs_nil hn ho b hb
    cases hlevel : x.level with
    | none =>
      have hready : g.readyLevel? options' x = some 0 := readyLevel?_of_outputs_nil ho hlevel
      rw [readyLevel?_eq_none hdone hn] at hready
      cases hready
    | some l =>
      have hzero : l = 0 := by
        cases (h.longest n l ((level?_eq_level hn).trans hlevel)).1 with
        | stay => rfl
        | step hnm _ => exact absurd hnm (hfeeds _)
      rw [hzero]
      rfl

/-! ## Marks -/

/-- No region is marked legal before the legality check. -/
theorem Built.legal_eq_false (h : g.Built) : ∀ r ∈ g.regions, r.legal = false := by
  induction h with
  | empty => exact fun r hr => absurd hr List.not_mem_nil
  | addRegion _ name span ih =>
    intro r hr
    rcases List.mem_append.mp hr with hr | hr
    · exact ih r hr
    · rw [List.mem_singleton.mp hr]
  | @internBuffer g _ name ih =>
    rcases internBuffer_cases g name with hg | hg
    · rwa [hg]
    · rwa [hg]
  | @addNode g g' region id name inputs outputs span _ ok ih =>
    obtain ⟨-, -, -, hg⟩ := addNode?_eq_ok_iff.mp ok
    have hfst : (g.addNode region name inputs outputs span).1 = g' := congrArg Prod.fst hg
    rw [← hfst]
    intro r hr
    obtain ⟨i, hi⟩ := List.mem_iff_getElem?.mp hr
    rw [Graph.addNode, List.getElem?_modify, Option.map_eq_map, Option.map_eq_some_iff] at hi
    obtain ⟨r₀, hr₀, rfl⟩ := hi
    have hfalse := ih r₀ (List.mem_of_getElem? hr₀)
    split
    · exact hfalse
    · exact hfalse

theorem regions_settle (g : Graph) (options : Options) :
    (g.settle options).1.regions = g.regions :=
  settle_induction (P := fun g' => g'.regions = g.regions) (fun _ h => h) rfl

/-- The legality check changes regions only. -/
theorem exists_regions_checkLegality (g : Graph) (options : Options) :
    ∃ regions, (g.checkLegality options).1 = { g with regions } := by
  unfold checkLegality
  split
  · exact ⟨g.regions, rfl⟩
  · exact ⟨_, rfl⟩

theorem legalRegionsLevelled_of_unmarked (h : ∀ r ∈ g.regions, r.legal = false) :
    g.legalRegionsLevelled = true := by
  refine List.all_eq_true.mpr fun r hr => ?_
  rw [h r hr]
  rfl

theorem legalRegionsLevelled_checkLegality (h : g.legalRegionsLevelled = true) :
    (g.checkLegality options).1.legalRegionsLevelled = true := by
  unfold checkLegality
  split
  · exact h
  · refine List.all_eq_true.mpr fun r hr => ?_
    obtain ⟨r₀, hr₀, rfl⟩ := List.mem_map.mp hr
    show (!g.isLegal r₀ || g.isLegal r₀) = true
    exact Bool.not_or_self _

/-! ## The certificate -/

theorem levelsOrdered_checkLegality :
    (g.checkLegality options).1.levelsOrdered = g.levelsOrdered := by
  obtain ⟨regions, hg⟩ := exists_regions_checkLegality g options
  rw [hg]
  rfl

theorem sinksAtZero_checkLegality :
    (g.checkLegality options).1.sinksAtZero = g.sinksAtZero := by
  obtain ⟨regions, hg⟩ := exists_regions_checkLegality g options
  rw [hg]
  rfl

/-- A graph that was built, scheduled and checked passes its certificate. -/
theorem Built.allPass_certificate (hg : g.Built) (hsize : g.nodes.length ≤ maxLevel)
    (options : Options) :
    (((g.schedule options).1.checkLegality options).1.certificate).allPass = true := by
  have h := levelling_schedule hg hsize options
  have hmarks : ∀ r ∈ (g.schedule options).1.regions, r.legal = false := by
    rw [schedule, regions_settle]
    exact hg.legal_eq_false
  simp only [certificate, Certificate.allPass,
    legalRegionsLevelled_checkLegality (legalRegionsLevelled_of_unmarked hmarks),
    levelsOrdered_checkLegality, sinksAtZero_checkLegality, h.levelsOrdered,
    h.sinksAtZero (readyCount_settle g options), List.all_cons, List.all_nil, Bool.and_self]

end Bankflow.Dataflow.Graph
