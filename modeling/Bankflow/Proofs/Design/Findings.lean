import Bankflow.Design.OfProgram

/-!
# What can be found in a program

What is found in a program itself is `Issue.IsOwn` (`allOwn_findings`); other issues are
found by the passes that follow. Some of these are `Issue.IsInternal`: they would be the
fault of a pass. Such issues have codes and messages of their own
(`Issue.code_ne_of_not_isInternal`, `Issue.message_ne_of_not_isInternal`), and they are
errors. Of a program's own issues only unknown settings are no errors
(`isError_of_mem_findings`).
-/

namespace Bankflow

namespace Issue

/-- Issues that no program should lead to. -/
inductive IsInternal : Issue → Prop where
  | uncertifiedBanking (failures : List String) : IsInternal (uncertifiedBanking failures)
  | uncertifiedSchedule (failures : List String) : IsInternal (uncertifiedSchedule failures)
  | noDesign (pass : String) : IsInternal (noDesign pass)

theorem IsInternal.isError {f : Finding} (h : f.issue.IsInternal) : f.isError = true := by
  obtain ⟨issue, span⟩ := f
  cases h <;> rfl

theorem code_ne_of_not_isInternal {i : Issue} (h : ¬ i.IsInternal) :
    i.code ≠ some "E0600" ∧ i.code ≠ some "E0601" := by
  cases i with
  | uncertifiedBanking fs => exact absurd (.uncertifiedBanking fs) h
  | uncertifiedSchedule fs => exact absurd (.uncertifiedSchedule fs) h
  | _ => simp [code]

/-- No other message starts with the same letters. -/
theorem message_ne_of_not_isInternal {i : Issue} (h : ¬ i.IsInternal) (pass : String) :
    i.message ≠ "internal: " ++ pass ++ " ran before resolve" := by
  intro heq
  -- the equations of these matches are slow to make, so they are opened by hand
  delta message Source.SyntaxProblem.message at heq
  cases i with
  | noDesign q => exact h (.noDesign q)
  | badSyntax p =>
    cases p <;> dsimp only at heq <;> have hchars := congrArg String.toList heq <;>
      simp at hchars
  | _ =>
    dsimp only at heq
    have hchars := congrArg String.toList heq
    simp [quoted] at hchars

end Issue

/-- Issues of a program itself, which are found when it is resolved. -/
def Issue.IsOwn : Issue → Prop
  | badSyntax _ | blockedNode .. | illegalRegion .. => False
  | uncertifiedBanking _ | uncertifiedSchedule _ | noDesign _ => False
  | _ => True

theorem Issue.IsOwn.not_isInternal {i : Issue} (h : i.IsOwn) : ¬ i.IsInternal := by
  intro hi
  cases hi <;> exact h

/-- Findings about a program itself, which are errors in the strict case. -/
def AllOwn (strict : Prop) (fs : List Finding) : Prop :=
  ∀ f ∈ fs, f.issue.IsOwn ∧ (strict → f.isError = true)

namespace AllOwn

variable {strict : Prop} {f : Finding} {fs gs : List Finding}

theorem nil : AllOwn strict [] := fun _ hf => nomatch hf

theorem cons (hf : f.issue.IsOwn) (hstrict : strict → f.isError = true) (hfs : AllOwn strict fs) :
    AllOwn strict (f :: fs) :=
  List.forall_mem_cons.mpr ⟨⟨hf, hstrict⟩, hfs⟩

theorem append (hf : AllOwn strict fs) (hg : AllOwn strict gs) : AllOwn strict (fs ++ gs) :=
  List.forall_mem_append.mpr ⟨hf, hg⟩

/-- Nothing is said about a case that does not arise. -/
theorem of_not {strict' : Prop} (h : AllOwn strict fs) (hs : ¬ strict') : AllOwn strict' fs :=
  fun f hf => ⟨(h f hf).1, (absurd · hs)⟩

end AllOwn

open AllOwn

variable {strict : Prop}

/-! ## Arrays and settings -/

theorem allOwn_shapeFindings (d : Source.ArrayDecl) : AllOwn strict (shapeFindings d) := by
  intro f hf
  obtain ⟨n, -, hn⟩ := List.mem_filterMap.mp hf
  split at hn
  · cases hn
    exact ⟨trivial, fun _ => rfl⟩
  · cases hn

theorem allOwn_spaceFindings (d : Source.ArrayDecl) : AllOwn strict (spaceFindings d) := by
  unfold spaceFindings
  split
  · split
    · exact nil
    · exact cons trivial (fun _ => rfl) nil
  · exact nil

theorem allOwn_arrayFindings :
    ∀ (seen : List String) (ds : List Source.ArrayDecl), AllOwn strict (arrayFindings seen ds)
  | _, [] => nil
  | seen, d :: ds => by
    rw [arrayFindings]
    split
    · exact cons trivial (fun _ => rfl) (allOwn_arrayFindings seen ds)
    · exact ((allOwn_shapeFindings d).append (allOwn_spaceFindings d)).append
        (allOwn_arrayFindings _ ds)

theorem allOwn_settingFindings (name : Source.Ident) (value : Source.SettingValue) :
    AllOwn False (settingFindings name value) := by
  unfold settingFindings
  split
  · split
    · exact nil
    · exact cons trivial False.elim nil
  · exact cons trivial False.elim nil

/-! ## Loops -/

theorem allOwn_headFindings (scope : Scope) (h : Source.LoopHead) :
    AllOwn strict (headFindings scope h) := by
  refine append ?_ ?_
  · unfold shadowFindings
    split
    · exact cons trivial (fun _ => rfl) nil
    · exact nil
  · unfold stepFindings
    split
    · split
      · exact cons trivial (fun _ => rfl) nil
      · exact nil
    · exact nil

theorem allOwn_accessFindings (memories : List Memory) (scope : Scope) (a : Source.Access) :
    AllOwn strict (accessFindings memories scope a) := by
  unfold accessFindings
  split
  · exact cons trivial (fun _ => rfl) nil
  · split
    · intro f hf
      obtain ⟨x, -, rfl⟩ := List.mem_map.mp hf
      exact ⟨trivial, fun _ => rfl⟩
    · exact cons trivial (fun _ => rfl) nil

theorem allOwn_bodyFindings (memories : List Memory) :
    ∀ (body : Source.LoopBody) (scope : Scope), AllOwn strict (bodyFindings memories scope body)
  | .done, _ => nil
  | .access a rest, scope =>
    (allOwn_accessFindings memories scope a).append
      (allOwn_bodyFindings memories rest scope)
  | .loop h inner rest, scope =>
    ((allOwn_headFindings scope h).append (allOwn_bodyFindings memories inner _)).append
      (allOwn_bodyFindings memories rest scope)

/-! ## Regions and whole programs -/

theorem allOwn_nodeFindings (region : String) :
    ∀ (ns : List Source.Node) (seen : List (String × Nat)),
      AllOwn strict (nodeFindings region seen ns)
  | [], _ => nil
  | n :: ns, seen => by
    rw [nodeFindings]
    split
    · exact cons trivial (fun _ => rfl) (allOwn_nodeFindings region ns seen)
    · exact allOwn_nodeFindings region ns _

theorem allOwn_statementFindings (memories : List Memory) :
    ∀ (ss : List Source.Statement) (regions : List String),
      AllOwn (ss.filterMap (·.setting?) = []) (statementFindings memories regions ss)
  | [], _ => nil
  | ⟨.array _, _⟩ :: ss, regions => allOwn_statementFindings memories ss regions
  | ⟨.setting name value, _⟩ :: ss, regions =>
    ((allOwn_settingFindings name value).of_not (List.cons_ne_nil _ _)).append
      ((allOwn_statementFindings memories ss regions).of_not (List.cons_ne_nil _ _))
  | ⟨.loop _ _, _⟩ :: ss, regions =>
    ((allOwn_headFindings _ _).append (allOwn_bodyFindings memories _ _)).append
      (allOwn_statementFindings memories ss regions)
  | ⟨.region name nodes, _⟩ :: ss, regions => by
    simp only [statementFindings]
    split
    · exact cons trivial (fun _ => rfl) (allOwn_statementFindings memories ss regions)
    · exact (allOwn_nodeFindings _ _ _).append (allOwn_statementFindings memories ss _)

theorem own_findings (p : Source.Program) :
    AllOwn (p.statements.filterMap (·.setting?) = []) (findings p) :=
  (allOwn_arrayFindings _ _).append (allOwn_statementFindings _ _ _)

/-- What is wrong with a program is its own fault. -/
theorem allOwn_findings (p : Source.Program) : ∀ f ∈ findings p, f.issue.IsOwn :=
  fun f hf => (own_findings p f hf).1

/-- Without settings there is nothing to warn of. -/
theorem isError_of_mem_findings {p : Source.Program} (hp : p.statements.filterMap (·.setting?) = [])
    {f : Finding} (hf : f ∈ findings p) : f.isError = true :=
  (own_findings p f hf).2 hp

end Bankflow
