import Bankflow.Proofs.Compile.Frame
import Bankflow.Proofs.Design.Spans

/-!
# Diagnostics point into the source

A finding `Points` into a source if its span lies within the source and, where it is about a
name, has this name. What is found in a program does, since its names are tokens, and so do
syntax errors and what the later passes find, which are at spans of the program.

The message of a finding about a name quotes this name first (`firstQuoted_message`). So a
reader of a diagnostic finds what it names where it points (`diagnostics_point_into_source`).
-/

namespace Bankflow

open Source (Holds lex parse)

/-- The text between the first two quotes of a message. -/
def firstQuoted (message : String) : String :=
  .ofList (((message.toList.dropWhile (· ≠ '\'')).drop 1).takeWhile (· ≠ '\''))

theorem firstQuoted_eq {before name after : String} (hbefore : '\'' ∉ before.toList)
    (hname : '\'' ∉ name.toList) : firstQuoted (before ++ quoted name ++ after) = name := by
  have hskip : ∀ c ∈ before.toList, (c ≠ '\'' : Bool) = true := by
    intro c hc
    exact decide_eq_true fun h => hbefore (h ▸ hc)
  have hkeep : ∀ c ∈ name.toList, (c ≠ '\'' : Bool) = true := by
    intro c hc
    exact decide_eq_true fun h => hname (h ▸ hc)
  have hchars : (before ++ quoted name ++ after).toList =
      before.toList ++ '\'' :: (name.toList ++ '\'' :: after.toList) := by
    simp [quoted]
  rw [firstQuoted, hchars, List.dropWhile_append_of_pos hskip,
    List.dropWhile_cons_of_neg (by decide), List.drop_one, List.tail_cons,
    List.takeWhile_append_of_pos hkeep, List.takeWhile_cons_of_neg (by decide), List.append_nil,
    String.ofList_toList]

namespace Issue

variable {i : Issue} {name : String}

/-- Issues about names have codes of their own. -/
theorem code_mem_iff : i.code ∈ [some "E0100", some "E0101", some "E0102", some "E0106"] ↔
    i.subject?.isSome = true := by
  cases i <;> simp [code, subject?]

theorem exists_message_eq (h : i.subject? = some name) :
    ∃ before after, i.message = before ++ quoted name ++ after ∧ '\'' ∉ before.toList := by
  cases i <;> cases h
  · exact ⟨"unknown array ", "", String.append_empty.symm, by simp⟩
  · exact ⟨"unknown induction variable ", "", String.append_empty.symm, by simp⟩
  · exact ⟨"duplicate array ", "", String.append_empty.symm, by simp⟩
  · exact ⟨"induction variable ", " shadows an enclosing loop", rfl, by simp⟩
  · exact ⟨"duplicate region ", "", String.append_empty.symm, by simp⟩
  · next region _ =>
    exact ⟨"node ", " declared twice in region " ++ quoted region, String.append_assoc, by simp⟩

/-- A message quotes the name that it is about first. -/
theorem firstQuoted_message (h : i.subject? = some name) (hname : '\'' ∉ name.toList) :
    firstQuoted i.message = name := by
  obtain ⟨before, after, hmessage, hbefore⟩ := exists_message_eq h
  rw [hmessage, firstQuoted_eq hbefore hname]

end Issue

/-! ## Findings -/

variable {source : String} {f : Finding}

/-- The finding lies within the source, and has the name that it is about. -/
structure Finding.Points (source : String) (f : Finding) : Prop where
  within : f.span.Within source
  subject : ∀ name, f.issue.subject? = some name →
    (∃ before after, Holds source f.span before name.toList after) ∧ '\'' ∉ name.toList

theorem Finding.At.points (h : f.At (lex source).tokens) : f.Points source where
  within := h.covered.within
  subject name hname := Source.Ident.holds (h.subject name hname)

theorem points_of_within {issue : Issue} {span : Span} (hspan : span.Within source)
    (hissue : issue.subject? = none) : Finding.Points source ⟨issue, span⟩ where
  within := hspan
  subject _ hname := nomatch hissue.symm.trans hname

/-- What passes find is at spans of the program. -/
theorem FoundAt.points {p : Source.Program} (hp : (parse source).program = some p)
    (h : FoundAt p f) : f.Points source := by
  obtain ⟨hwritten, hspan⟩ := Source.writtenIn_of_parse hp
  have hgraph := spansIn_ofProgram hwritten
  cases h with
  | node x hx => exact points_of_within (hgraph.nodes x hx).within rfl
  | region r hr => exact points_of_within (hgraph.regions r hr).within rfl
  | whole issue hissue =>
    refine points_of_within (hspan ▸ Source.within_tokensSpan source) ?_
    cases hissue <;> rfl

theorem points_of_mem_findings {overrides : Options} {target : Target}
    (hf : f ∈ (compile source overrides target).findings) : f.Points source := by
  rcases compile_cases source overrides with ⟨p, hp, hcompile⟩ | hunparsed
  · rw [hcompile] at hf
    rcases (State.kept_run p overrides target.passes_ne_nil).2 f hf with hf | hf
    · exact (allAt_findings (Source.writtenIn_of_parse hp).1 f hf).points
    · exact hf.points hp
  · rw [hunparsed] at hf
    obtain ⟨e, he, rfl⟩ := List.mem_map.mp hf
    exact points_of_within (Source.within_of_mem_errors he) rfl

/-- Diagnostics point into the source. For every source, options and target, the span of each
diagnostic lies within the source, and begins and ends between characters. Where a diagnostic
is about an unknown name or one that is used again, the text at its span is the name that its
message quotes first. -/
theorem diagnostics_point_into_source (source : String) (overrides : Options) (target : Target) :
    ∀ d ∈ (compile source overrides target).findings.map Finding.diagnostic,
      d.span.Within source ∧
        (d.code ∈ [some "E0100", some "E0101", some "E0102", some "E0106"] →
          ∃ before after, Holds source d.span before (firstQuoted d.message).toList after) := by
  intro d hd
  obtain ⟨f, hf, rfl⟩ := List.mem_map.mp hd
  have hpoints := points_of_mem_findings hf
  refine ⟨hpoints.within, fun hcode => ?_⟩
  obtain ⟨name, hname⟩ := Option.isSome_iff_exists.mp (Issue.code_mem_iff.mp hcode)
  obtain ⟨hholds, hquote⟩ := hpoints.subject name hname
  have hmessage : firstQuoted f.diagnostic.message = name := Issue.firstQuoted_message hname hquote
  rw [hmessage]
  exact hholds

/-- An array that is not declared, after a comment with a character of two bytes. -/
def accented : String := "#é\nloop i=0 to 2 \x7bread B[i]\x7d"

theorem accented_points_at_name :
    ∃ d ∈ (compile accented {} .layout).findings.map Finding.diagnostic,
      d.code = some "E0100" ∧ d.span = ⟨24, 25⟩ ∧ d.span.Within accented ∧
        ∃ before after, Holds accented d.span before "B".toList after := by
  have heval : (compile accented {} .layout).findings = [⟨.unknownArray "B", ⟨24, 25⟩⟩] := by
    decide +kernel
  have hd : Finding.diagnostic ⟨.unknownArray "B", ⟨24, 25⟩⟩ ∈
      (compile accented {} .layout).findings.map Finding.diagnostic := by
    rw [heval]
    exact List.mem_cons_self
  obtain ⟨hwithin, hholds⟩ := diagnostics_point_into_source accented {} .layout _ hd
  have hname : firstQuoted (Issue.unknownArray "B").message = "B" :=
    Issue.firstQuoted_message rfl (by simp)
  exact ⟨_, hd, rfl, rfl, hwithin, hname ▸ hholds List.mem_cons_self⟩

end Bankflow
