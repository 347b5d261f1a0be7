import ExtensionCompiler.Stmt.Emission

set_option autoImplicit false

/-! # Values that need lines around them

Branches and loops ask `Expr.needsTemp` whether a condition can be written in place or needs lines
before and after it. The answer is exact: a value has steps before it just if it has steps after it,
and `needsTemp` says so (`Expr.evaluation_eq_nil_iff`, `Expr.disposal_eq_nil_iff`). Every step is a
line of its own, so the same can be read off the text that is written
(`Expr.writes_iff_needsTemp`). -/

namespace ExtensionCompiler

/-! ## The text of steps -/

namespace C.Writer

theorem text_write (w : Writer) (s : String) : ∃ text, (w.write s).text = w.text ++ text := by
  unfold write
  split
  · exact ⟨"", String.append_empty.symm⟩
  · split
    · exact ⟨Text.repeated (w.level * w.layout.width) ' ' ++ s, String.append_assoc⟩
    · exact ⟨s, rfl⟩

/-- A line adds to the text, if only its end. -/
theorem text_line (w : Writer) (s : String) :
    ∃ text, (w.line s).text = w.text ++ text ∧ text ≠ "" := by
  obtain ⟨text, htext⟩ := w.text_write s
  refine ⟨text ++ "\n", ?_, by simp⟩
  calc (w.line s).text
      _ = (w.write s).text ++ "\n" := rfl
      _ = w.text ++ (text ++ "\n") := by rw [htext, String.append_assoc]

end C.Writer

theorem Step.code_eq_assign (step : Step) : ∃ target value, step.code = .assign target value := by
  cases step with
  | dispatch temp receiver method args | release temp => exact ⟨_, _, rfl⟩

/-- Steps only add to the text, and add something unless there are none. -/
theorem Step.text_writeAll (steps : List Step) (w : C.Writer) :
    ∃ text, (C.Code.writeAll (steps.map Step.code) w).text = w.text ++ text
      ∧ (text = "" ↔ steps = []) := by
  induction steps generalizing w with
  | nil => exact ⟨"", String.append_empty.symm, by simp⟩
  | cons step rest ih =>
      obtain ⟨target, value, hcode⟩ := step.code_eq_assign
      obtain ⟨first, hfirst, hne⟩ := w.text_line (target.render ++ " = " ++ value.render ++ ";")
      obtain ⟨others, hothers, -⟩ := ih (step.code.write w)
      refine ⟨first ++ others, ?_, by simp [hne]⟩
      rw [List.map_cons, C.Code.writeAll, hothers, hcode, C.Code.write, hfirst, String.append_assoc]

/-! ## When there are steps -/

namespace Expr

mutual

/-- By recursion on the value. A call to the host is a step on both sides; anything else has the
steps of its operands. -/
theorem steps_eq_nil_iff : (e : Expr) → (e.evaluation = [] ↔ e.needsTemp = false)
    ∧ (e.disposal = [] ↔ e.needsTemp = false)
  | .literal _ _ | .name _ _ _ _ => by simp [evaluation, disposal, needsTemp]
  | .element _ _ _ index => by
      rw [evaluation, disposal, needsTemp]
      exact steps_eq_nil_iff index
  | .unary _ _ operand temp => by
      cases temp with
      | none => simp [evaluation, disposal, needsTemp, steps_eq_nil_iff operand]
      | some temp => simp [evaluation, disposal, needsTemp]
  | .binary _ left _ right temp => by
      cases temp with
      | none =>
          simp [evaluation, disposal, needsTemp, steps_eq_nil_iff left, steps_eq_nil_iff right]
      | some temp => simp [evaluation, disposal, needsTemp]
  | .call _ _ _ args => by
      rw [evaluation, disposal, needsTemp]
      exact stepsAll_eq_nil_iff args

theorem stepsAll_eq_nil_iff : (args : List Expr) →
    (evaluationAll args = [] ↔ anyNeedsTemp args = false)
      ∧ (disposalAll args = [] ↔ anyNeedsTemp args = false)
  | [] => by simp [evaluationAll, disposalAll, anyNeedsTemp]
  | e :: rest => by
      simp [evaluationAll, disposalAll, anyNeedsTemp, steps_eq_nil_iff e, stepsAll_eq_nil_iff rest]

end

theorem evaluation_eq_nil_iff (e : Expr) : e.evaluation = [] ↔ e.needsTemp = false :=
  e.steps_eq_nil_iff.1

theorem disposal_eq_nil_iff (e : Expr) : e.disposal = [] ↔ e.needsTemp = false :=
  e.steps_eq_nil_iff.2

/-- **`needsTemp` is exact.** Whatever a writer has written, the lines before a value add text to it
just if the value needs a temporary, and so do the lines after it. -/
theorem writes_iff_needsTemp (e : Expr) (w : C.Writer) :
    (∃ text, (C.Code.writeAll e.evaluate w).text = w.text ++ text
        ∧ (text ≠ "" ↔ e.needsTemp = true))
      ∧ ∃ text, (C.Code.writeAll e.dispose w).text = w.text ++ text
        ∧ (text ≠ "" ↔ e.needsTemp = true) := by
  obtain ⟨before, hbefore, hevaluation⟩ := Step.text_writeAll e.evaluation w
  obtain ⟨after, hafter, hdisposal⟩ := Step.text_writeAll e.disposal w
  refine ⟨⟨before, hbefore, ?_⟩, after, hafter, ?_⟩
  · rw [ne_eq, hevaluation, evaluation_eq_nil_iff, Bool.not_eq_false]
  · rw [ne_eq, hdisposal, disposal_eq_nil_iff, Bool.not_eq_false]

end Expr

end ExtensionCompiler
