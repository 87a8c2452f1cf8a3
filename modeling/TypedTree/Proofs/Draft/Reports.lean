import TypedTree.Proofs.Draft.Recorded
import TypedTree.Proofs.Draft.Totality

/-!
# Errors that a run reports

A draft decides by its errors whether it yields a program, and tells which modules have failed
by a set of its own. `HasReports` couples the two: both are what one log of reports says. It
holds of a new draft with the empty log, and each call keeps it, with its own report at the end
of the log (`HasReports.apply`). So no later call hides a report or changes the order of the
errors, and a draft has a failed module exactly if it has an error (`finish?_run`).
-/

namespace TypedTree

namespace Draft

namespace Op

def report? : Op → Option (IdentOf .moduleDecl × TypeError)
  | .report module error => some (module, error)
  | _ => none

def validation? : Op → Option Validation
  | .setValidation validation => some validation
  | _ => none

end Op

def reports (ops : List Op) : List (IdentOf .moduleDecl × TypeError) :=
  ops.filterMap Op.report?

/-- The checks that a run asks for last. -/
def validationOf (ops : List Op) : Validation :=
  (ops.filterMap Op.validation?).getLast?.getD .full

variable {d : Draft} {log : List (IdentOf .moduleDecl × TypeError)} {m : IdentOf .moduleDecl}

/-- The errors of the draft and its failed modules are those of the log. -/
structure HasReports (d : Draft) (log : List (IdentOf .moduleDecl × TypeError)) : Prop where
  errors : d.errors = log.map Prod.snd
  failed : d.failed = .ofList (log.map Prod.fst)

theorem hasReports_start (source : ScopedProgram) (pool : TypePool) :
    (start source pool).HasReports [] :=
  ⟨rfl, rfl⟩

theorem mem_reports_iff {ops : List Op} {error : TypeError} :
    (m, error) ∈ reports ops ↔ .report m error ∈ ops := by
  have hop (op : Op) : op.report? = some (m, error) ↔ op = .report m error := by
    cases op <;> simp [Op.report?]
  simp only [reports, List.mem_filterMap, hop, exists_eq_right]

theorem HasReports.apply (h : d.HasReports log) (op : Op) :
    (d.apply op).HasReports (log ++ op.report?.toList) := by
  cases op with
  | report module error =>
      constructor
      · change d.errors ++ [error] = _
        rw [h.errors]
        simp [Op.report?]
      · change d.failed.insert module = _
        rw [h.failed]
        simp [Op.report?, IndexSet.ofList]
  | _ =>
      change HasReports _ (log ++ [])
      rw [List.append_nil]
      exact ⟨h.errors, h.failed⟩

theorem HasReports.run (h : d.HasReports log) (ops : List Op) :
    (d.run ops).HasReports (log ++ reports ops) := by
  induction ops generalizing d log with
  | nil => exact (List.append_nil log).symm ▸ h
  | cons op ops ih =>
      have hops := ih (h.apply op)
      rw [List.append_assoc, reports, ← filterMap_cons_eq_append] at hops
      exact hops

theorem HasReports.mem_failed_iff (h : d.HasReports log) :
    m ∈ d.failed.toList ↔ ∃ e, (m, e) ∈ log := by
  rw [h.failed, IndexSet.ofList, IndexSet.mem_foldl_insert_iff]
  simp

theorem HasReports.hasFailed_iff (h : d.HasReports log) :
    d.hasFailed m = true ↔ ∃ e, (m, e) ∈ log := by
  rw [hasFailed, IndexSet.contains_iff_mem, h.mem_failed_iff]

theorem HasReports.exists_hasFailed_iff (h : d.HasReports log) :
    (∃ m, d.hasFailed m = true) ↔ d.errors ≠ [] := by
  simp only [h.hasFailed_iff, h.errors, ne_eq, List.map_eq_nil_iff]
  constructor
  · intro hm hnil
    rcases hm with ⟨m, e, hmem⟩
    simp [hnil] at hmem
  · intro hlog
    rcases List.exists_mem_of_ne_nil log hlog with ⟨⟨m, e⟩, hmem⟩
    exact ⟨m, e, hmem⟩

theorem validation_run (d : Draft) (ops : List Op) :
    (d.run ops).validation = (ops.filterMap Op.validation?).getLast?.getD d.validation := by
  induction ops generalizing d with
  | nil => rfl
  | cons op ops ih =>
      change ((d.apply op).run ops).validation = _
      rw [ih]
      cases op with
      | setValidation validation =>
          change _ = (validation :: ops.filterMap Op.validation?).getLast?.getD d.validation
          rw [List.getLast?_cons]
          rfl
      | _ => rfl

theorem finish?_of_errors_ne_nil (h : d.errors ≠ []) (r : Relations) :
    d.finish? r = .error (.typeErrors d.errors d.failed .reported) := by
  have hpos : 0 < d.errors.length := List.length_pos_iff.2 h
  rw [finish?, ErrorGuarantee.ofCount?, if_pos hpos]

theorem finish?_of_errors_eq_nil (h : d.errors = []) (r : Relations) :
    d.finish? r = (TypedProgram.ofParts? d.source d.pool d.properties r d.validation).mapError
      .construction := by
  rw [finish?, h]
  rfl

/-- After a report a run yields no program, but all errors in the order of the reports and
the modules that they were reported of. Without one, it yields what its parts make under the
checks that it asked for last. -/
theorem finish?_run (source : ScopedProgram) (pool : TypePool) (ops : List Op) (r : Relations) :
    let d := (start source pool).run ops
    (reports ops ≠ [] → ∃ failed guarantee,
        d.finish? r = .error (.typeErrors ((reports ops).map Prod.snd) failed guarantee) ∧
          ∀ m, m ∈ failed.toList ↔ ∃ e, .report m e ∈ ops) ∧
      (reports ops = [] → d.finish? r =
        (TypedProgram.ofParts? d.source d.pool d.properties r (validationOf ops)).mapError
          .construction) ∧
      ((∃ m, d.hasFailed m = true) ↔ d.errors ≠ []) := by
  intro d
  have h : d.HasReports (reports ops) := (hasReports_start source pool).run ops
  refine ⟨fun hreports => ?_, fun hreports => ?_, h.exists_hasFailed_iff⟩
  · have herrors : d.errors ≠ [] := by
      rw [h.errors]
      exact mt List.map_eq_nil_iff.1 hreports
    refine ⟨d.failed, .reported, ?_, fun m => ?_⟩
    · rw [finish?_of_errors_ne_nil herrors, h.errors]
    · simp only [h.mem_failed_iff, mem_reports_iff]
  · have herrors : d.errors = [] := by rw [h.errors, hreports, List.map_nil]
    have hvalidation : d.validation = validationOf ops := validation_run (start source pool) ops
    rw [finish?_of_errors_eq_nil herrors, hvalidation]

section CopyWithErrors

open ScopedProgram (scopedLambda)

def staleEquality : TypeError := ⟨.staleConstraint, ⟨.equality ⟨3⟩ ⟨4⟩, none, .dummy⟩⟩

def missingConformance : TypeError :=
  ⟨.doesNotConform ⟨3⟩ ∅ (.of .translationUnit 8), ⟨.conformance ⟨3⟩ ∅, none, .dummy⟩⟩

/-- The calls of `copyInUnit`, which leave complete tables, between reports of two modules. -/
def copyWithErrors : List Op :=
  .report (.ofIndex .moduleDecl 9) staleEquality :: copyInUnit ++
    [.report (.ofIndex .moduleDecl 2) missingConformance,
      .report (.ofIndex .moduleDecl 9) staleEquality]

/-- The same calls yield a program without the reports, and the errors with them. -/
theorem finish?_copyWithErrors :
    reports copyInUnit = [] ∧ (∃ p, copiedDraft.finish? (∅ : RelationTable).relations = .ok p) ∧
      copiedDraft.finish? (∅ : RelationTable).relations =
        (TypedProgram.ofParts? copiedDraft.source copiedDraft.pool copiedDraft.properties
          (∅ : RelationTable).relations .full).mapError .construction ∧
      reports copyWithErrors ≠ [] ∧
      ∃ failed guarantee,
        ((start scopedLambda .new).run copyWithErrors).finish? (∅ : RelationTable).relations =
          .error (.typeErrors [staleEquality, missingConformance, staleEquality] failed
            guarantee) ∧
        (∀ m, m ∈ failed.toList ↔ ∃ e, .report m e ∈ copyWithErrors) ∧
        ∃ m, ((start scopedLambda .new).run copyWithErrors).hasFailed m = true := by
  have hnone := finish?_run scopedLambda .new copyInUnit (∅ : RelationTable).relations
  have hsome := finish?_run scopedLambda .new copyWithErrors (∅ : RelationTable).relations
  have hreports : reports copyWithErrors ≠ [] := List.cons_ne_nil _ _
  rcases hsome.1 hreports with ⟨failed, guarantee, hfinish, hfailed⟩
  exact ⟨rfl, ⟨_, finish?_copiedDraft⟩, hnone.2.1 rfl, hreports, failed, guarantee, hfinish,
    hfailed, hsome.2.2.2 (List.cons_ne_nil _ _)⟩

end CopyWithErrors

end Draft

end TypedTree
