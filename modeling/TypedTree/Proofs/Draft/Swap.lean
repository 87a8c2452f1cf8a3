import TypedTree.Proofs.Draft.Recorded
import TypedTree.Proofs.Program.Describes
import TypedTree.Proofs.Index.Agree

/-!
# Swapping calls

`Op.target?` is the place that a call writes to: a property and the index of a position. Two
calls are `Independent` if they write to different places. When two such calls that follow
each other change places, no index of a table gets other pairs, so the tables agree
(`agrees_run_swap`), and the rest of the draft is the same (`bare_run_swap`). The check sees
no more of the tables than their entries (`PropertyTables.Agrees.check_eq_ok`), hence the
draft yields a program as before, and one with the same answers.
-/

namespace TypedTree

open Indexed (index)

structure PropertyTables.Agrees (t t' : PropertyTables) : Prop where
  imports : t.imports.Agrees t'.imports
  declTypes : t.declTypes.Agrees t'.declTypes
  exprTypes : t.exprTypes.Agrees t'.exprTypes
  implicitCaptures : t.implicitCaptures.Agrees t'.implicitCaptures
  environments : t.environments.Agrees t'.environments
  synthesized : t.synthesized.Agrees t'.synthesized
  references : t.references.Agrees t'.references
  folded : t.folded.Agrees t'.folded

namespace PropertyTables.Agrees

variable {t t' : PropertyTables} {a : Arena} {p : TypePool}

theorem forall_mem_guarded_iff (h : t.Agrees t') {q : NodeId → Prop} :
    (∀ id ∈ t.guarded, q id) ↔ ∀ id ∈ t'.guarded, q id := by
  simp only [guarded, forall_mem_identsWith, Table.keys, List.forall_mem_map,
    h.imports.mem_entries_iff, h.declTypes.mem_entries_iff, h.exprTypes.mem_entries_iff,
    h.implicitCaptures.mem_entries_iff, h.environments.mem_entries_iff,
    h.synthesized.mem_entries_iff, h.references.mem_entries_iff, h.folded.mem_entries_iff]

theorem isChecked_eq (h : t.Agrees t') (m : IdentOf .moduleDecl) :
    t.isChecked p m = t'.isChecked p m := by
  rw [isChecked, isChecked, h.declTypes.get?_eq]

theorem describes (h : t.Agrees t') (ht : t.Describes a p) : t'.Describes a p where
  checked m hm := h.isChecked_eq m ▸ ht.checked m hm
  known := h.forall_mem_guarded_iff.1 ht.known
  typedDecls d hd := h.declTypes.contains_eq d ▸ ht.typedDecls d hd
  typedExprs e he := h.exprTypes.contains_eq e ▸ ht.typedExprs e he
  resolved n hn := h.references.contains_eq n ▸ ht.resolved n hn

theorem check_eq_ok (h : t.Agrees t') {validation : Validation}
    (ht : t.check a p validation = .ok ()) : t'.check a p validation = .ok () := by
  cases validation with
  | full => exact check_full_eq_ok_iff.2 (h.describes (check_full_eq_ok_iff.1 ht))
  | modulesOnly =>
      refine checkModules_eq_ok_iff.2 fun m hm => ?_
      rw [← h.isChecked_eq]
      exact checkModules_eq_ok_iff.1 ht m hm

end PropertyTables.Agrees

/-- No query tells the two programs apart. -/
structure TypedProgram.SameAnswers (p q : TypedProgram) : Prop where
  source : p.source = q.source
  pool : p.pool = q.pool
  relations : p.relations = q.relations
  declaredType : p.declaredType = q.declaredType
  exprType : p.exprType = q.exprType
  implicitCaptures? : p.implicitCaptures? = q.implicitCaptures?
  environment? : p.environment? = q.environment?
  synthesizedDecls : p.synthesizedDecls = q.synthesizedDecls
  imports : p.imports = q.imports
  referredDecl : p.referredDecl = q.referredDecl
  folded? : p.folded? = q.folded?
  capturesOfFunction : p.capturesOfFunction = q.capturesOfFunction
  capturesOfSubscript : p.capturesOfSubscript = q.capturesOfSubscript
  capturesOfSubscriptImpl : p.capturesOfSubscriptImpl = q.capturesOfSubscriptImpl

theorem TypedProgram.sameAnswers_of_agrees {source : ScopedProgram} {pool : TypePool}
    {r : Relations} {t t' : PropertyTables} (h : t.Agrees t') :
    SameAnswers ⟨source, pool, t, r⟩ ⟨source, pool, t', r⟩ := by
  have hlist : captureList ⟨source, pool, t, r⟩ = captureList ⟨source, pool, t', r⟩ := by
    funext owner receiver explicit
    cases receiver with
    | some r => rfl
    | none => simp only [captureList, h.implicitCaptures.get?_eq]
  have hsubscript : capturesOfSubscript ⟨source, pool, t, r⟩ =
      capturesOfSubscript ⟨source, pool, t', r⟩ := by
    funext d
    rw [capturesOfSubscript, capturesOfSubscript, hlist]
    rfl
  constructor
  case capturesOfFunction =>
    funext d
    rw [capturesOfFunction, capturesOfFunction, hlist]
    rfl
  case capturesOfSubscript => exact hsubscript
  case capturesOfSubscriptImpl =>
    funext d
    rw [capturesOfSubscriptImpl, capturesOfSubscriptImpl, hsubscript]
    rfl
  case declaredType => funext d; rw [declaredType, declaredType, h.declTypes.get?_eq]
  case exprType => funext e; rw [exprType, exprType, h.exprTypes.get?_eq]
  case implicitCaptures? => funext d; exact h.implicitCaptures.get?_eq d
  case environment? => funext d; exact h.environments.get?_eq d
  case synthesizedDecls => funext m; rw [synthesizedDecls, synthesizedDecls, h.synthesized.get?_eq]
  case imports => funext u; rw [imports, imports, h.imports.get?_eq]
  case referredDecl => funext n; rw [referredDecl, referredDecl, h.references.get?_eq]
  case folded? => funext s; exact h.folded.get?_eq s
  all_goals rfl

namespace Draft

/-- What a call that writes one value records. -/
inductive Property where
  | declType
  | exprType
  | imports
  | implicitCaptures
  | environment
  | reference
  | folded
  deriving DecidableEq

namespace Op

/-- Where the call writes, if it writes to one place only. -/
def target? : Op → Option (Property × Nat)
  | .setDeclType decl _ => some (.declType, decl.index)
  | .setExprType expr _ => some (.exprType, expr.index)
  | .addImport unit _ => some (.imports, unit.index)
  | .setImplicitCaptures decl _ => some (.implicitCaptures, decl.index)
  | .setEnvironment decl _ => some (.environment, decl.index)
  | .setReference name _ => some (.reference, name.index)
  | .setFolded sequence _ => some (.folded, sequence.index)
  | _ => none

/-- The two calls write to one place each, and not to the same. -/
def Independent (x y : Op) : Prop := ∃ i ∈ x.target?, ∃ j ∈ y.target?, i ≠ j

variable {x y : Op}

theorem Independent.isSome_left (h : x.Independent y) : x.target?.isSome := by
  obtain ⟨i, hi, -⟩ := h
  exact Option.isSome_of_mem hi

theorem Independent.isSome_right (h : x.Independent y) : y.target?.isSome := by
  obtain ⟨-, -, j, hj, -⟩ := h
  exact Option.isSome_of_mem hj

theorem Independent.index_ne {κ β : Type} [Indexed κ] (h : x.Independent y)
    {f : Op → Option (κ × β)} {q : Property}
    (hf : ∀ op, ∀ e ∈ f op, op.target? = some (q, index e.1)) :
    ∀ e ∈ f x, ∀ e' ∈ f y, index e.1 ≠ index e'.1 := by
  intro e he e' he' heq
  obtain ⟨i, hi, j, hj, hne⟩ := h
  rw [hf x e he, Option.mem_some_iff] at hi
  rw [hf y e' he', Option.mem_some_iff] at hj
  exact hne (by rw [← hi, ← hj, heq])

end Op

section Swap

variable {x y : Op} {before after : List Op}

theorem pairsAt_filterMap_swap {κ β : Type} [Indexed κ] (h : x.Independent y)
    {f : Op → Option (κ × β)} {q : Property}
    (hf : ∀ op, ∀ e ∈ f op, op.target? = some (q, index e.1)) (k : κ) :
    pairsAt ((before ++ x :: y :: after).filterMap f) k =
      pairsAt ((before ++ y :: x :: after).filterMap f) k := by
  simp only [List.filterMap_append, filterMap_cons_eq_append]
  exact pairsAt_swap (h.index_ne hf) _ _ k

theorem requests_cons_of_target? (h : x.target?.isSome) (ops : List Op) :
    requests (x :: ops) = requests ops := by
  cases x <;> first | rfl | cases h

theorem declTypes_cons_of_target? (h : x.target?.isSome) (next : Nat) (ops : List Op) :
    declTypes next (x :: ops) = x.declType?.toList ++ declTypes next ops := by
  cases x <;> first | rfl | cases h

theorem requests_swap (h : x.Independent y) :
    requests (before ++ x :: y :: after) = requests (before ++ y :: x :: after) := by
  simp only [requests_append, requests_cons_of_target? h.isSome_left,
    requests_cons_of_target? h.isSome_right]

theorem pairsAt_declTypes_swap (h : x.Independent y) (next : Nat) (k : DeclId) :
    pairsAt (declTypes next (before ++ x :: y :: after)) k =
      pairsAt (declTypes next (before ++ y :: x :: after)) k := by
  simp only [declTypes_append, declTypes_cons_of_target? h.isSome_left,
    declTypes_cons_of_target? h.isSome_right]
  refine pairsAt_swap (h.index_ne (q := .declType) fun op e he => ?_) _ _ k
  cases op <;> cases he
  rfl

theorem agrees_writeAll_swap {κ β : Type} [Indexed κ] (h : x.Independent y)
    {f : Op → Option (κ × β)} {q : Property}
    (hf : ∀ op, ∀ e ∈ f op, op.target? = some (q, index e.1)) (t : Table κ β) :
    (t.writeAll ((before ++ x :: y :: after).filterMap f)).Agrees
      (t.writeAll ((before ++ y :: x :: after).filterMap f)) :=
  Table.agrees_writeAll t (pairsAt_filterMap_swap h hf)

theorem agrees_run_swap (h : x.Independent y) (d : Draft) :
    (d.run (before ++ x :: y :: after)).properties.Agrees
      (d.run (before ++ y :: x :: after)).properties := by
  constructor
  case declTypes =>
    rw [declTypes_run, declTypes_run]
    exact Table.agrees_writeAll _ (pairsAt_declTypes_swap h _)
  case synthesized =>
    rw [synthesized_run, synthesized_run, requests_swap h]
    exact .rfl
  case imports =>
    rw [imports_run, imports_run]
    exact Table.agrees_gatherAll _ (pairsAt_filterMap_swap h (q := .imports)
      fun op e he => by cases op <;> cases he; rfl)
  case exprTypes =>
    rw [exprTypes_run, exprTypes_run]
    exact agrees_writeAll_swap h (q := .exprType) (fun op e he => by cases op <;> cases he; rfl) _
  case implicitCaptures =>
    rw [implicitCaptures_run, implicitCaptures_run]
    exact agrees_writeAll_swap h (q := .implicitCaptures)
      (fun op e he => by cases op <;> cases he; rfl) _
  case environments =>
    rw [environments_run, environments_run]
    exact agrees_writeAll_swap h (q := .environment)
      (fun op e he => by cases op <;> cases he; rfl) _
  case references =>
    rw [references_run, references_run]
    exact agrees_writeAll_swap h (q := .reference)
      (fun op e he => by cases op <;> cases he; rfl) _
  case folded =>
    rw [folded_run, folded_run]
    exact agrees_writeAll_swap h (q := .folded) (fun op e he => by cases op <;> cases he; rfl) _

/-- The draft without its tables. -/
def bare (d : Draft) : Draft := { d with properties := ∅ }

theorem bare_run (d : Draft) (ops : List Op) : (d.run ops).bare = (d.bare.run ops).bare := by
  induction ops generalizing d with
  | nil => rfl
  | cons op ops ih =>
      -- what a call makes of the rest of the draft does not depend on the tables
      have hstep : (d.apply op).bare = (d.bare.apply op).bare := by cases op <;> rfl
      change ((d.apply op).run ops).bare = ((d.bare.apply op).run ops).bare
      rw [ih, hstep, ← ih]

theorem bare_apply_of_target? (h : x.target?.isSome) (d : Draft) : (d.apply x).bare = d.bare := by
  cases x <;> first | rfl | cases h

theorem bare_run_swap (h : x.Independent y) (d : Draft) :
    (d.run (before ++ x :: y :: after)).bare = (d.run (before ++ y :: x :: after)).bare := by
  have hrun (op op' : Op) : d.run (before ++ op :: op' :: after) =
      (((d.run before).apply op).apply op').run after := by
    simp only [run, List.foldl_append, List.foldl_cons]
  have hswap : (((d.run before).apply x).apply y).bare =
      (((d.run before).apply y).apply x).bare := by
    rw [bare_apply_of_target? h.isSome_right, bare_apply_of_target? h.isSome_left,
      bare_apply_of_target? h.isSome_left, bare_apply_of_target? h.isSome_right]
  rw [hrun, hrun, bare_run, hswap, ← bare_run]

end Swap

variable {source : ScopedProgram} {pool : TypePool} {ops : List Op} {r : Relations}
  {p : TypedProgram}

/-- Drafts that differ by the listing of their tables at most yield programs with the same
answers. -/
theorem exists_finish?_of_agrees {d d' : Draft} (hbare : d.bare = d'.bare)
    (hagrees : d.properties.Agrees d'.properties) (hp : d.finish? r = .ok p) :
    ∃ q, d'.finish? r = .ok q ∧ p.SameAnswers q := by
  have hsource : d.source = d'.source := (congrArg Draft.source hbare :)
  have hpool : d.pool = d'.pool := (congrArg Draft.pool hbare :)
  have hvalidation : d.validation = d'.validation := (congrArg Draft.validation hbare :)
  have herrors : d.errors = d'.errors := (congrArg Draft.errors hbare :)
  rw [finish?_eq_ok_iff, hsource, hpool, hvalidation, herrors,
    TypedProgram.ofParts?_eq_ok_iff] at hp
  obtain ⟨hnone, hcheck, rfl⟩ := hp
  refine ⟨_, finish?_eq_ok_iff.2 ⟨hnone, ?_⟩, TypedProgram.sameAnswers_of_agrees hagrees⟩
  exact TypedProgram.ofParts?_eq_ok_iff.2 ⟨hagrees.check_eq_ok hcheck, rfl⟩

/-- A program that a run yields answers what the log of the run says, and still does when two
independent calls change places. -/
theorem answers_of_finish? (hp : ((start source pool).run ops).finish? r = .ok p) :
    p.Answers source ops ∧
      ∀ before x y after, ops = before ++ x :: y :: after → x.Independent y →
        ∃ q, ((start source pool).run (before ++ y :: x :: after)).finish? r = .ok q ∧
          p.SameAnswers q := by
  refine ⟨answers_of_finish?_eq_ok hp, ?_⟩
  rintro before x y after rfl h
  exact exists_finish?_of_agrees (bare_run_swap h _) (agrees_run_swap h _) hp

section Forged

open ScopedProgram (scopedLambda)

/-- Gives types to the module and to a copy operation of `boundLambda` by keys that claim to
be other declarations, and imports two modules in descending order. -/
def forgedKeys : List Op :=
  [.setValidation .modulesOnly,
    .intern (.module (.ofIndex .moduleDecl 9)),
    .setDeclType (IdentOf.ofIndex .parameterDecl 9).widen ⟨7⟩,
    .setExprType (IdentOf.ofIndex .nameExpr 3).widen ⟨3⟩,
    .synthesize ⟨.ofIndex .moduleDecl 9, .copy, ⟨3⟩,
      (IdentOf.ofIndex .translationUnit 8).widen⟩,
    .setDeclType (IdentOf.ofIndex .varDecl 10).widen ⟨4⟩,
    .addImport (.ofIndex .translationUnit 8) (.ofIndex .moduleDecl 9),
    .addImport (.ofIndex .translationUnit 8) (.ofIndex .moduleDecl 2)]

def forgedDraft : Draft := (start scopedLambda .new).run forgedKeys

theorem finish?_forgedDraft :
    forgedDraft.finish? (∅ : RelationTable).relations =
      .ok ⟨forgedDraft.source, forgedDraft.pool, forgedDraft.properties,
        (∅ : RelationTable).relations⟩ := by
  have hcheck : forgedDraft.properties.check forgedDraft.source.arena forgedDraft.pool
      .modulesOnly = .ok () := PropertyTables.checkModules_eq_ok_iff.2 (by decide +kernel)
  exact finish?_eq_ok_iff.2 ⟨rfl, TypedProgram.ofParts?_eq_ok_iff.2 ⟨hcheck, rfl⟩⟩

/-- The copy operation has the type that was set last, and the modules are imported in
ascending order. The types of the module and of the name can be set in either order. -/
theorem answers_forgedKeys :
    ∃ p, forgedDraft.finish? (∅ : RelationTable).relations = .ok p ∧
      p.Answers scopedLambda forgedKeys ∧
      lastAt (declTypes 10 forgedKeys) (IdentOf.ofIndex .synthesizedDecl 10).widen = some ⟨4⟩ ∧
      p.imports (.ofIndex .translationUnit 8) =
        [.ofIndex .moduleDecl 2, .ofIndex .moduleDecl 9] ∧
      ∃ q, ((start scopedLambda .new).run (forgedKeys.take 2 ++
          [.setExprType (IdentOf.ofIndex .nameExpr 3).widen ⟨3⟩,
            .setDeclType (IdentOf.ofIndex .parameterDecl 9).widen ⟨7⟩] ++
          forgedKeys.drop 4)).finish? (∅ : RelationTable).relations = .ok q ∧
        p.SameAnswers q := by
  obtain ⟨hanswers, hswap⟩ := answers_of_finish? finish?_forgedDraft
  exact ⟨_, finish?_forgedDraft, hanswers, by decide, by decide +kernel,
    hswap (forgedKeys.take 2) _ _ (forgedKeys.drop 4) rfl ⟨_, rfl, _, rfl, by decide⟩⟩

end Forged

end Draft

end TypedTree
