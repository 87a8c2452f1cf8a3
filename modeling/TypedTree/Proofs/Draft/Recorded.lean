import TypedTree.Program.View
import TypedTree.Proofs.Draft.Run
import TypedTree.Proofs.Index.Members

/-!
# What a run records

The calls of a run are its log, and what they record is read off the log: `Op.exprType?` and
its like are the pair that a call records in one of the tables, `declTypes` the types that
it gives to declarations. A table of the draft is what it was before the run with the pairs
of the log written to it (`table_run`). So a program made of the draft answers what the log
says (`TypedProgram.Answers`), by index and whatever kind an identity claims.
-/

namespace TypedTree

open Indexed (index)

namespace Draft

namespace Op

/-- The type that the call gives to a declaration that is there already. -/
def declType? : Op → Option (DeclId × TypeId)
  | .setDeclType decl ty => some (decl, ty)
  | _ => none

def exprType? : Op → Option (ExprId × TypeId)
  | .setExprType expr ty => some (expr, ty)
  | _ => none

def import? : Op → Option (IdentOf .translationUnit × IdentOf .moduleDecl)
  | .addImport unit module => some (unit, module)
  | _ => none

def implicitCaptures? : Op → Option (DeclId × List ImplicitCapture)
  | .setImplicitCaptures decl captures => some (decl, captures)
  | _ => none

def environment? : Op → Option (DeclId × GenericEnvironment)
  | .setEnvironment decl environment => some (decl, environment)
  | _ => none

def reference? : Op → Option (IdentOf .nameExpr × DeclReference)
  | .setReference name reference => some (name, reference)
  | _ => none

def folded? : Op → Option (IdentOf .sequenceExpr × Folded)
  | .setFolded sequence folded => some (sequence, folded)
  | _ => none

theorem import?_eq_some_iff {op : Op} {unit : IdentOf .translationUnit}
    {module : IdentOf .moduleDecl} :
    op.import? = some (unit, module) ↔ op = .addImport unit module := by
  cases op <;> simp [import?]

end Op

/-- The types that the calls give to declarations, those made by the calls included, if the
first of these takes the position `next` of the arena. -/
def declTypes (next : Nat) : List Op → List (DeclId × TypeId)
  | [] => []
  | .setDeclType decl ty :: ops => (decl, ty) :: declTypes next ops
  | .synthesize r :: ops =>
    ((IdentOf.ofIndex .synthesizedDecl next).widen, r.ty) :: declTypes (next + 1) ops
  | _ :: ops => declTypes next ops

theorem declTypes_append (next : Nat) (l l' : List Op) :
    declTypes next (l ++ l') = declTypes next l ++ declTypes (next + (requests l).length) l' := by
  induction l generalizing next with
  | nil => rfl
  | cons op l ih =>
      cases op with
      | synthesize r =>
          have hnext : next + (requests (.synthesize r :: l)).length =
              next + 1 + (requests l).length := by
            rw [Nat.add_assoc, Nat.add_comm 1]
            rfl
          rw [hnext]
          exact congrArg (List.cons _) (ih (next + 1))
      | setDeclType d ty => exact congrArg (List.cons _) (ih next)
      | _ => exact ih next

/-- The declarations that calls make take no position before `next`, so types at an earlier
one are set by the other calls. -/
theorem pairsAt_declTypes {next : Nat} {k : DeclId} (h : k.index < next) (ops : List Op) :
    pairsAt (declTypes next ops) k = pairsAt (ops.filterMap Op.declType?) k := by
  induction ops generalizing next with
  | nil => rfl
  | cons op ops ih =>
      cases op with
      | synthesize r =>
          have hne : next ≠ k.index := Nat.ne_of_gt h
          rw [declTypes, pairsAt_cons_of_index_ne hne]
          exact ih (Nat.lt_succ_of_lt h)
      | setDeclType d ty =>
          rw [declTypes, List.filterMap_cons_some (f := Op.declType?) rfl]
          simp only [pairsAt, List.filter_cons]
          rw [← pairsAt, ← pairsAt, ih h]
      | _ => exact ih h

section Run

variable (d : Draft) (ops : List Op)

/-- A table that a call changes by the pair that it records there is changed by a run in the
same way. -/
theorem table_run {κ β γ : Type} [Indexed κ] (table : Draft → Table κ β)
    (f : Op → Option (κ × γ)) {step : Table κ β → κ × γ → Table κ β}
    (hstep : ∀ d op, table (d.apply op) = (f op).toList.foldl step (table d)) :
    table (d.run ops) = (ops.filterMap f).foldl step (table d) := by
  induction ops generalizing d with
  | nil => rfl
  | cons op ops ih =>
      change table ((d.apply op).run ops) = _
      rw [ih, hstep, filterMap_cons_eq_append, List.foldl_append]

theorem exprTypes_run :
    (d.run ops).properties.exprTypes =
      d.properties.exprTypes.writeAll (ops.filterMap Op.exprType?) :=
  table_run d ops (fun d => d.properties.exprTypes) Op.exprType?
    fun _ op => by cases op <;> rfl

theorem imports_run :
    (d.run ops).properties.imports =
      d.properties.imports.gatherAll (ops.filterMap Op.import?) :=
  table_run d ops (fun d => d.properties.imports) Op.import?
    fun _ op => by cases op <;> rfl

theorem implicitCaptures_run :
    (d.run ops).properties.implicitCaptures =
      d.properties.implicitCaptures.writeAll (ops.filterMap Op.implicitCaptures?) :=
  table_run d ops (fun d => d.properties.implicitCaptures) Op.implicitCaptures?
    fun _ op => by cases op <;> rfl

theorem environments_run :
    (d.run ops).properties.environments =
      d.properties.environments.writeAll (ops.filterMap Op.environment?) :=
  table_run d ops (fun d => d.properties.environments) Op.environment?
    fun _ op => by cases op <;> rfl

theorem references_run :
    (d.run ops).properties.references =
      d.properties.references.writeAll (ops.filterMap Op.reference?) :=
  table_run d ops (fun d => d.properties.references) Op.reference?
    fun _ op => by cases op <;> rfl

theorem folded_run :
    (d.run ops).properties.folded = d.properties.folded.writeAll (ops.filterMap Op.folded?) :=
  table_run d ops (fun d => d.properties.folded) Op.folded?
    fun _ op => by cases op <;> rfl

theorem declTypes_run :
    (d.run ops).properties.declTypes =
      d.properties.declTypes.writeAll (declTypes d.source.arena.size ops) := by
  induction ops generalizing d with
  | nil => rfl
  | cons op ops ih =>
      cases op with
      | synthesize r =>
          -- the next declaration takes the position after this one
          have hsize : (d.apply (.synthesize r)).source.arena.size = d.source.arena.size + 1 :=
            ScopedProgram.size_insertSynthesized r.kind r.scope
          have hrest := ih (d.apply (.synthesize r))
          rw [hsize] at hrest
          exact hrest
      | _ => exact ih _

end Run

end Draft

open Draft (Op requests declTypes entries)

/-- The program answers what the log of a run over `source` says. -/
structure TypedProgram.Answers (p : TypedProgram) (source : ScopedProgram) (ops : List Op) :
    Prop where
  source_eq : p.source = source.grow ((requests ops).map fun r => (r.kind, r.scope))
  declaredType : ∀ d : DeclId, p.declaredType d =
    match lastAt (declTypes source.arena.size ops) d with
    | some t => .ok t
    | none => .error (.noType d.toAny)
  exprType : ∀ e : ExprId, p.exprType e =
    match lastAt (ops.filterMap Op.exprType?) e with
    | some t => .ok t
    | none => .error (.noType e.toAny)
  implicitCaptures? : ∀ d : DeclId,
    p.implicitCaptures? d = lastAt (ops.filterMap Op.implicitCaptures?) d
  environment? : ∀ d : DeclId, p.environment? d = lastAt (ops.filterMap Op.environment?) d
  referredDecl : ∀ n : IdentOf .nameExpr, p.referredDecl n =
    match lastAt (ops.filterMap Op.reference?) n with
    | some r => .ok r
    | none => .error (.notResolved n.toAny)
  folded? : ∀ s : IdentOf .sequenceExpr, p.folded? s = lastAt (ops.filterMap Op.folded?) s
  mem_imports : ∀ (u : IdentOf .translationUnit) (m : IdentOf .moduleDecl),
    m ∈ p.imports u ↔ .addImport u m ∈ ops
  imports_sorted : ∀ u : IdentOf .translationUnit,
    (p.imports u).Pairwise fun m m' => m.index < m'.index
  /-- Each call has left an entry, with the position that its declaration took. -/
  synthesizedDecls : ∀ m : IdentOf .moduleDecl, p.synthesizedDecls m =
    (pairsAt (entries source.arena.size (requests ops)) m).map Prod.snd

namespace Draft

variable {source : ScopedProgram} {pool : TypePool} {ops : List Op} {r : Relations}
  {p : TypedProgram}

theorem mem_imports_run {u : IdentOf .translationUnit} {m : IdentOf .moduleDecl} :
    m ∈ ((((start source pool).run ops).properties.imports.get? u).getD ∅).toList ↔
      .addImport u m ∈ ops := by
  have hempty : (start source pool).properties.imports.get? u = none := Table.get?_empty u
  rw [imports_run, Table.getD_get?_gatherAll, hempty, Option.getD_none,
    IndexSet.mem_foldl_insert_iff]
  simp only [List.mem_map, Prod.exists, exists_eq_right, mem_pairsAt, List.mem_filterMap,
    Op.import?_eq_some_iff]
  constructor
  · rintro ⟨u', hop, hindex⟩
    have hu : u' = u := IdentOf.eq_of_index_eq hindex
    exact hu ▸ hop
  · exact fun hop => ⟨u, hop, rfl⟩

/-- The draft after a run, whatever its check says, answers what the log says. -/
theorem answers_run :
    TypedProgram.Answers ⟨((start source pool).run ops).source,
      ((start source pool).run ops).pool, ((start source pool).run ops).properties, r⟩
      source ops where
  source_eq := source_run _ _
  declaredType d := by
    rw [TypedProgram.declaredType, declTypes_run, ← Table.get?_writeAll_empty]
    rfl
  exprType e := by
    rw [TypedProgram.exprType, exprTypes_run, ← Table.get?_writeAll_empty]
    rfl
  implicitCaptures? d := by
    rw [TypedProgram.implicitCaptures?, implicitCaptures_run, ← Table.get?_writeAll_empty]
    rfl
  environment? d := by
    rw [TypedProgram.environment?, environments_run, ← Table.get?_writeAll_empty]
    rfl
  referredDecl n := by
    rw [TypedProgram.referredDecl, references_run, ← Table.get?_writeAll_empty]
    rfl
  folded? s := by
    rw [TypedProgram.folded?, folded_run, ← Table.get?_writeAll_empty]
    rfl
  mem_imports _ _ := mem_imports_run
  imports_sorted u := IndexSet.sorted _
  synthesizedDecls m := by
    have hempty : (start source pool).properties.synthesized.get? m = none := Table.get?_empty m
    rw [TypedProgram.synthesizedDecls, synthesized_run, Table.getD_get?_pushAll, hempty]
    rfl

theorem answers_of_finish?_eq_ok (hp : ((start source pool).run ops).finish? r = .ok p) :
    p.Answers source ops := by
  obtain ⟨-, hparts⟩ := finish?_eq_ok_iff.1 hp
  obtain ⟨-, rfl⟩ := TypedProgram.ofParts?_eq_ok_iff.1 hparts
  exact answers_run

end Draft

end TypedTree
