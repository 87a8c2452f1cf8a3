import TypedTree.Proofs.Arena.Insertion
import TypedTree.Proofs.Draft.Swap
import TypedTree.Proofs.Scope.Roots

/-!
# Imports of a run

The imports of a unit are the modules that calls of the run have added, by rising positions.
With the full check they are modules of the arena, which lists these in the same order, and so
they are a part of that list (`imports_sublist_modules`). Calls that add imports write to a
table of their own, into sets, and whatever else a run does depends on the other calls only.
So two runs with the same imports and the same other calls lead to tables that agree
(`agrees_run_of_others`), and no query tells the programs apart.
-/

namespace TypedTree

/-- What is added to a program comes after its modules, and is none. -/
theorem ScopedProgram.modules_grow {p : ScopedProgram}
    (h : p.arena.modules = p.arena.idsOf (.only .moduleDecl))
    (made : List (SynthesizedKind × ScopeId)) :
    (p.grow made).arena.modules = (p.grow made).arena.idsOf (.only .moduleDecl) := by
  induction made generalizing p with
  | nil => exact h
  | cons e made ih => exact ih (Arena.modules_insert h _ _)

namespace Draft

/-- The two runs add the same imports, in whatever order and however often. -/
def SameImports (ops ops' : List Op) : Prop :=
  ∀ (u : IdentOf .translationUnit) (m : IdentOf .moduleDecl),
    .addImport u m ∈ ops ↔ .addImport u m ∈ ops'

/-- The calls of a run that add no import, in their order. -/
def others (ops : List Op) : List Op := ops.filter fun op => op.import?.isNone

variable {source : ScopedProgram} {pool : TypePool} {ops ops' : List Op} {r : Relations}
  {p : TypedProgram}

section Others

theorem filterMap_others {γ : Type} {f : Op → Option γ} (hf : ∀ u m, f (.addImport u m) = none)
    (ops : List Op) : (others ops).filterMap f = ops.filterMap f := by
  rw [others, List.filterMap_filter]
  refine List.filterMap_congr fun op _ => ?_
  cases op with
  | addImport u m => exact (hf u m).symm
  | _ => rfl

theorem filterMap_eq_of_others (h : others ops = others ops') {γ : Type} {f : Op → Option γ}
    (hf : ∀ u m, f (.addImport u m) = none) : ops.filterMap f = ops'.filterMap f := by
  rw [← filterMap_others hf, h, filterMap_others hf]

theorem declTypes_others (next : Nat) (ops : List Op) :
    declTypes next (others ops) = declTypes next ops := by
  induction ops generalizing next with
  | nil => rfl
  | cons op ops ih =>
      cases op with
      | setDeclType decl ty => exact congrArg (List.cons _) (ih next)
      | synthesize r => exact congrArg (List.cons _) (ih (next + 1))
      | _ => exact ih next

/-- Imports change nothing of a draft but its tables. -/
theorem bare_run_others (d : Draft) (ops : List Op) :
    (d.run (others ops)).bare = (d.run ops).bare := by
  induction ops generalizing d with
  | nil => rfl
  | cons op ops ih =>
      cases op with
      | addImport u m =>
          change (d.run (others ops)).bare = ((d.apply (.addImport u m)).run ops).bare
          rw [ih, bare_run, bare_run (d.apply _), bare_apply_of_target? rfl]
      | _ => exact ih _

end Others

theorem isSome_imports_run {u : IdentOf .translationUnit} :
    (((start source pool).run ops).properties.imports.get? u).isSome ↔
      ∃ m, .addImport u m ∈ ops := by
  have hempty : (start source pool).properties.imports.get? u = none := Table.get?_empty u
  rw [imports_run, Table.isSome_get?_gatherAll, hempty]
  simp only [Option.isSome_none, Bool.false_eq_true, false_or, Prod.exists, List.mem_filterMap,
    Op.import?_eq_some_iff]
  constructor
  · rintro ⟨u', m, ⟨_, hop, rfl⟩, hindex⟩
    obtain rfl : u' = u := IdentOf.eq_of_index_eq hindex
    exact ⟨m, hop⟩
  · exact fun ⟨m, hop⟩ => ⟨u, m, ⟨_, hop, rfl⟩, rfl⟩

theorem eq_of_isSome_eq_of_getD_eq {α : Type} {o o' : Option α} {x : α}
    (hsome : o.isSome = o'.isSome) (hget : o.getD x = o'.getD x) : o = o' := by
  cases o with
  | none => exact (Option.isNone_iff_eq_none.1 (by simpa using hsome.symm)).symm
  | some y =>
      obtain ⟨y', rfl⟩ := Option.isSome_iff_exists.1 (hsome.symm.trans rfl)
      exact congrArg some hget

/-- Whether a unit has imports, and which, does not depend on the order of the calls. -/
theorem get?_imports_run_congr (h : SameImports ops ops') (u : IdentOf .translationUnit) :
    ((start source pool).run ops).properties.imports.get? u =
      ((start source pool).run ops').properties.imports.get? u := by
  have hsome : (((start source pool).run ops).properties.imports.get? u).isSome =
      (((start source pool).run ops').properties.imports.get? u).isSome := by
    rw [Bool.eq_iff_iff, isSome_imports_run, isSome_imports_run]
    exact exists_congr (h u)
  have hmembers : (((start source pool).run ops).properties.imports.get? u).getD ∅ =
      (((start source pool).run ops').properties.imports.get? u).getD ∅ :=
    IndexSet.ext_mem fun m => by rw [mem_imports_run, mem_imports_run, h u m]
  exact eq_of_isSome_eq_of_getD_eq hsome hmembers

theorem agrees_run_of_others (himports : SameImports ops ops') (h : others ops = others ops') :
    ((start source pool).run ops).properties.Agrees
      ((start source pool).run ops').properties := by
  constructor
  case imports => exact Table.agrees_of_get?_eq (get?_imports_run_congr himports)
  case declTypes =>
    rw [declTypes_run, declTypes_run, ← declTypes_others, h, declTypes_others]
    exact .rfl
  case synthesized =>
    rw [synthesized_run, synthesized_run, requests, requests,
      filterMap_eq_of_others h fun _ _ => rfl]
    exact .rfl
  case exprTypes =>
    rw [exprTypes_run, exprTypes_run, filterMap_eq_of_others h fun _ _ => rfl]
    exact .rfl
  case implicitCaptures =>
    rw [implicitCaptures_run, implicitCaptures_run, filterMap_eq_of_others h fun _ _ => rfl]
    exact .rfl
  case environments =>
    rw [environments_run, environments_run, filterMap_eq_of_others h fun _ _ => rfl]
    exact .rfl
  case references =>
    rw [references_run, references_run, filterMap_eq_of_others h fun _ _ => rfl]
    exact .rfl
  case folded =>
    rw [folded_run, folded_run, filterMap_eq_of_others h fun _ _ => rfl]
    exact .rfl

/-- The imports of a unit come in the order of the modules, for both lists rise. -/
theorem imports_sublist_modules {inserted : List Arena.Op} (harena : source.arena = .run inserted)
    (hfull : ((start source pool).run ops).validation = .full)
    (hp : ((start source pool).run ops).finish? r = .ok p) (u : IdentOf .translationUnit) :
    (p.imports u).Sublist p.modules := by
  have hsorted := (answers_of_finish?_eq_ok hp).imports_sorted u
  obtain ⟨-, hparts⟩ := finish?_eq_ok_iff.1 hp
  rw [hfull] at hparts
  obtain ⟨hdescribes, rfl⟩ := TypedProgram.ofParts?_full_eq_ok_iff.1 hparts
  have hsource : source.arena.modules = source.arena.idsOf (.only .moduleDecl) := by
    rw [harena]
    exact (Arena.keeps_run inserted).modules_eq
  have hmodules : ((start source pool).run ops).source.arena.modules =
      ((start source pool).run ops).source.arena.idsOf (.only .moduleDecl) := by
    rw [source_run]
    exact ScopedProgram.modules_grow hsource _
  rw [TypedProgram.modules, TypedProgram.arena, hmodules]
  refine IdentOf.sublist_of_subset hsorted (Arena.pairwise_idsOf _ _) fun m hm => ?_
  rw [Arena.mem_idsOf_iff]
  unfold TypedProgram.imports at hm
  cases hget : ((start source pool).run ops).properties.imports.get? u with
  | none =>
      rw [hget] at hm
      exact absurd hm IndexSet.not_mem_empty
  | some modules =>
      rw [hget] at hm
      exact hdescribes.contains_import hget hm

/-- The imports of a unit are a part of the modules of the program, and they are those that the
run has added, each once. Any run that adds the same imports leads to the same lists, if it
leads to a program. It does if it makes the same other calls, and then no query tells the two
programs apart. -/
theorem imports_of_finish? {inserted : List Arena.Op} (harena : source.arena = .run inserted)
    (hfull : ((start source pool).run ops).validation = .full)
    (hp : ((start source pool).run ops).finish? r = .ok p) :
    (∀ u, (p.imports u).Sublist p.modules ∧ (p.imports u).Nodup ∧
        ∀ m, m ∈ p.imports u ↔ .addImport u m ∈ ops) ∧
      ∀ ops', SameImports ops ops' →
        (∀ pool' r' q, ((start source pool').run ops').finish? r' = .ok q →
          q.imports = p.imports) ∧
        (others ops = others ops' →
          ∃ q, ((start source pool).run ops').finish? r = .ok q ∧ p.SameAnswers q) := by
  have hanswers := answers_of_finish?_eq_ok hp
  refine ⟨fun u => ?_, fun ops' himports => ⟨fun pool' r' q hq => ?_, fun hothers => ?_⟩⟩
  · exact ⟨imports_sublist_modules harena hfull hp u, (hanswers.imports_sorted u).nodup,
      hanswers.mem_imports u⟩
  · have hanswers' := answers_of_finish?_eq_ok hq
    funext u
    refine List.Pairwise.eq_of_mem_iff (hanswers'.imports_sorted u) (hanswers.imports_sorted u)
      fun m => ?_
    rw [hanswers'.mem_imports, hanswers.mem_imports, himports u m]
  · have hbare : ((start source pool).run ops).bare = ((start source pool).run ops').bare := by
      rw [← bare_run_others, hothers, bare_run_others]
    exact exists_finish?_of_agrees hbare (agrees_run_of_others himports hothers) hp

section Nested

open ScopedProgram (nestedModule scopedNested)

def nestedTypes : List Op :=
  [.intern (.module (.ofIndex .moduleDecl 1)), .intern (.module (.ofIndex .moduleDecl 3)),
    .setDeclType (IdentOf.ofIndex .functionDecl 0).widen ⟨3⟩,
    .setDeclType (IdentOf.ofIndex .moduleDecl 1).widen ⟨7⟩,
    .setDeclType (IdentOf.ofIndex .moduleDecl 3).widen ⟨8⟩]

/-- Imports both modules into the unit of `nestedModule`, one of them twice. -/
def nestedImports : List Op :=
  .addImport (.ofIndex .translationUnit 2) (.ofIndex .moduleDecl 3) :: nestedTypes ++
    [.addImport (.ofIndex .translationUnit 2) (.ofIndex .moduleDecl 1),
      .addImport (.ofIndex .translationUnit 2) (.ofIndex .moduleDecl 3)]

/-- The same imports, each once and before anything else. -/
def nestedImportsFirst : List Op :=
  .addImport (.ofIndex .translationUnit 2) (.ofIndex .moduleDecl 1) ::
    .addImport (.ofIndex .translationUnit 2) (.ofIndex .moduleDecl 3) :: nestedTypes

def nestedDraft : Draft := (start scopedNested .new).run nestedImports

theorem finish?_nestedDraft :
    nestedDraft.finish? (∅ : RelationTable).relations =
      .ok ⟨nestedDraft.source, nestedDraft.pool, nestedDraft.properties,
        (∅ : RelationTable).relations⟩ := by
  have hdescribes : nestedDraft.properties.Describes nestedDraft.source.arena
      nestedDraft.pool := by decide +kernel
  exact finish?_eq_ok_iff.2 ⟨rfl, TypedProgram.ofParts?_full_eq_ok_iff.2 ⟨hdescribes, rfl⟩⟩

theorem sameImports_nestedImportsFirst : SameImports nestedImports nestedImportsFirst := by
  intro u m
  simp only [nestedImports, nestedImportsFirst, nestedTypes, List.cons_append, List.nil_append,
    List.mem_cons, reduceCtorEq, List.not_mem_nil, or_false, false_or]
  tauto

theorem imports_of_finish?_nestedDraft :
    ∃ p, nestedDraft.finish? (∅ : RelationTable).relations = .ok p ∧
      p.imports (.ofIndex .translationUnit 2) =
        [.ofIndex .moduleDecl 1, .ofIndex .moduleDecl 3] ∧
      ∃ q, ((start scopedNested .new).run nestedImportsFirst).finish?
          (∅ : RelationTable).relations = .ok q ∧ p.SameAnswers q := by
  have harena : scopedNested.arena =
      .run (nestedModule.entries.map fun e => .insert e.1 e.2) := rfl
  obtain ⟨-, hsame⟩ := imports_of_finish? harena rfl finish?_nestedDraft
  obtain ⟨-, hothers⟩ := hsame _ sameImports_nestedImportsFirst
  exact ⟨_, finish?_nestedDraft, by decide +kernel, hothers rfl⟩

end Nested

end Draft

end TypedTree
