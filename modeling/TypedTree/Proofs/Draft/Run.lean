import TypedTree.Program.Draft
import TypedTree.Proofs.Acceptance
import TypedTree.Proofs.Index.Writes
import TypedTree.Proofs.Scope.Grow

/-!
# Runs of a draft

An `Op` is one call on a draft, and `Draft.run` carries out a list of them. The source of a
draft changes by what is synthesized only: after a run it has grown by the declarations of
the calls (`source_run`), and each call has left an entry with the module, which holds the
position that the arena gave (`synthesized_run`).
-/

namespace TypedTree

namespace Draft

theorem finish?_eq_ok_iff {d : Draft} {r : Relations} {p : TypedProgram} :
    d.finish? r = .ok p ↔
      d.errors = [] ∧
        TypedProgram.ofParts? d.source d.pool d.properties r d.validation = .ok p := by
  unfold finish? ErrorGuarantee.ofCount?
  by_cases herrors : d.errors = []
  · simp [herrors, mapError_eq_ok_iff]
  · simp [herrors, List.length_pos_iff]

/-- The draft of a program of which nothing is recorded yet. -/
def start (source : ScopedProgram) (pool : TypePool) : Draft := { source := source, pool := pool }

/-- What a call to synthesize a declaration asks for. -/
structure Request where
  module : IdentOf .moduleDecl
  kind : SynthesizedKind
  ty : TypeId
  scope : ScopeId

inductive Op where
  | intern (ty : Ty)
  /-- Any change of the pool. -/
  | setPool (pool : TypePool)
  | setValidation (validation : Validation)
  | setDeclType (decl : DeclId) (ty : TypeId)
  | setExprType (expr : ExprId) (ty : TypeId)
  | addImport (unit : IdentOf .translationUnit) (module : IdentOf .moduleDecl)
  | setImplicitCaptures (decl : DeclId) (captures : List ImplicitCapture)
  | setEnvironment (decl : DeclId) (environment : GenericEnvironment)
  | setReference (name : IdentOf .nameExpr) (reference : DeclReference)
  | setFolded (sequence : IdentOf .sequenceExpr) (folded : Folded)
  | synthesize (request : Request)
  | report (module : IdentOf .moduleDecl) (error : TypeError)

def apply (d : Draft) : Op → Draft
  | .intern ty => (d.intern ty).2
  | .setPool pool => { d with pool := pool }
  | .setValidation validation => { d with validation := validation }
  | .setDeclType decl ty => d.setDeclType decl ty
  | .setExprType expr ty => d.setExprType expr ty
  | .addImport unit module => d.addImport unit module
  | .setImplicitCaptures decl captures => d.setImplicitCaptures decl captures
  | .setEnvironment decl environment => d.setEnvironment decl environment
  | .setReference name reference => d.setReference name reference
  | .setFolded sequence folded => d.setFolded sequence folded
  | .synthesize r => (d.synthesize r.module r.kind r.ty r.scope).2
  | .report module error => d.report module error

def run (d : Draft) (ops : List Op) : Draft := ops.foldl apply d

/-- What is asked for, if the call synthesizes a declaration. -/
def Op.request? : Op → Option Request
  | .synthesize r => some r
  | _ => none

def requests (ops : List Op) : List Request := ops.filterMap Op.request?

theorem requests_append (ops ops' : List Op) :
    requests (ops ++ ops') = requests ops ++ requests ops' :=
  List.filterMap_append

/-- The entries that requests leave with their modules, if the first one takes the position
`next` of the arena. -/
def entries (next : Nat) (rs : List Request) : List (IdentOf .moduleDecl × SynthesizedEntry) :=
  (rs.zipIdx next).map fun (r, i) =>
    (r.module, ⟨.ofIndex .synthesizedDecl i, r.kind, r.ty, r.scope⟩)

theorem mem_entries_of_mem {r : Request} {rs : List Request} (hr : r ∈ rs) (next : Nat) :
    ∃ i, (r.module, ⟨.ofIndex .synthesizedDecl i, r.kind, r.ty, r.scope⟩) ∈ entries next rs := by
  obtain ⟨i, hi⟩ := List.mem_iff_getElem?.1 hr
  exact ⟨next + i, List.mem_map.2 ⟨(r, next + i), List.mk_add_mem_zipIdx_iff_getElem?.2 hi, rfl⟩⟩

theorem pairwise_entries (next : Nat) (rs : List Request) :
    (entries next rs).Pairwise fun e f => e.2.id.index < f.2.id.index := by
  have hpositions : (rs.zipIdx next).map Prod.snd = List.range' next rs.length :=
    List.zipIdx_map_snd next rs
  refine List.pairwise_map.2 (List.Pairwise.of_map Prod.snd (fun _ _ h => h) ?_)
  rw [hpositions]
  exact List.pairwise_lt_range'

variable (d : Draft) (ops : List Op)

theorem run_append (ops' : List Op) : d.run (ops ++ ops') = (d.run ops).run ops' :=
  List.foldl_append

theorem source_run :
    (d.run ops).source = d.source.grow ((requests ops).map fun r => (r.kind, r.scope)) := by
  induction ops generalizing d with
  | nil => rfl
  | cons op ops ih => cases op <;> exact ih _

theorem size_run : (d.run ops).source.arena.size = d.source.arena.size + (requests ops).length := by
  rw [source_run, ScopedProgram.size_grow, List.length_map]

theorem synthesized_run :
    (d.run ops).properties.synthesized =
      d.properties.synthesized.pushAll (entries d.source.arena.size (requests ops)) := by
  induction ops generalizing d with
  | nil => rfl
  | cons op ops ih =>
      cases op with
      | synthesize r =>
          -- the next request takes the position after this one
          have hsize : (d.apply (.synthesize r)).source.arena.size = d.source.arena.size + 1 :=
            ScopedProgram.size_insertSynthesized r.kind r.scope
          have hrest := ih (d.apply (.synthesize r))
          rw [hsize] at hrest
          exact hrest
      | _ => exact ih _

end Draft

end TypedTree
