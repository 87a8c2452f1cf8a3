import TypedTree.Program.Draft

/-!
# Sessions

A session carries one tree from its first node to a typed program. Its `Stage` says how
far the tree has come; beside it stand the names, the types, the relations between types
and the checks asked for. A step that does not apply at the stage gives `none`.

The types of a session move into a draft with the tree (`toDraft?`). They come back when
the draft is taken apart (`toParts?`) or yields no program (`finish?`), and go with the
program otherwise, so `types` finds them at every stage.
-/

namespace TypedTree

/-- How far a tree has come. -/
inductive Stage where
  /-- Nodes are being added. -/
  | arena (a : Arena)
  /-- Scope tables are being written by hand, beside the nodes. -/
  | tables (a : Arena) (t : ScopeTables)
  /-- Every scope is known. -/
  | resolved (p : ScopedProgram)
  /-- Types are being recorded. -/
  | draft (d : Draft)
  /-- Property tables are being written by hand. -/
  | parts (p : ScopedProgram) (t : PropertyTables)
  /-- The program is complete. -/
  | program (p : TypedProgram)

def Stage.source? : Stage → Option ScopedProgram
  | .arena _ | .tables _ _ => none
  | .resolved p | .parts p _ => some p
  | .draft d => some d.source
  | .program p => some p.source

def Stage.nodes : Stage → Arena
  | .arena a | .tables a _ => a
  | .resolved p | .parts p _ => p.arena
  | .draft d => d.source.arena
  | .program p => p.arena

/-- A tree on its way, with what it is checked against. -/
structure Session where
  names : NameTable := .new
  /-- The types, while no draft and no program holds them. -/
  pool : TypePool := .new
  relations : RelationTable := ∅
  validation : Validation := .full
  stage : Stage := .arena ∅

namespace Session

def types (s : Session) : TypePool :=
  match s.stage with
  | .draft d => d.pool
  | .program p => p.pool
  | _ => s.pool

/-- The name of a text, made if it is new. -/
def internName (s : Session) (text : String) : Name × Session :=
  let (n, names) := s.names.intern text
  (n, { s with names := names })

/-- The reference to a type, made if it is new. The types of a program are closed. -/
def internType? (s : Session) (ty : Ty) : Option (TypeId × Session) :=
  match s.stage with
  | .program _ => none
  | .draft d =>
    let (t, d) := d.intern ty
    some (t, { s with stage := .draft d })
  | _ =>
    let (t, pool) := s.pool.intern ty
    some (t, { s with pool := pool })

/-- Changes the nodes, while nothing is known of their scopes. -/
def modifyNodes? (s : Session) (f : Arena → Arena) : Option Session :=
  match s.stage with
  | .arena a => some { s with stage := .arena (f a) }
  | .tables a t => some { s with stage := .tables (f a) t }
  | _ => none

/-- Puts a node at the end of the nodes, while nothing is known of their scopes. -/
def insertNode : Session → Node → Span → Option NodeId × Session
  | ⟨names, pool, relations, validation, .arena a⟩, n, span =>
    let (id, a) := a.insert n span
    (some id, ⟨names, pool, relations, validation, .arena a⟩)
  | ⟨names, pool, relations, validation, .tables a t⟩, n, span =>
    let (id, a) := a.insert n span
    (some id, ⟨names, pool, relations, validation, .tables a t⟩)
  | s, _, _ => (none, s)

/-- Turns to writing the scope tables by hand. -/
def openTables? (s : Session) : Option Session :=
  match s.stage with
  | .arena a => some { s with stage := .tables a ∅ }
  | .resolved p => some { s with stage := .tables p.arena p.tables }
  | _ => none

/-- Starts recording types, under the checks asked for so far. -/
def toDraft? (s : Session) : Option Session :=
  match s.stage with
  | .resolved p => some { s with
      pool := .new
      stage := .draft { source := p, pool := s.pool, validation := s.validation } }
  | _ => none

/-- Turns to writing the property tables by hand. -/
def toParts? (s : Session) : Option Session :=
  match s.stage with
  | .draft d => some { s with pool := d.pool, stage := .parts d.source d.properties }
  | _ => none

/-- Completes a draft. If it fails, the tree keeps its scopes and its types and loses
what else was recorded. -/
def finish? (s : Session) : Option (Except CheckFailure TypedProgram × Session) :=
  match s.stage with
  | .draft d =>
    let made := d.finish? s.relations.relations
    some (made, match made with
      | .ok p => { s with stage := .program p }
      | .error _ => { s with pool := d.pool, stage := .resolved d.source })
  | _ => none

def construct? (s : Session) (validation : Validation) :
    Option (Except ConstructionError (TypedProgram × Session)) :=
  match s.stage with
  | .parts p t => some do
      let made ← TypedProgram.ofParts? p s.pool t s.relations.relations validation
      return (made, { s with pool := .new, stage := .program made })
  | _ => none

theorem types_toDraft? {s s' : Session} (h : s.toDraft? = some s') : s'.types = s.types := by
  unfold toDraft? at h
  split at h
  · next heq =>
    cases h
    simp [types, heq]
  · cases h

theorem types_toParts? {s s' : Session} (h : s.toParts? = some s') : s'.types = s.types := by
  unfold toParts? at h
  split at h
  · next heq =>
    cases h
    simp [types, heq]
  · cases h

/-- A draft that fails leaves the scoped program, with all that was synthesized. -/
theorem stage_finish?_error {s s' : Session} {failure : CheckFailure}
    (h : s.finish? = some (.error failure, s')) :
    s'.stage.source? = s.stage.source? ∧ s'.types = s.types := by
  unfold finish? at h
  split at h
  · next d heq =>
    simp only [Option.some.injEq, Prod.mk.injEq] at h
    obtain ⟨hmade, rfl⟩ := h
    simp [types, hmade, heq, Stage.source?]
  · cases h

theorem types_finish?_ok {s s' : Session} {p : TypedProgram}
    (h : s.finish? = some (.ok p, s')) : s'.types = p.pool ∧ s'.names = s.names := by
  unfold finish? at h
  split at h
  · simp only [Option.some.injEq, Prod.mk.injEq] at h
    obtain ⟨hmade, rfl⟩ := h
    simp [types, hmade]
  · cases h

end Session

end TypedTree
