import TypedTree.Program.Basic

/-!
# Capture lists

The order of a capture list lays out the environment of a closure. A member
captures its receiver and nothing else. Any other function or subscript captures
what its capture list names, then what its body uses, in the order in which the
checker found it. A subscript implementation has the captures of its bundle.
-/

namespace TypedTree

namespace TypedProgram

/-- The capture list of `owner`, from its receiver and its explicit captures. -/
def captureList (p : TypedProgram) (owner : DeclId) (receiver : Option (IdentOf .parameterDecl))
    (explicit : List (IdentOf .bindingDecl)) : List DeclId :=
  match receiver with
  | some r => [r.widen]
  | none =>
    explicit.map (·.widen) ++
      ((p.properties.implicitCaptures.get? owner).getD []).map ImplicitCapture.decl

def capturesOfFunction (p : TypedProgram) (d : IdentOf .functionDecl) :
    Except Fault (List DeclId) := do
  let decl : FunctionDecl ← p.arena.fields d
  return p.captureList d.widen decl.receiver decl.explicitCaptures

def capturesOfSubscript (p : TypedProgram) (d : IdentOf .subscriptDecl) :
    Except Fault (List DeclId) := do
  let decl : SubscriptDecl ← p.arena.fields d
  return p.captureList d.widen decl.receiver decl.explicitCaptures

/-- The bundle that a subscript implementation belongs to: the scope it is in, which
a program promises to be a subscript. -/
def bundle (p : TypedProgram) (d : IdentOf .subscriptImpl) :
    Except Fault (IdentOf .subscriptDecl) :=
  match (p.source.declScope? d.widen).bind (·.narrow? (.only .subscriptDecl)) with
  | some bundle => .ok bundle
  | none => .error (.notInSubscript d.toAny)

/-- The captures of a subscript implementation, which are those of its bundle. -/
def capturesOfSubscriptImpl (p : TypedProgram) (d : IdentOf .subscriptImpl) :
    Except Fault (List DeclId) := do
  p.capturesOfSubscript (← p.bundle d)

end TypedProgram

end TypedTree
