import TypedTree.Arena.Node
import TypedTree.Fault
import TypedTree.Span

/-!
# Arenas

An `Arena` holds the syntax nodes of a program in the order in which they were
inserted and, beside them and in the same order, their spans. An identity denotes
the node at its position; whether the claimed kind has a say depends on the
question. `get?` and `fields` ask for the claimed kind, while `node`, `span`,
`children` and `kindAt?` answer for whatever is stored. `contains` holds exactly if
the two agree.
-/

namespace TypedTree

/-- Syntax nodes and their spans, each in the order of insertion. -/
structure Arena where
  nodes : Array Node
  /-- The span of each node, at the position of the node. -/
  spans : Array Span
  /-- The modules, in the order of insertion. -/
  modules : List (IdentOf .moduleDecl)
  coreLibrary : Option (IdentOf .moduleDecl)
  aligned : spans.size = nodes.size

namespace Arena

variable {c : Class} {k : Kind}

def empty : Arena := ⟨#[], #[], [], none, rfl⟩

instance : EmptyCollection Arena := ⟨empty⟩

instance : Inhabited Arena := ⟨empty⟩

def size (a : Arena) : Nat := a.nodes.size

/-- Puts a node at the end, at the position that its identity then names. -/
def insert (a : Arena) (n : Node) (span : Span) : NodeId × Arena :=
  (.of n.kind a.size,
    { a with
      nodes := a.nodes.push n
      spans := a.spans.push span
      modules := if n.kind = .moduleDecl then a.modules ++ [.ofIndex .moduleDecl a.size]
        else a.modules
      aligned := by rw [Array.size_push, Array.size_push, a.aligned] })

def insertAs (a : Arena) (k : Kind) (fields : k.Fields) (span : Span) : IdentOf k × Arena :=
  (.ofIndex k a.size, (a.insert ⟨k, fields⟩ span).2)

def setCoreLibrary (a : Arena) (m : IdentOf .moduleDecl) : Arena :=
  { a with coreLibrary := some m }

/-- The node at the position of `id`, whatever kind is claimed. -/
def node? (a : Arena) (id : Ident c) : Option Node := a.nodes[id.index]?

/-- The node at the position of `id`, which must lie in the arena. -/
def node (a : Arena) (id : Ident c) : Except Fault Node :=
  match a.node? id with
  | some n => .ok n
  | none => .error (.beyondArena a.size id.index)

/-- The span of the node at the position of `id`, which must lie in the arena. -/
def span (a : Arena) (id : Ident c) : Except Fault Span :=
  match a.spans[id.index]? with
  | some s => .ok s
  | none => .error (.beyondArena a.spans.size id.index)

def kindAt? (a : Arena) (id : Ident c) : Option Kind := (a.node? id).map Node.kind

/-- Whether `id` denotes a node of the kind it claims. -/
def contains (a : Arena) (id : Ident c) : Bool := a.kindAt? id == some id.kind

/-- The fields of the node that `id` denotes, if that node is of its kind. -/
def get? (a : Arena) (id : IdentOf k) : Option k.Fields :=
  (a.node? id).bind fun n => n.fieldsAs? k

/-- The fields of the node that `id` denotes, which must be of its kind. -/
def fields (a : Arena) (id : IdentOf k) : Except Fault k.Fields :=
  match a.get? id with
  | some f => .ok f
  | none => .error (.notANode id.toAny)

def ids (a : Arena) : List NodeId :=
  a.nodes.toList.zipIdx.map fun (n, i) => .of n.kind i

def idsOf (a : Arena) (c : Class) : List (Ident c) := a.ids.filterMap (·.narrow? c)

def children (a : Arena) (id : Ident c) : Except Fault (List NodeId) :=
  (a.node id).map Node.children

def unitDecls (a : Arena) (unit : IdentOf .translationUnit) : Except Fault (List DeclId) := do
  let unit : TranslationUnit ← a.fields unit
  return unit.decls

/-- The declarations of every translation unit of a module, in source order. -/
def topLevelDecls (a : Arena) (m : IdentOf .moduleDecl) : Except Fault (List DeclId) := do
  let module : ModuleDecl ← a.fields m
  let units ← module.sources.mapM a.unitDecls
  return units.flatten

@[simp] theorem size_insert (a : Arena) (n : Node) (s : Span) :
    (a.insert n s).2.size = a.size + 1 := by
  simp [insert, size]

theorem node?_insert_self (a : Arena) (n : Node) (s : Span) :
    (a.insert n s).2.node? (a.insert n s).1 = some n := by
  simp [insert, node?, size, NodeId.of]

theorem node?_insert_of_lt {a : Arena} {id : Ident c} (h : id.index < a.size)
    (n : Node) (s : Span) : (a.insert n s).2.node? id = a.node? id := by
  simp only [insert, node?]
  rw [Array.getElem?_push_lt h, Array.getElem?_eq_getElem h]

theorem span_eq_ok_iff {a : Arena} {id : Ident c} {s : Span} :
    a.span id = .ok s ↔ a.spans[id.index]? = some s := by
  unfold span
  cases a.spans[id.index]? <;> simp

theorem contains_iff {a : Arena} {id : Ident c} :
    a.contains id = true ↔ ∃ n, a.node? id = some n ∧ n.kind = id.kind := by
  cases h : a.node? id <;> simp [contains, kindAt?, h]

theorem isSome_get? (a : Arena) (id : IdentOf k) : (a.get? id).isSome = a.contains id := by
  cases h : a.node? id with
  | none => simp [get?, contains, kindAt?, h]
  | some n => simp [get?, contains, kindAt?, h, Node.isSome_fieldsAs?]

end Arena

end TypedTree
