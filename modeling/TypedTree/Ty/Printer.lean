import TypedTree.Arena.Basic
import TypedTree.Index.Count
import TypedTree.Ty.Pool

/-!
# Types in writing

`Ty.layout` lays out one type as pieces, which are texts, names and the parts of the type.
`TypePool.write` writes the pieces one after another, each part in its place. A pool may hold
types that contain themselves, so a `TypeWriter` keeps the types that it is inside of: one of
these is written `<cycle>`, and so each type is opened at most once on the way down. A writer
that is done with a type is inside of the same types as before.
-/

namespace TypedTree

/-- What a text is put together from. -/
inductive Piece (α : Type) where
  /-- A text as it stands. -/
  | literal (s : String)
  | name (n : Name)
  /-- A part, which has a text of its own. -/
  | part (x : α)
  deriving DecidableEq

namespace Ty

/-- The name of a declared type, or a question mark where the declaration is not in
the arena. -/
def declaredName : Option Name → Piece TypeId
  | some n => .name n
  | none => .literal "?"

def labeled (pieces : List (Piece TypeId)) : Option Name → List (Piece TypeId)
  | some n => .name n :: .literal ": " :: pieces
  | none => pieces

def componentLayout (c : TupleComponent) : List (Piece TypeId) := labeled [.part c.ty] c.label

/-- One parameter of a callable type. The weakest convention goes without saying. -/
def inputLayout (input : CallableParameter) : List (Piece TypeId) :=
  let convention :=
    if input.convention = .let then [] else [.literal (input.convention.keyword ++ " ")]
  labeled (convention ++ [.part input.ty]) input.label

def separated (items : List (List (Piece TypeId))) : List (Piece TypeId) :=
  [.literal ", "].intercalate items

def inputsLayout (inputs : List CallableParameter) : List (Piece TypeId) :=
  .literal "(" :: separated (inputs.map inputLayout) ++ [.literal ")"]

/-- The environment of a function type. Nothing is written if nothing is captured. -/
def environmentLayout (environment : TypeId) : List (Piece TypeId) :=
  if environment = .void then [] else [.literal "[", .part environment, .literal "] "]

def layout (a : Arena) : Ty → List (Piece TypeId)
  | .builtin b => [.literal b.name]
  | .module decl => [.literal "module ", declaredName ((a.get? decl).map ModuleDecl.name)]
  | .product decl => [declaredName ((a.get? decl).map ProductTypeDecl.name)]
  | .trait decl => [declaredName ((a.get? decl).map TraitDecl.name)]
  | .genericParameter decl => [declaredName ((a.get? decl).map NamedDecl.name)]
  | .tuple components =>
    .literal "\x7b" :: separated (components.map componentLayout) ++ [.literal "\x7d"]
  | .lambda s =>
    environmentLayout s.environment ++ inputsLayout s.inputs ++ [.literal " -> ", .part s.output]
  | .subscript capabilities s =>
    let effects := ", ".intercalate (capabilities.map AccessEffect.keyword)
    .literal "subscript " :: inputsLayout s.inputs ++
      [.literal ": ", .part s.output, .literal (" \x7b " ++ effects ++ " \x7d")]
  | .error => [.literal "<error>"]

end Ty

/-- A text on the way. -/
structure TypeWriter where
  /-- What is written so far. -/
  text : String := ""
  /-- The types that are being written, the innermost first. -/
  opened : List TypeId := []

namespace TypeWriter

def put (w : TypeWriter) (s : String) : TypeWriter := { w with text := w.text ++ s }

def enter (w : TypeWriter) (t : TypeId) : TypeWriter := { w with opened := t :: w.opened }

def leave (w : TypeWriter) : TypeWriter := { w with opened := w.opened.tail }

/-- The writers that are inside of the same types as `w`. -/
abbrev Beside (w : TypeWriter) := { v : TypeWriter // v.opened = w.opened }

namespace Beside

variable {w : TypeWriter}

def refl (w : TypeWriter) : w.Beside := ⟨w, rfl⟩

def trans (v : w.Beside) (u : v.val.Beside) : w.Beside := ⟨u.val, u.property.trans v.property⟩

def put (v : w.Beside) (s : String) : w.Beside := ⟨v.val.put s, v.property⟩

def leave {t : TypeId} (v : (w.enter t).Beside) : w.Beside :=
  ⟨v.val.leave, congrArg List.tail v.property⟩

def putPiece (names : NameTable) (part : (v : w.Beside) → TypeId → Except Fault v.val.Beside)
    (v : w.Beside) : Piece TypeId → Except Fault w.Beside
  | .literal s => .ok (v.put s)
  | .name n => return v.put (← names.lookup n)
  | .part t => return v.trans (← part v t)

end Beside

end TypeWriter

namespace TypePool

def unopened (p : TypePool) (opened : List TypeId) : Nat :=
  (List.range p.size).countP fun i => ⟨i⟩ ∉ opened

theorem unopened_cons_lt {p : TypePool} {t : TypeId} {ty : Ty} {opened : List TypeId}
    (hget : p.get? t = some ty) (h : t ∉ opened) :
    p.unopened (t :: opened) < p.unopened opened := by
  have hlt : t.raw < p.size := (Array.getElem?_eq_some_iff.1 hget).1
  refine countP_lt_countP (fun i => ?_) (List.mem_range.2 hlt) ?_ ?_
  · simp
  · simpa using h
  · simp

/-- Writes a type. One that the writer is inside of is not written again, and a reference
that denotes no type is foreign. -/
def write (p : TypePool) (a : Arena) (names : NameTable) (w : TypeWriter) (t : TypeId) :
    Except Fault w.Beside :=
  match _hget : p.get? t with
  | none => .ok ((TypeWriter.Beside.refl w).put "<foreign type>")
  | some ty =>
    if _hopened : t ∈ w.opened then .ok ((TypeWriter.Beside.refl w).put "<cycle>")
    else do
      let inside ← (ty.layout a).foldlM (TypeWriter.Beside.putPiece names fun v u =>
        p.write a names v.val u) (.refl (w.enter t))
      return inside.leave
termination_by p.unopened w.opened
decreasing_by
  rw [v.property]
  exact unopened_cons_lt _hget _hopened

section

variable {p : TypePool} {a : Arena} {names : NameTable} {w : TypeWriter} {t : TypeId} {ty : Ty}

theorem write_of_get?_eq_none (h : p.get? t = none) :
    p.write a names w t = .ok ((TypeWriter.Beside.refl w).put "<foreign type>") := by
  rw [write]
  split
  · rfl
  · cases h.symm.trans ‹_›

theorem write_of_mem (h : p.get? t = some ty) (ht : t ∈ w.opened) :
    p.write a names w t = .ok ((TypeWriter.Beside.refl w).put "<cycle>") := by
  rw [write]
  split
  · cases h.symm.trans ‹_›
  · rw [dif_pos ht]

theorem write_of_notMem (h : p.get? t = some ty) (ht : t ∉ w.opened) :
    p.write a names w t = TypeWriter.Beside.leave <$>
      (ty.layout a).foldlM (TypeWriter.Beside.putPiece names fun v u => p.write a names v.val u)
        (.refl (w.enter t)) := by
  rw [write]
  split
  · cases h.symm.trans ‹_›
  · rename_i hget
    cases h.symm.trans hget
    rw [dif_neg ht, map_eq_pure_bind]

end

def display (p : TypePool) (a : Arena) (names : NameTable) (t : TypeId) :
    Except Fault String :=
  return (← p.write a names {} t).val.text

/-- A trait in writing. One that is not in the arena is written as the ill-typed
placeholder. -/
def displayTrait (p : TypePool) (a : Arena) (names : NameTable) (t : IdentOf .traitDecl) :
    Except Fault String :=
  match (a.get? t).map TraitDecl.name with
  | some n => names.lookup n
  | none => p.display a names .error

/-- Traits in writing, in the order of their declarations. -/
def displayTraits (p : TypePool) (a : Arena) (names : NameTable) (traits : TraitSet) :
    Except Fault String := do
  return " & ".intercalate (← traits.toList.mapM (p.displayTrait a names))

end TypePool

end TypedTree
