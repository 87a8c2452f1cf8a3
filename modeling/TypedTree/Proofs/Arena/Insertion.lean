import TypedTree.Proofs.Arena.Identity
import TypedTree.Proofs.Calls
import TypedTree.Proofs.Index.Writes

/-!
# What an arena keeps

An `Op` is one operation on an arena, and `run` carries out a list of them on an empty one. The
nodes of the arena and their spans are then those inserted, in this order (`entries_calls`), and
its identities those given (`ids_calls`). Everything else is read off these lists: an identity
leads to its node and its span whatever follows, and claims no kind that the arena would not
confirm (`keeps_run`).
-/

namespace TypedTree

namespace Arena

inductive Op where
  | insert (n : Node) (span : Span)
  | insertAs (k : Kind) (fields : k.Fields) (span : Span)
  | setCoreLibrary (m : IdentOf .moduleDecl)

def apply (a : Arena) : Op → Option NodeId × Arena
  | .insert n span =>
    let (id, a) := a.insert n span
    (some id, a)
  | .insertAs k fields span =>
    let (id, a) := a.insertAs k fields span
    (some id.toAny, a)
  | .setCoreLibrary m => (none, a.setCoreLibrary m)

def Op.entry? : Op → Option (Node × Span)
  | .insert n span => some (n, span)
  | .insertAs k fields span => some (⟨k, fields⟩, span)
  | .setCoreLibrary _ => none

def inserted (ops : List Op) : List (Node × Span) := ops.filterMap Op.entry?

/-- The identities that operations on an empty arena give. -/
def given (ops : List Op) : List NodeId := (calls apply ∅ ops).1.filterMap Prod.snd

def run (ops : List Op) : Arena := (calls apply ∅ ops).2

structure Keeps (ops : List Op) : Prop where
  nodes_eq : (run ops).nodes.toList = (inserted ops).map Prod.fst
  spans_eq : (run ops).spans.toList = (inserted ops).map Prod.snd
  /-- The `i`-th node inserted is given the position `i` under its own kind. -/
  given_eq : given ops = (inserted ops).mapIdx fun i e => .of e.1.kind i
  /-- It is found there with its span, whatever follows. -/
  stored : ∀ {i n s}, (inserted ops)[i]? = some (n, s) → ∀ later,
    (run (ops ++ later)).node (NodeId.of n.kind i) = .ok n ∧
      (run (ops ++ later)).span (NodeId.of n.kind i) = .ok s ∧
      (run (ops ++ later)).get? (.ofIndex n.kind i) = some n.fields
  /-- The identities are those given, in the order of the insertions. -/
  ids_eq : (run ops).ids = given ops
  modules_eq : (run ops).modules = (run ops).idsOf (.only .moduleDecl)
  /-- An identity is listed exactly if the kind that it claims is the one stored. -/
  mem_idsOf_iff : ∀ {c} (id : Ident c), id ∈ (run ops).idsOf c ↔ (run ops).contains id = true
  /-- It leads to fields of this kind in the same case. -/
  isSome_get?_iff : ∀ {k} (id : IdentOf k),
    ((run ops).get? id).isSome = true ↔ (run ops).contains id = true

variable {a : Arena} {ops : List Op} {i : Nat} {n : Node} {s : Span}

theorem entries_apply (a : Arena) (op : Op) :
    (a.apply op).2.entries = a.entries ++ op.entry?.toList := by
  cases op with
  | insert n s => exact entries_insert
  | insertAs k fields s => exact entries_insert
  | setCoreLibrary m => exact (List.append_nil _).symm

theorem entries_calls (a : Arena) (ops : List Op) :
    (calls apply a ops).2.entries = a.entries ++ inserted ops := by
  induction ops generalizing a with
  | nil => exact (List.append_nil _).symm
  | cons op ops ih =>
      rw [calls_cons, ih, entries_apply, List.append_assoc, inserted, inserted,
        ← filterMap_cons_eq_append]

theorem entries_run (ops : List Op) : (run ops).entries = inserted ops :=
  (entries_calls ∅ ops).trans (List.nil_append _)

theorem ids_insert (a : Arena) (n : Node) (s : Span) :
    (a.insert n s).2.ids = a.ids ++ [.of n.kind a.size] := by
  simp [insert, ids, List.zipIdx_append, size]

theorem ids_apply (a : Arena) (op : Op) :
    (a.apply op).2.ids = a.ids ++ (a.apply op).1.toList := by
  cases op with
  | insert n s => exact a.ids_insert n s
  | insertAs k fields s => exact a.ids_insert ⟨k, fields⟩ s
  | setCoreLibrary m => exact (List.append_nil _).symm

theorem ids_calls (a : Arena) (ops : List Op) :
    (calls apply a ops).2.ids = a.ids ++ (calls apply a ops).1.filterMap Prod.snd := by
  induction ops generalizing a with
  | nil => exact (List.append_nil _).symm
  | cons op ops ih =>
      rw [calls_cons, ih, ids_apply, filterMap_cons_eq_append, List.append_assoc]

theorem ids_run (ops : List Op) : (run ops).ids = given ops := ids_calls ∅ ops

theorem getElem?_ids (a : Arena) (i : Nat) :
    a.ids[i]? = a.nodes[i]?.map fun n => .of n.kind i := by
  simp [ids, Function.comp_def]

theorem idsOf_insert (a : Arena) (n : Node) (s : Span) (c : Class) :
    (a.insert n s).2.idsOf c = a.idsOf c ++ ((NodeId.of n.kind a.size).narrow? c).toList := by
  rw [idsOf, ids_insert, List.filterMap_append, filterMap_cons_eq_append, List.filterMap_nil,
    List.append_nil, idsOf]

theorem modules_insert (h : a.modules = a.idsOf (.only .moduleDecl)) (n : Node) (s : Span) :
    (a.insert n s).2.modules = (a.insert n s).2.idsOf (.only .moduleDecl) := by
  rw [idsOf_insert, ← h]
  by_cases hkind : n.kind = .moduleDecl
  · have hnarrow : (NodeId.of n.kind a.size).narrow? (.only .moduleDecl) =
        some (IdentOf.ofIndex .moduleDecl a.size) :=
      Ident.narrow?_eq_some_iff.2 ⟨hkind.symm, rfl⟩
    rw [hnarrow, insert, if_pos hkind]
    rfl
  · have hnarrow : (NodeId.of n.kind a.size).narrow? (.only .moduleDecl) = none := by
      rw [← Option.not_isSome_iff_eq_none, Ident.isSome_narrow?]
      simpa [Class.admits, NodeId.of] using hkind
    rw [hnarrow, insert, if_neg hkind]
    exact (List.append_nil _).symm

theorem modules_apply (a : Arena) (op : Op) (h : a.modules = a.idsOf (.only .moduleDecl)) :
    (a.apply op).2.modules = (a.apply op).2.idsOf (.only .moduleDecl) := by
  cases op with
  | insert n s => exact modules_insert h n s
  | insertAs k fields s => exact modules_insert h ⟨k, fields⟩ s
  | setCoreLibrary m => exact h

theorem given_eq_mapIdx (ops : List Op) :
    given ops = (inserted ops).mapIdx fun i e => .of e.1.kind i := by
  refine List.ext_getElem? fun i => ?_
  rw [← ids_run, getElem?_ids, ← Array.getElem?_toList, ← map_fst_entries, entries_run,
    List.getElem?_map, Option.map_map, List.getElem?_mapIdx]
  rfl

theorem getElem?_inserted_append (h : (inserted ops)[i]? = some (n, s)) (later : List Op) :
    (inserted (ops ++ later))[i]? = some (n, s) := by
  obtain ⟨hlt, -⟩ := List.getElem?_eq_some_iff.1 h
  rw [inserted, List.filterMap_append]
  exact (List.getElem?_append_left hlt).trans h

/-- Whatever operations follow, an identity that an insertion gave leads to the node and its
span, and no identity that the arena lists claims a kind that is not stored. -/
theorem keeps_run (ops : List Op) : Keeps ops where
  nodes_eq := by rw [← map_fst_entries, entries_run]
  spans_eq := by rw [← map_snd_entries, entries_run]
  given_eq := given_eq_mapIdx ops
  stored {i n s} h later := by
    have hentry : (run (ops ++ later)).entries[i]? = some (n, s) := by
      rw [entries_run]
      exact getElem?_inserted_append h later
    obtain ⟨hnode, hspan⟩ := getElem?_entries_eq_some_iff.1 hentry
    have hnode? : (run (ops ++ later)).node? (NodeId.of n.kind i) = some n := hnode
    refine ⟨?_, span_eq_ok_iff.2 hspan, get?_eq_some_iff.2 hnode?⟩
    rw [node, hnode?]
  ids_eq := ids_run ops
  modules_eq := calls_invariant modules_apply rfl
  mem_idsOf_iff _ := mem_idsOf_iff
  isSome_get?_iff id := by rw [isSome_get?]

end Arena

end TypedTree
