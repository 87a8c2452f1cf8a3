import TypedTree.Program.Folded
import TypedTree.Proofs.Preorder

/-!
# Places in folded sequences

One operator may be applied several times in a folded sequence, so an application is known by
its `Place`: the sides taken on the way down to it. `Folded.at?` is the part at a place, and
`Folded.places` lists the places of all parts, those on the left before those on the right and
both before the whole. `InPostorder` says this of the places at which a part shows something
(`inPostorder_placesOf`). What the parts show in this order is what the listings of a folded
sequence hold (`inPostorder_operators`, `inPostorder_operands`, `inPostorder_tokens`).
-/

namespace TypedTree

open scoped List

inductive Side where
  | left
  | right
  deriving DecidableEq, Repr

/-- The sides taken on the way down from the root of a tree. -/
abbrev Place := List Side

namespace Folded

variable {f l r : Folded} {op : IdentOf .nameExpr} {p : Precedence} {s : Side} {a b c : Place}
  {β : Type}

def at? : Folded → Place → Option Folded
  | f, [] => some f
  | leaf _, _ :: _ => none
  | apply _ _ l _, .left :: a => l.at? a
  | apply _ _ _ r, .right :: a => r.at? a

/-- The places of all parts, each behind the places below it. -/
def places : Folded → List Place
  | leaf _ => [[]]
  | apply _ _ l r =>
    l.places.map (List.cons .left) ++ r.places.map (List.cons .right) ++ [[]]

section Parts

@[simp] theorem at?_nil (f : Folded) : f.at? [] = some f := by
  cases f <;> rfl

@[simp] theorem at?_leaf_cons {e : ExprId} : (leaf e).at? (s :: a) = none := rfl

@[simp] theorem at?_apply_left : (apply op p l r).at? (.left :: a) = l.at? a := rfl

@[simp] theorem at?_apply_right : (apply op p l r).at? (.right :: a) = r.at? a := rfl

theorem mem_places_iff : a ∈ f.places ↔ (f.at? a).isSome := by
  induction f generalizing a with
  | leaf e => cases a <;> simp [places]
  | apply op p l r ihl ihr =>
      cases a with
      | nil => simp [places]
      | cons s a => cases s <;> simp [places, ihl, ihr]

theorem nodup_places (f : Folded) : f.places.Nodup := by
  induction f with
  | leaf e => exact List.nodup_singleton _
  | apply op p l r ihl ihr =>
      have hl := ihl.map (List.cons_injective (a := Side.left))
      have hr := ihr.map (List.cons_injective (a := Side.right))
      rw [places, List.nodup_append, List.nodup_append]
      refine ⟨⟨hl, hr, ?_⟩, List.nodup_singleton _, ?_⟩
      · simp
      · rintro a ha b hb rfl
        rw [List.mem_singleton.1 hb] at ha
        simp at ha

theorem map_left_sublist_places :
    l.places.map (List.cons .left) <+ (apply op p l r).places := by
  rw [places, List.append_assoc]
  exact List.sublist_append_left _ _

theorem map_right_sublist_places :
    r.places.map (List.cons .right) <+ (apply op p l r).places :=
  (List.sublist_append_right _ _).trans (List.sublist_append_left _ _)

end Parts

section Order

/-- An order of evaluation within the parts is one within the whole. -/
theorem pair_sublist_places_apply {t : Side} (ha : t :: a ∈ (apply op p l r).places)
    (hb : t :: b ∈ (apply op p l r).places)
    (hl : a ∈ l.places → b ∈ l.places → [a, b] <+ l.places)
    (hr : a ∈ r.places → b ∈ r.places → [a, b] <+ r.places) :
    [t :: a, t :: b] <+ (apply op p l r).places := by
  rw [mem_places_iff] at ha hb
  cases t with
  | left =>
      have hpair := hl (mem_places_iff.2 ha) (mem_places_iff.2 hb)
      exact (hpair.map (List.cons .left)).trans map_left_sublist_places
  | right =>
      have hpair := hr (mem_places_iff.2 ha) (mem_places_iff.2 hb)
      exact (hpair.map (List.cons .right)).trans map_right_sublist_places

theorem pair_sublist_places_of_below (ha : a ∈ f.places) (hb : a ++ s :: b ∈ f.places) :
    [a ++ s :: b, a] <+ f.places := by
  induction f generalizing a with
  | leaf e => cases a <;> simp [mem_places_iff] at hb
  | apply op p l r ihl ihr =>
      cases a with
      | nil =>
          rw [List.nil_append] at hb ⊢
          rw [places, List.mem_append] at hb
          rcases hb with hb | hb
          · exact pair_sublist_append hb (List.mem_singleton_self _)
          · exact absurd (List.mem_singleton.1 hb) (List.cons_ne_nil _ _)
      | cons t a =>
          exact pair_sublist_places_apply hb ha (fun hb ha => ihl ha hb) (fun hb ha => ihr ha hb)

theorem pair_sublist_places_of_sides (hb : a ++ .left :: b ∈ f.places)
    (hc : a ++ .right :: c ∈ f.places) : [a ++ .left :: b, a ++ .right :: c] <+ f.places := by
  induction f generalizing a with
  | leaf e => cases a <;> simp [mem_places_iff] at hb
  | apply op p l r ihl ihr =>
      cases a with
      | nil =>
          rw [List.nil_append, mem_places_iff] at hb hc
          have hl : Side.left :: b ∈ l.places.map (List.cons .left) :=
            List.mem_map_of_mem (mem_places_iff.2 hb)
          have hr : Side.right :: c ∈ r.places.map (List.cons .right) :=
            List.mem_map_of_mem (mem_places_iff.2 hc)
          exact (pair_sublist_append hl hr).trans (List.sublist_append_left _ _)
      | cons t a => exact pair_sublist_places_apply hb hc ihl ihr

end Order

def look? (f : Folded) (item? : Folded → Option β) (a : Place) : Option β := (f.at? a).bind item?

def placesOf (f : Folded) (item? : Folded → Option β) : List Place :=
  f.places.filter fun a => (f.look? item? a).isSome

/-- `places` are the places of `f` at which a part shows something, and `items` is what is shown
there. Each place comes once, behind those below it, and what is on the left of a place comes
before what is on its right. -/
structure InPostorder (f : Folded) (item? : Folded → Option β) (places : List Place)
    (items : List β) : Prop where
  mem_iff : ∀ a, a ∈ places ↔ ∃ g, f.at? a = some g ∧ (item? g).isSome
  nodup : places.Nodup
  below : ∀ {a s b}, a ∈ places → a ++ s :: b ∈ places → [a ++ s :: b, a] <+ places
  sides : ∀ {a b c}, a ++ .left :: b ∈ places → a ++ .right :: c ∈ places →
    [a ++ .left :: b, a ++ .right :: c] <+ places
  items_eq : places.map (f.look? item?) = items.map some

section Items

variable {item? : Folded → Option β}

theorem isSome_look?_iff :
    (f.look? item? a).isSome ↔ ∃ g, f.at? a = some g ∧ (item? g).isSome := by
  rw [look?]
  cases f.at? a <;> simp

theorem mem_placesOf_iff : a ∈ f.placesOf item? ↔ (f.look? item? a).isSome := by
  rw [placesOf, List.mem_filter, mem_places_iff, and_iff_right_iff_imp]
  exact Option.isSome_of_isSome_bind

theorem map_look?_placesOf (f : Folded) (item? : Folded → Option β) :
    (f.placesOf item?).map (f.look? item?) = (f.places.filterMap (f.look? item?)).map some := by
  rw [placesOf, List.map_filterMap]
  induction f.places with
  | nil => rfl
  | cons a as ih => cases h : f.look? item? a <;> simp [h, ih]

theorem inPostorder_placesOf (f : Folded) (item? : Folded → Option β) :
    f.InPostorder item? (f.placesOf item?) (f.places.filterMap (f.look? item?)) where
  mem_iff _ := mem_placesOf_iff.trans isSome_look?_iff
  nodup := (nodup_places f).filter _
  below ha hb := pair_sublist_filter
    (pair_sublist_places_of_below (List.mem_filter.1 ha).1 (List.mem_filter.1 hb).1) hb ha
  sides hb hc := pair_sublist_filter
    (pair_sublist_places_of_sides (List.mem_filter.1 hb).1 (List.mem_filter.1 hc).1) hb hc
  items_eq := map_look?_placesOf f item?

theorem filterMap_look?_leaf {e : ExprId} :
    (leaf e).places.filterMap ((leaf e).look? item?) = (item? (leaf e)).toList := by
  have hroot : (leaf e).look? item? [] = item? (leaf e) := rfl
  rw [places, List.filterMap_cons, hroot]
  cases item? (leaf e) <;> rfl

/-- What the parts show: first those on the left, then those on the right, then the whole. -/
theorem filterMap_look?_apply :
    (apply op p l r).places.filterMap ((apply op p l r).look? item?) =
      l.places.filterMap (l.look? item?) ++ r.places.filterMap (r.look? item?) ++
        (item? (apply op p l r)).toList := by
  have hroot : (apply op p l r).look? item? [] = item? (apply op p l r) := rfl
  rw [places, List.filterMap_append, List.filterMap_append, List.filterMap_map,
    List.filterMap_map, List.filterMap_cons, hroot]
  congr 1

theorem inPostorder_of_eq {items : Folded → List β}
    (hleaf : ∀ e, items (leaf e) = (item? (leaf e)).toList)
    (happly : ∀ op p l r, items (apply op p l r) =
      items l ++ items r ++ (item? (apply op p l r)).toList) (f : Folded) :
    f.InPostorder item? (f.placesOf item?) (items f) := by
  have heq : f.places.filterMap (f.look? item?) = items f := by
    induction f with
    | leaf e => rw [hleaf, filterMap_look?_leaf]
    | apply op p l r ihl ihr => rw [happly, filterMap_look?_apply, ihl, ihr]
  exact heq ▸ inPostorder_placesOf f item?

end Items

/-- The operand that a tree without applications is. -/
def operand? : Folded → Option ExprId
  | leaf e => some e
  | apply .. => none

/-- The operator that a tree applies last. -/
def operator? : Folded → Option (IdentOf .nameExpr)
  | leaf _ => none
  | apply op .. => some op

def token? : Folded → Option FoldedToken
  | leaf e => some (.operand e)
  | apply op p _ _ => some (.operator op p)

theorem inPostorder_operands (f : Folded) :
    f.InPostorder operand? (f.placesOf operand?) f.operands :=
  inPostorder_of_eq (fun _ => rfl) (fun _ _ _ _ => (List.append_nil _).symm) f

theorem inPostorder_operators (f : Folded) :
    f.InPostorder operator? (f.placesOf operator?) f.operators :=
  inPostorder_of_eq (fun _ => rfl) (fun _ _ _ _ => rfl) f

theorem placesOf_token? (f : Folded) : f.placesOf token? = f.places := by
  refine List.filter_eq_self.2 fun a ha => ?_
  obtain ⟨g, hg⟩ := Option.isSome_iff_exists.1 (mem_places_iff.1 ha)
  exact isSome_look?_iff.2 ⟨g, hg, by cases g <;> rfl⟩

theorem inPostorder_tokens (f : Folded) : f.InPostorder token? f.places f.tokens := by
  have horder : f.InPostorder token? (f.placesOf token?) f.tokens :=
    inPostorder_of_eq (fun _ => rfl) (fun _ _ _ _ => rfl) f
  rwa [placesOf_token?] at horder

end Folded

end TypedTree
