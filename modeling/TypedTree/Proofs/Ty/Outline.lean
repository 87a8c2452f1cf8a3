import Mathlib.Data.List.Nodup
import Mathlib.Data.List.Perm.Subperm
import TypedTree.Proofs.Acceptance
import TypedTree.Proofs.Interning
import TypedTree.Ty.Printer

/-!
# Outlines of types

An `Outline` is a type with its parts opened up in their places among the pieces, as far as a
writer goes. A part that is met inside of itself ends it, and so does one that is not in the
pool. `Visit` leads to the places of an outline, each with the types that enclose it. At every
place stands what the pool and these types alone decide (`fits_of_visit_outline`), so no type
encloses itself and an outline is at most as deep as the pool has types
(`path_of_visit_outline`).
-/

namespace TypedTree

open Relation

namespace Piece

variable {α β γ : Type} {pieces : List (Piece α)} {names : NameTable}

def map (f : α → β) : Piece α → Piece β
  | literal s => literal s
  | name n => name n
  | part x => part (f x)

/-- The text of a piece, with the texts of parts as given. -/
def text (names : NameTable) (part : α → Except Fault String) : Piece α → Except Fault String
  | literal s => .ok s
  | name n => names.lookup n
  | .part x => part x

def concat (names : NameTable) (part : α → Except Fault String) :
    List (Piece α) → Except Fault String
  | [] => return ""
  | piece :: rest => return (← piece.text names part) ++ (← concat names part rest)

/-- The pieces with the knowledge that the parts are among them. -/
def attach (pieces : List (Piece α)) : List (Piece { x // part x ∈ pieces }) :=
  pieces.attach.map fun
    | ⟨literal s, _⟩ => literal s
    | ⟨name n, _⟩ => name n
    | ⟨part x, hx⟩ => part ⟨x, hx⟩

theorem map_comp_map (f : α → β) (g : β → γ) : map g ∘ map f = map (g ∘ f) := by
  funext piece
  cases piece <;> rfl

theorem map_id : map (id : α → α) = id := by
  funext piece
  cases piece <;> rfl

theorem map_attach (pieces : List (Piece α)) :
    (attach pieces).map (map Subtype.val) = pieces := by
  have hval : (map Subtype.val ∘ fun
      | ⟨literal s, _⟩ => literal s
      | ⟨name n, _⟩ => name n
      | ⟨part x, hx⟩ => part ⟨x, hx⟩ : { piece // piece ∈ pieces } → Piece α) = Subtype.val := by
    funext ⟨piece, hpiece⟩
    cases piece <;> rfl
  rw [attach, List.map_map, hval, List.attach_map_subtype_val]

theorem name_mem_map_iff {f : α → β} {n : Name} :
    name n ∈ pieces.map (map f) ↔ name n ∈ pieces := by
  rw [List.mem_map]
  constructor
  · rintro ⟨piece, hmem, heq⟩
    cases piece <;> cases heq
    exact hmem
  · exact fun hmem => ⟨_, hmem, rfl⟩

theorem part_mem_map_iff {f : α → β} {y : β} :
    part y ∈ pieces.map (map f) ↔ ∃ x, part x ∈ pieces ∧ f x = y := by
  rw [List.mem_map]
  constructor
  · rintro ⟨piece, hmem, heq⟩
    cases piece <;> cases heq
    exact ⟨_, hmem, rfl⟩
  · rintro ⟨x, hmem, rfl⟩
    exact ⟨_, hmem, rfl⟩

theorem concat_map (f : α → β) (part : β → Except Fault String) (pieces : List (Piece α)) :
    concat names part (pieces.map (map f)) = concat names (part ∘ f) pieces := by
  induction pieces with
  | nil => rfl
  | cons piece rest ih =>
      have htext : (piece.map f).text names part = piece.text names (part ∘ f) := by
        cases piece <;> rfl
      simp only [List.map_cons, concat, htext, ih]

theorem concat_congr {f g : α → Except Fault String} (h : ∀ x, part x ∈ pieces → f x = g x) :
    concat names f pieces = concat names g pieces := by
  induction pieces with
  | nil => rfl
  | cons piece rest ih =>
      have htext : piece.text names f = piece.text names g := by
        cases piece with
        | literal | name => rfl
        | part x => exact h x List.mem_cons_self
      rw [concat, concat, htext, ih fun x hx => h x (List.mem_cons_of_mem _ hx)]

theorem concat_attach (part : α → Except Fault String) (pieces : List (Piece α)) :
    concat names (fun x => part x.val) (attach pieces) = concat names part pieces := by
  conv => rhs; rw [← map_attach pieces, concat_map]
  rfl

theorem exists_concat_eq_ok_iff {part : α → Except Fault String} :
    (∃ s, concat names part pieces = .ok s) ↔
      (∀ n, name n ∈ pieces → (names.text? n).isSome) ∧
        ∀ x, .part x ∈ pieces → ∃ s, part x = .ok s := by
  have hpieces : (∃ s, concat names part pieces = .ok s) ↔
      ∀ piece ∈ pieces, ∃ s, piece.text names part = .ok s := by
    induction pieces with
    | nil => simp [concat, pure, Except.pure]
    | cons piece rest ih =>
        rw [List.forall_mem_cons, ← ih]
        simp only [concat, bind_eq_ok_iff, pure, Except.pure, Except.ok.injEq]
        constructor
        · rintro ⟨_, s, hs, s', hs', -⟩
          exact ⟨⟨s, hs⟩, s', hs'⟩
        · rintro ⟨⟨s, hs⟩, s', hs'⟩
          exact ⟨_, s, hs, s', hs', rfl⟩
  have hname (n : Name) : (∃ s, names.lookup n = .ok s) ↔ (names.text? n).isSome := by
    simp only [NameTable.lookup_eq_ok_iff, Option.isSome_iff_exists]
  rw [hpieces]
  constructor
  · exact fun h => ⟨fun n hn => (hname n).1 (h _ hn), fun x hx => h _ hx⟩
  · rintro ⟨hnames, hparts⟩ piece hpiece
    cases piece with
    | literal s => exact ⟨s, rfl⟩
    | name n => exact (hname n).2 (hnames n hpiece)
    | part x => exact hparts x hpiece

end Piece

/-- A type as a writer sees it. -/
inductive Outline where
  /-- There is no such type. -/
  | foreign (t : TypeId)
  /-- The type is one of those around it. -/
  | cycle (t : TypeId)
  /-- The type in its pieces. -/
  | opened (t : TypeId) (pieces : List (Piece Outline))

namespace Outline

variable {o x : Outline} {t : TypeId} {path : List TypeId} {pieces : List (Piece Outline)}
  {names : NameTable}

def root : Outline → TypeId
  | foreign t => t
  | cycle t => t
  | opened t _ => t

def text (names : NameTable) : Outline → Except Fault String
  | foreign _ => .ok "<foreign type>"
  | cycle _ => .ok "<cycle>"
  | opened _ pieces => Piece.concat names (fun x => x.val.text names) (Piece.attach pieces)
decreasing_by
  have hlt := List.sizeOf_lt_of_mem x.property
  simp only [Piece.part.sizeOf_spec, opened.sizeOf_spec] at hlt ⊢
  omega

/-- Inside of `o` there is `x`, enclosed by the types `path`, the innermost of them first. -/
inductive Visit (o : Outline) : List TypeId → Outline → Prop
  | root : o.Visit [] o
  | part {t : TypeId} {path : List TypeId} {pieces : List (Piece Outline)} {x : Outline}
      (h : o.Visit path (opened t pieces)) (hx : .part x ∈ pieces) : o.Visit (t :: path) x

/-- `x` is what a pool gives inside of the types `path`. -/
inductive Fits (p : TypePool) (a : Arena) (path : List TypeId) : Outline → Prop
  | foreign {t : TypeId} (h : p.get? t = none) : Fits p a path (foreign t)
  | cycle {t : TypeId} {ty : Ty} (h : p.get? t = some ty) (ht : t ∈ path) :
      Fits p a path (cycle t)
  | opened {t : TypeId} {ty : Ty} {pieces : List (Piece Outline)} (h : p.get? t = some ty)
      (ht : t ∉ path) (hpieces : pieces.map (Piece.map root) = ty.layout a) :
      Fits p a path (opened t pieces)

theorem text_opened : (opened t pieces).text names = Piece.concat names (text names) pieces := by
  rw [text, Piece.concat_attach]

theorem visit_opened_iff :
    (opened t pieces).Visit path x ↔
      path = [] ∧ x = opened t pieces ∨
        ∃ y path', .part y ∈ pieces ∧ y.Visit path' x ∧ path = path' ++ [t] := by
  constructor
  · intro h
    induction h with
    | root => exact .inl ⟨rfl, rfl⟩
    | @part u path pieces' x _ hx ih =>
        rcases ih with ⟨rfl, heq⟩ | ⟨y, path, hy, hvisit, rfl⟩
        · cases heq
          exact .inr ⟨x, [], hx, .root, rfl⟩
        · exact .inr ⟨y, u :: path, hy, hvisit.part hx, rfl⟩
  · rintro (⟨rfl, rfl⟩ | ⟨y, path, hy, hvisit, rfl⟩)
    · exact .root
    · induction hvisit with
      | root => exact .part .root hy
      | part _ hx ih => exact .part ih hx

theorem eq_of_visit (h : o.Visit path x) (ho : ∀ t pieces, o ≠ opened t pieces) : x = o := by
  induction h with
  | root => rfl
  | part _ _ ih => exact absurd ih.symm (ho _ _)

theorem exists_text_eq_ok_iff :
    (∃ s, o.text names = .ok s) ↔
      ∀ path t pieces, o.Visit path (opened t pieces) →
        ∀ n, .name n ∈ pieces → (names.text? n).isSome := by
  induction o using text.induct with
  | case1 t =>
      refine iff_of_true ⟨"<foreign type>", by rw [text]⟩ fun path u pieces hvisit => ?_
      cases eq_of_visit hvisit fun _ _ heq => nomatch heq
  | case2 t =>
      refine iff_of_true ⟨"<cycle>", by rw [text]⟩ fun path u pieces hvisit => ?_
      cases eq_of_visit hvisit fun _ _ heq => nomatch heq
  | case3 t pieces ih =>
      rw [text_opened, Piece.exists_concat_eq_ok_iff]
      constructor
      · rintro ⟨hnames, hparts⟩ path u pieces' hvisit n hn
        rcases visit_opened_iff.1 hvisit with ⟨-, heq⟩ | ⟨y, path, hy, hvisit, -⟩
        · cases heq
          exact hnames n hn
        · exact (ih ⟨y, hy⟩).1 (hparts y hy) path u pieces' hvisit n hn
      · intro h
        refine ⟨h [] t pieces .root, fun y hy => (ih ⟨y, hy⟩).2 fun path u pieces' hvisit => ?_⟩
        exact h _ u pieces' (visit_opened_iff.2 (.inr ⟨y, path, hy, hvisit, rfl⟩))

end Outline

namespace TypePool

variable {p : TypePool} {a : Arena} {outer path : List TypeId} {t u : TypeId} {x : Outline}

/-- The outline of a type inside of the types `outer`. -/
def outline (p : TypePool) (a : Arena) (outer : List TypeId) (t : TypeId) : Outline :=
  match _hget : p.get? t with
  | none => .foreign t
  | some ty =>
    if _houter : t ∈ outer then .cycle t
    else .opened t ((ty.layout a).map (Piece.map fun u => p.outline a (t :: outer) u))
termination_by p.unopened outer
decreasing_by exact unopened_cons_lt _hget _houter

theorem outline_of_get?_eq_none (h : p.get? t = none) : p.outline a outer t = .foreign t := by
  rw [outline]
  split
  · rfl
  · cases h.symm.trans ‹_›

theorem outline_of_mem {ty : Ty} (h : p.get? t = some ty) (ht : t ∈ outer) :
    p.outline a outer t = .cycle t := by
  rw [outline]
  split
  · cases h.symm.trans ‹_›
  · rw [dif_pos ht]

theorem outline_of_notMem {ty : Ty} (h : p.get? t = some ty) (ht : t ∉ outer) :
    p.outline a outer t = .opened t ((ty.layout a).map (Piece.map (p.outline a (t :: outer)))) := by
  rw [outline]
  split
  · cases h.symm.trans ‹_›
  · rename_i hget
    cases h.symm.trans hget
    rw [dif_neg ht]

theorem root_outline : (p.outline a outer t).root = t := by
  rw [outline]
  split
  · rfl
  · split <;> rfl

theorem fits_outline : (p.outline a outer t).Fits p a outer := by
  cases hget : p.get? t with
  | none =>
      rw [outline_of_get?_eq_none hget]
      exact .foreign hget
  | some ty =>
      by_cases ht : t ∈ outer
      · rw [outline_of_mem hget ht]
        exact .cycle hget ht
      · have hroot : Outline.root ∘ p.outline a (t :: outer) = id := funext fun _ => root_outline
        rw [outline_of_notMem hget ht]
        refine .opened hget ht ?_
        rw [List.map_map, Piece.map_comp_map, hroot, Piece.map_id, List.map_id]

/-- In every place of an outline there is the outline of some type. -/
theorem exists_eq_outline_of_visit (h : (p.outline a outer t).Visit path x) :
    ∃ u, x = p.outline a (path ++ outer) u := by
  induction h with
  | root => exact ⟨t, rfl⟩
  | @part u path pieces x _ hx ih =>
      rcases ih with ⟨v, hv⟩
      rw [outline] at hv
      split at hv
      · cases hv
      · split at hv
        · cases hv
        · cases hv
          rcases Piece.part_mem_map_iff.1 hx with ⟨w, -, rfl⟩
          exact ⟨w, rfl⟩

theorem fits_of_visit_outline (h : (p.outline a outer t).Visit path x) :
    x.Fits p a (path ++ outer) := by
  rcases exists_eq_outline_of_visit h with ⟨u, rfl⟩
  exact fits_outline

/-- No type encloses itself, and the enclosing types are in the pool. -/
theorem path_of_visit_outline (h : (p.outline a outer t).Visit path x) :
    path.Nodup ∧ (∀ u ∈ path, p.contains u = true) ∧ path.length ≤ p.size := by
  have hpath : path.Nodup ∧ ∀ u ∈ path, p.contains u = true := by
    induction h with
    | root => exact ⟨.nil, fun _ hu => nomatch hu⟩
    | part h _ ih =>
        rcases ih with ⟨hnodup, hcontains⟩
        cases fits_of_visit_outline h with
        | opened hget ht _ =>
            refine ⟨hnodup.cons fun hmem => ht (List.mem_append_left _ hmem), ?_⟩
            refine List.forall_mem_cons.2 ⟨?_, hcontains⟩
            rw [← isSome_get?, hget, Option.isSome_some]
  rcases hpath with ⟨hnodup, hcontains⟩
  refine ⟨hnodup, hcontains, ?_⟩
  have hraw : (path.map TypeId.raw).Nodup :=
    hnodup.map fun _ _ heq => congrArg TypeId.mk heq
  have hsubset : path.map TypeId.raw ⊆ List.range p.size := by
    intro i hi
    rcases List.mem_map.1 hi with ⟨u, hu, rfl⟩
    exact List.mem_range.2 (of_decide_eq_true (hcontains u hu))
  simpa using (List.subperm_of_subset hraw hsubset).length_le

/-- Where a type is written, it is left out exactly if it is one of those around it. -/
theorem eq_cycle_iff_of_visit_outline (h : (p.outline a [] t).Visit path x) :
    x = .cycle x.root ↔ x.root ∈ path := by
  have hfits := fits_of_visit_outline h
  rw [List.append_nil] at hfits
  cases hfits with
  | foreign hget =>
      refine iff_of_false (fun heq => nomatch heq) fun hmem => ?_
      have hcontains := (path_of_visit_outline h).2.1 _ hmem
      rw [← isSome_get?, Outline.root, hget] at hcontains
      cases hcontains
  | cycle _ ht => exact iff_of_true rfl ht
  | opened _ ht _ => exact iff_of_false (fun heq => nomatch heq) ht

def HasPart (p : TypePool) (a : Arena) (t u : TypeId) : Prop :=
  ∃ ty, p.get? t = some ty ∧ .part u ∈ ty.layout a

/-- The name `n` is written in `t`, or in one of its parts at any depth. -/
def Uses (p : TypePool) (a : Arena) (t : TypeId) (n : Name) : Prop :=
  ∃ u ty, ReflTransGen (p.HasPart a) t u ∧ p.get? u = some ty ∧ .name n ∈ ty.layout a

theorem reflTransGen_of_visit_outline (h : (p.outline a outer t).Visit path x) :
    ReflTransGen (p.HasPart a) t x.root := by
  induction h with
  | root => rw [root_outline]
  | part h hx ih =>
      cases fits_of_visit_outline h with
      | opened hget _ hpieces =>
          refine ih.tail ⟨_, hget, ?_⟩
          rw [← hpieces]
          exact Piece.part_mem_map_iff.2 ⟨_, hx, rfl⟩

theorem exists_visit_of_mem_path {o : Outline} (h : o.Visit path x) (hu : u ∈ path) :
    ∃ path' pieces, o.Visit path' (.opened u pieces) := by
  induction h with
  | root => cases hu
  | part h _ ih =>
      rcases List.mem_cons.1 hu with rfl | hu
      · exact ⟨_, _, h⟩
      · exact ih hu

/-- Each type that can be reached is opened in some place. -/
theorem exists_visit_outline (h : ReflTransGen (p.HasPart a) t u) {ty : Ty}
    (hget : p.get? u = some ty) :
    ∃ path pieces, (p.outline a [] t).Visit path (.opened u pieces) := by
  have hopened {path : List TypeId} {x : Outline} {u : TypeId} {ty : Ty}
      (hvisit : (p.outline a [] t).Visit path x) (hu : x.root = u) (hget : p.get? u = some ty) :
      ∃ path' pieces, (p.outline a [] t).Visit path' (.opened u pieces) := by
    subst hu
    have hfits := fits_of_visit_outline hvisit
    rw [List.append_nil] at hfits
    cases hfits with
    | foreign hnone => cases hnone.symm.trans hget
    | cycle _ hmem => exact exists_visit_of_mem_path hvisit hmem
    | opened => exact ⟨_, _, hvisit⟩
  induction h generalizing ty with
  | refl => exact hopened .root root_outline hget
  | tail _ hpart ih =>
      rcases hpart with ⟨ty', hget', hpart⟩
      rcases ih hget' with ⟨path, pieces, hvisit⟩
      cases fits_of_visit_outline hvisit with
      | opened hget'' _ hpieces =>
          cases hget'.symm.trans hget''
          rw [← hpieces] at hpart
          rcases Piece.part_mem_map_iff.1 hpart with ⟨x, hx, hroot⟩
          exact hopened (hvisit.part hx) hroot hget

/-- The outline of a type has a text if all names are known that the type uses. -/
theorem exists_text_outline_eq_ok_iff {names : NameTable} :
    (∃ s, (p.outline a [] t).text names = .ok s) ↔
      ∀ n, p.Uses a t n → (names.text? n).isSome := by
  rw [Outline.exists_text_eq_ok_iff]
  constructor
  · rintro h n ⟨u, ty, hreach, hget, hn⟩
    rcases exists_visit_outline hreach hget with ⟨path, pieces, hvisit⟩
    cases fits_of_visit_outline hvisit with
    | opened hget' _ hpieces =>
        cases hget.symm.trans hget'
        rw [← hpieces, Piece.name_mem_map_iff] at hn
        exact h path u pieces hvisit n hn
  · intro h path u pieces hvisit n hn
    cases fits_of_visit_outline hvisit with
    | opened hget _ hpieces =>
        refine h n ⟨u, _, reflTransGen_of_visit_outline hvisit, hget, ?_⟩
        rwa [← hpieces, Piece.name_mem_map_iff]

end TypePool

end TypedTree
