import Mathlib.Data.Finset.Insert
import TypedTree.Proofs.Arena.Walk

/-!
# Walks that stop at some kinds

`InPreorder P order` says that `order` lists the nodes which the modules lead to along nodes of
other kinds than those in `P`, each once, and that it lists them in preorder. A walk through all
modules that stops at the kinds in `P` gives such a list (`TreeShaped.inPreorder_walkAll`), and
it is the list of the unstopped walk without the nodes that have a node of these kinds above them.
-/

namespace TypedTree

open Relation
open scoped List

namespace Arena

def ofKinds (P : Finset Kind) (id : NodeId) : Bool := decide (id.kind ∈ P)

def LeadsTo (a : Arena) (P : Finset Kind) (p c : NodeId) : Prop := a.HasChild p c ∧ p.kind ∉ P

/-- A node of one of the kinds is above the node. -/
def Hidden (a : Arena) (P : Finset Kind) (id : NodeId) : Prop :=
  ∃ q, TransGen a.HasChild q id ∧ q.kind ∈ P

/-- `order` lists in preorder what the modules lead to along nodes of kinds that are not
in `P`. -/
structure InPreorder (a : Arena) (P : Finset Kind) (order : List NodeId) : Prop where
  mem_iff : ∀ x, x ∈ order ↔ ∃ m ∈ a.modules, ReflTransGen (a.LeadsTo P) m.toAny x
  nodup : order.Nodup
  /-- A node comes before all nodes below it. -/
  above : ∀ {x y}, x ∈ order → y ∈ order → TransGen a.HasChild x y → [x, y] <+ order
  /-- All nodes at and below a child come before those at and below a later child. -/
  children : ∀ {p : NodeId} {parts c d x y}, a.children p = .ok parts → [c, d] <+ parts →
    ReflTransGen a.HasChild c x → ReflTransGen a.HasChild d y → x ∈ order → y ∈ order →
    [x, y] <+ order
  /-- All nodes at and below a module come before those at and below a later module. -/
  modules : ∀ {m m' : IdentOf .moduleDecl} {x y}, [m, m'] <+ a.modules →
    ReflTransGen a.HasChild m.toAny x → ReflTransGen a.HasChild m'.toAny y → x ∈ order →
    y ∈ order → [x, y] <+ order

variable {a : Arena} {P : Finset Kind} {order : List NodeId} {x y : NodeId}
  {m : IdentOf .moduleDecl}

theorem WellBuilt.unfoldsOn_ofKinds (h : a.WellBuilt) (P : Finset Kind) :
    UnfoldsOn (unfoldUnless (ofKinds P) a.children) (fun id => a.contains id = true)
      (a.LeadsTo P) := by
  have hsteps : a.LeadsTo P = fun p c => a.HasChild p c ∧ ofKinds P p = false := by
    funext p c
    simp [LeadsTo, ofKinds]
  exact hsteps ▸ h.unfoldsOn_children.unfoldUnless (ofKinds P)

theorem WellBuilt.mem_walkAll_iff (h : a.WellBuilt)
    (horder : a.walkAll (ofKinds P) = .ok order) :
    x ∈ order ↔ ∃ m ∈ a.modules, ReflTransGen (a.LeadsTo P) m.toAny x := by
  obtain ⟨walks, hwalks, rfl⟩ := walkAll_eq_ok_iff.1 horder
  obtain ⟨hleft, hright⟩ := exists_of_map_eq_map_ok hwalks
  have hwalk {m : IdentOf .moduleDecl} {l : List NodeId} (hm : m ∈ a.modules)
      (hl : a.walk (ofKinds P) m.toAny = .ok l) :
      x ∈ l ↔ ReflTransGen (a.LeadsTo P) m.toAny x := by
    rw [walk_eq_unfoldUnless] at hl
    exact mem_of_preorderWithin (h.unfoldsOn_ofKinds P) (h.contains_module hm) hl
  rw [List.mem_flatten]
  constructor
  · rintro ⟨l, hl, hx⟩
    obtain ⟨m, hm, hml⟩ := hright l hl
    exact ⟨m, hm, (hwalk hm hml).1 hx⟩
  · rintro ⟨m, hm, hx⟩
    obtain ⟨l, hl, hml⟩ := hleft m hm
    exact ⟨l, hl, (hwalk hm hml).2 hx⟩

/-- Whatever is above a node that a module leads to is the module or below it. -/
theorem TreeShaped.reach_of_reach (h : a.TreeShaped) (hx : ReflTransGen a.HasChild m.toAny x)
    (hy : ReflTransGen a.HasChild y x) : ReflTransGen a.HasChild m.toAny y := by
  rcases h.forest.total hx hy with hmy | hym
  · exact hmy
  · rcases reflTransGen_iff_eq_or_transGen.1 hym with heq | habove
    · exact heq ▸ .refl
    · exact absurd habove (h.not_above_module m.kind_eq)

theorem TreeShaped.unstopped_iff (h : a.TreeShaped) (hx : ReflTransGen a.HasChild m.toAny x) :
    Unstopped a.HasChild (ofKinds P) m.toAny x ↔ ¬ a.Hidden P x := by
  constructor
  · rintro hun ⟨q, hqx, hq⟩
    have hstop := hun q (h.reach_of_reach hx hqx.to_reflTransGen) hqx
    exact of_decide_eq_false hstop hq
  · intro hnot q _ hqx
    exact decide_eq_false fun hq => hnot ⟨q, hqx, hq⟩

open scoped Classical in
theorem TreeShaped.walk_ofKinds (h : a.TreeShaped) (hm : m ∈ a.modules) :
    a.walk (ofKinds P) m.toAny =
      (a.walk (fun _ => false) m.toAny).map (List.filter fun x => ¬ a.Hidden P x) := by
  have hcontains := h.wellBuilt.contains_module hm
  obtain ⟨l, hl⟩ := h.wellBuilt.exists_walk hcontains fun _ => false
  rw [hl]
  rw [walk_eq_preorderWithin] at hl
  rw [walk_eq_unfoldUnless]
  refine preorderWithin_unfoldUnless h.wellBuilt.unfoldsOn_children h.forest hcontains ?_ hl
  exact fun x hx => decide_eq_true_iff.trans (h.unstopped_iff hx).symm

open scoped Classical in
theorem TreeShaped.walkAll_ofKinds (h : a.TreeShaped) (P : Finset Kind) :
    a.walkAll (ofKinds P) =
      (a.walkAll fun _ => false).map (List.filter fun x => ¬ a.Hidden P x) := by
  obtain ⟨all, hall⟩ := h.wellBuilt.exists_walkAll fun _ => false
  obtain ⟨walks, hwalks, rfl⟩ := walkAll_eq_ok_iff.1 hall
  rw [hall]
  refine walkAll_eq_ok_iff.2 ⟨_, ?_, List.filter_flatten⟩
  rw [List.map_congr_left fun m hm => h.walk_ofKinds hm]
  exact map_of_map_eq_map_ok hwalks _

section All

variable {all : List NodeId}

theorem WellBuilt.exists_walk_of_mem (h : a.WellBuilt)
    (hall : a.walkAll (fun _ => false) = .ok all) (hx : x ∈ all) :
    ∃ m ∈ a.modules, ReflTransGen a.HasChild m.toAny x ∧
      ∃ l, a.walk (fun _ => false) m.toAny = .ok l ∧ l <+ all := by
  obtain ⟨walks, hwalks, rfl⟩ := walkAll_eq_ok_iff.1 hall
  obtain ⟨l, hl, hxl⟩ := List.mem_flatten.1 hx
  obtain ⟨m, hm, hml⟩ := (exists_of_map_eq_map_ok hwalks).2 l hl
  exact ⟨m, hm, (h.mem_walk_iff (h.contains_module hm) hml).1 hxl, l, hml,
    List.sublist_flatten_of_mem hl⟩

theorem TreeShaped.pair_sublist_of_above (h : a.TreeShaped)
    (hall : a.walkAll (fun _ => false) = .ok all) (hx : x ∈ all)
    (hxy : TransGen a.HasChild x y) : [x, y] <+ all := by
  obtain ⟨m, hm, hmx, l, hl, hsub⟩ := h.wellBuilt.exists_walk_of_mem hall hx
  rw [walk_eq_preorderWithin] at hl
  exact (TypedTree.pair_sublist_of_above h.wellBuilt.unfoldsOn_children h.forest.acyclic
    (h.wellBuilt.contains_module hm) hl hmx hxy).trans hsub

theorem TreeShaped.pair_sublist_of_children (h : a.TreeShaped)
    (hall : a.walkAll (fun _ => false) = .ok all) {p c d : NodeId} {parts : List NodeId}
    (hparts : a.children p = .ok parts) (hcd : [c, d] <+ parts)
    (hcx : ReflTransGen a.HasChild c x) (hdy : ReflTransGen a.HasChild d y) (hx : x ∈ all) :
    [x, y] <+ all := by
  obtain ⟨m, hm, hmx, l, hl, hsub⟩ := h.wellBuilt.exists_walk_of_mem hall hx
  rw [walk_eq_preorderWithin] at hl
  obtain ⟨n, hn, rfl⟩ := children_eq_ok_iff.1 hparts
  -- `p` may claim any kind, the node at its position has its own
  have hchild : a.HasChild (.of n.kind p.index) c :=
    ⟨n, hn, rfl, hcd.subset List.mem_cons_self⟩
  have hmp := h.reach_of_reach hmx (.head hchild hcx)
  exact (TypedTree.pair_sublist_of_parts h.wellBuilt.unfoldsOn_children
    (h.wellBuilt.contains_module hm) hl hmp (children_of_node? hn) hcd hcx hdy).trans hsub

theorem TreeShaped.pair_sublist_of_modules (h : a.TreeShaped)
    (hall : a.walkAll (fun _ => false) = .ok all) {m m' : IdentOf .moduleDecl}
    (hpair : [m, m'] <+ a.modules) (hmx : ReflTransGen a.HasChild m.toAny x)
    (hmy : ReflTransGen a.HasChild m'.toAny y) : [x, y] <+ all := by
  obtain ⟨walks, hwalks, rfl⟩ := walkAll_eq_ok_iff.1 hall
  obtain ⟨s, t, hs, ht, hst⟩ := exists_pair_of_map_eq_map_ok hwalks hpair
  have hm := h.wellBuilt.contains_module (hpair.subset List.mem_cons_self)
  have hm' := h.wellBuilt.contains_module
    (hpair.subset (List.mem_cons_of_mem m List.mem_cons_self))
  exact pair_sublist_flatten hst ((h.wellBuilt.mem_walk_iff hm hs).2 hmx)
    ((h.wellBuilt.mem_walk_iff hm' ht).2 hmy)

end All

open scoped Classical in
/-- A walk through all modules that stops at some kinds lists what it can reach in preorder, and
it is the walk that stops nowhere without the nodes that have a node of these kinds above. -/
theorem TreeShaped.inPreorder_walkAll (h : a.TreeShaped) (P : Finset Kind) :
    ∃ order all, a.walkAll (ofKinds P) = .ok order ∧ a.walkAll (fun _ => false) = .ok all ∧
      a.InPreorder P order ∧ order = all.filter fun x => ¬ a.Hidden P x := by
  obtain ⟨all, hall⟩ := h.wellBuilt.exists_walkAll fun _ => false
  have horder := h.walkAll_ofKinds P
  rw [hall] at horder
  refine ⟨_, all, horder, hall, ?_, rfl⟩
  constructor
  case mem_iff => exact fun x => h.wellBuilt.mem_walkAll_iff horder
  case nodup => exact (h.nodup_walkAll hall).filter _
  case above =>
    intro x y hx hy hxy
    exact pair_sublist_filter (h.pair_sublist_of_above hall (List.mem_filter.1 hx).1 hxy) hx hy
  case children =>
    intro p parts c d x y hparts hcd hcx hdy hx hy
    exact pair_sublist_filter (h.pair_sublist_of_children hall hparts hcd hcx hdy
      (List.mem_filter.1 hx).1) hx hy
  case modules =>
    intro m m' x y hpair hmx hmy hx hy
    exact pair_sublist_filter (h.pair_sublist_of_modules hall hpair hmx hmy) hx hy

/-- Two modules. The first declares two functions, one of which gives a name, and the second
declares one more. -/
def twoModules : Arena :=
  let function (body : Option Body) : Node :=
    ⟨.functionDecl, ({
      name := none
      genericParameters := []
      explicitCaptures := []
      receiver := none
      parameters := []
      body := body } : FunctionDecl)⟩
  [⟨.nameExpr, ({ domain := .none, name := .empty } : NameExpr)⟩,
    function (some (.expr (IdentOf.ofIndex .nameExpr 0).widen)),
    function none,
    ⟨.translationUnit, ({
      decls := [(IdentOf.ofIndex .functionDecl 1).widen,
        (IdentOf.ofIndex .functionDecl 2).widen] } : TranslationUnit)⟩,
    ⟨.moduleDecl, ({
      name := .empty
      sources := [.ofIndex .translationUnit 3] } : ModuleDecl)⟩,
    function none,
    ⟨.translationUnit, ({
      decls := [(IdentOf.ofIndex .functionDecl 5).widen] } : TranslationUnit)⟩,
    ⟨.moduleDecl, ({
      name := .empty
      sources := [.ofIndex .translationUnit 6] } : ModuleDecl)⟩].foldl
    (fun a n => (a.insert n .dummy).2) ∅

theorem treeShaped_twoModules : twoModules.TreeShaped where
  wellBuilt := by
    unfold twoModules
    repeat refine .insert ?_ (by decide)
    exact .empty
  once := by decide
  noModule := by decide

open scoped Classical in
/-- A walk that stops at functions does not meet the name. -/
theorem inPreorder_twoModules :
    twoModules.TreeShaped ∧
      twoModules.walkAll (ofKinds {.functionDecl}) =
        .ok [.of .moduleDecl 4, .of .translationUnit 3, .of .functionDecl 1, .of .functionDecl 2,
          .of .moduleDecl 7, .of .translationUnit 6, .of .functionDecl 5] ∧
      ∃ order all, twoModules.walkAll (ofKinds {.functionDecl}) = .ok order ∧
        twoModules.walkAll (fun _ => false) = .ok all ∧
        twoModules.InPreorder {.functionDecl} order ∧
        order = all.filter fun x => ¬ twoModules.Hidden {.functionDecl} x := by
  refine ⟨treeShaped_twoModules, ?_, treeShaped_twoModules.inPreorder_walkAll {Kind.functionDecl}⟩
  unfold walkAll walk
  simp only [visits_eq_visitsWithin]
  rfl

end Arena

end TypedTree
