import TypedTree.Arena.Visit
import TypedTree.Proofs.Arena.Tree
import TypedTree.Proofs.Preorder

/-!
# What a walk visits

`VisitStep` leads from a visit to those of the children. In a well-built arena a walk comes
to an end (`WellBuilt.exists_visits`) and visits what can be reached by such steps
(`WellBuilt.mem_visits_iff`). If `enter` never stops it, a walk goes to the same nodes in
the same order, whatever is handed down (`map_snd_visits`), and in a tree-shaped arena it
meets no node twice.
-/

namespace TypedTree

open Relation

namespace Arena

variable {γ : Type} {a : Arena} {enter : γ → NodeId → Option γ} {c : γ} {id : NodeId} {n : Node}
  {v w : γ × NodeId} {visits : List (γ × NodeId)} {l order : List NodeId}

/-- From a visit to the visit of a child, with what is handed down to it. -/
def VisitStep (a : Arena) (enter : γ → NodeId → Option γ) (v w : γ × NodeId) : Prop :=
  enter v.1 v.2 = some w.1 ∧ a.HasChild v.2 w.2

theorem children_of_node? (hn : a.node? id = some n) : a.children id = .ok n.children := by
  simp [children, node, hn, Except.map]

theorem children_eq_ok_iff {l : List NodeId} :
    a.children id = .ok l ↔ ∃ n, a.node? id = some n ∧ l = n.children := by
  cases hn : a.node? id with
  | none => simp [children, node, hn, Except.map]
  | some n => simp [children_of_node? hn, eq_comm]

theorem reflTransGen_hasChild (h : ReflTransGen (a.VisitStep enter) v w) :
    ReflTransGen a.HasChild v.2 w.2 :=
  h.lift Prod.snd fun _ _ hstep => hstep.2

theorem exists_visitStep (henter : ∀ c id, (enter c id).isSome)
    (h : ReflTransGen a.HasChild v.2 id) :
    ∃ inner, ReflTransGen (a.VisitStep enter) v (inner, id) := by
  induction h with
  | refl => exact ⟨v.1, .refl⟩
  | @tail x y _ hxy ih =>
      obtain ⟨inner, hinner⟩ := ih
      obtain ⟨next, hnext⟩ := Option.isSome_iff_exists.1 (henter inner x)
      exact ⟨next, hinner.tail ⟨hnext, hxy⟩⟩

theorem WellBuilt.unfoldsOn_children (h : a.WellBuilt) :
    UnfoldsOn (a.children (c := .any)) (fun id => a.contains id = true) a.HasChild where
  exists_parts {id} hid := by
    obtain ⟨n, hn, -⟩ := contains_iff.1 hid
    exact ⟨n.children, children_of_node? hn, fun _ => (hasChild_iff_of_node? hn hid).symm⟩
  closed _ hc := h.contains_child hc

theorem WellBuilt.unfoldsOn_visitsOf (h : a.WellBuilt) (enter : γ → NodeId → Option γ) :
    UnfoldsOn (a.visitsOf enter) (fun v => a.contains v.2 = true) (a.VisitStep enter) where
  exists_parts {v} hv := by
    cases henter : enter v.1 v.2 with
    | none => exact ⟨[], by simp [visitsOf, henter], by simp [VisitStep, henter]⟩
    | some inner =>
        obtain ⟨children, hchildren, hmem⟩ := h.unfoldsOn_children.exists_parts hv
        refine ⟨children.map (inner, ·), by simp [visitsOf, henter, hchildren, Except.map], ?_⟩
        rintro ⟨c, child⟩
        simp [VisitStep, henter, hmem, and_comm]
  closed _ hstep := h.contains_child hstep.2

theorem WellBuilt.exists_children (h : a.WellBuilt) (hid : id.index < a.size) :
    ∃ children, a.children id = .ok children ∧
      ∀ child ∈ children, child.index < a.size ∧ child.index < id.index := by
  obtain ⟨n, hn⟩ := exists_node?_of_lt hid
  refine ⟨n.children, children_of_node? hn, fun child hchild => ?_⟩
  obtain ⟨hcontains, hlt⟩ := h.child_of_node? hn hchild
  exact ⟨index_lt_of_contains hcontains, hlt⟩

theorem WellBuilt.descends_children (h : a.WellBuilt) :
    Descends (a.children (c := .any)) (fun id => id.index < a.size) Ident.index :=
  ⟨h.exists_children⟩

theorem WellBuilt.descends_visitsOf (h : a.WellBuilt) (enter : γ → NodeId → Option γ) :
    Descends (a.visitsOf enter) (fun v => v.2.index < a.size) (fun v => v.2.index) where
  exists_parts {v} hv := by
    cases henter : enter v.1 v.2 with
    | none => exact ⟨[], by simp [visitsOf, henter], by simp⟩
    | some inner =>
        obtain ⟨children, hchildren, hmem⟩ := h.exists_children hv
        exact ⟨children.map (inner, ·), by simp [visitsOf, henter, hchildren, Except.map],
          List.forall_mem_map.2 hmem⟩

/-- A walk needs no more levels than the position of the node has before it, and one. -/
theorem WellBuilt.visitsWithin_eq (h : a.WellBuilt) (hid : id.index < a.size) {depth : Nat}
    (hdepth : id.index < depth) (enter : γ → NodeId → Option γ) (c : γ) :
    a.visitsWithin enter depth c id = a.visits enter c id := by
  rw [visits_eq]
  exact (h.descends_visitsOf enter).preorderWithin_eq hid hdepth (Nat.lt_succ_of_lt hid)

theorem WellBuilt.exists_visits_of_lt (h : a.WellBuilt) (hid : id.index < a.size)
    (enter : γ → NodeId → Option γ) (c : γ) : ∃ visits, a.visits enter c id = .ok visits := by
  rw [visits_eq]
  exact (h.descends_visitsOf enter).exists_preorderWithin hid (Nat.lt_succ_of_lt hid)

theorem WellBuilt.exists_visits (h : a.WellBuilt) (hid : a.contains id = true)
    (enter : γ → NodeId → Option γ) (c : γ) : ∃ visits, a.visits enter c id = .ok visits :=
  h.exists_visits_of_lt (index_lt_of_contains hid) enter c

theorem visitsBelow_eq_ok_iff {children : List NodeId} (hchildren : a.children id = .ok children) :
    a.visitsBelow enter c id = .ok visits ↔ ∃ below : List (List (γ × NodeId)),
      children.map (a.visits enter c) = below.map .ok ∧ visits = below.flatten := by
  rw [visitsBelow, hchildren]
  change (children.mapM (a.visits enter c) >>= fun below => .ok below.flatten) = _ ↔ _
  simp only [bind_eq_ok_iff, mapM_eq_ok_iff, Except.ok.injEq]
  exact exists_congr fun below => and_congr_right fun _ => eq_comm

theorem WellBuilt.exists_visitsBelow (h : a.WellBuilt) (hid : a.contains id = true)
    (enter : γ → NodeId → Option γ) (c : γ) :
    ∃ visits, a.visitsBelow enter c id = .ok visits := by
  obtain ⟨children, hchildren, hmem⟩ := h.unfoldsOn_children.exists_parts hid
  have hvisits : ∀ child ∈ children, ∃ visits, a.visits enter c child = .ok visits :=
    fun child hchild => h.exists_visits (h.contains_child ((hmem child).1 hchild)) enter c
  obtain ⟨below, hbelow⟩ := exists_map_eq_map_ok hvisits
  exact ⟨_, (visitsBelow_eq_ok_iff hchildren).2 ⟨below, hbelow, rfl⟩⟩

theorem WellBuilt.mem_visits_iff (h : a.WellBuilt) (hid : a.contains id = true)
    (hvisits : a.visits enter c id = .ok visits) :
    w ∈ visits ↔ ReflTransGen (a.VisitStep enter) (c, id) w := by
  rw [visits_eq] at hvisits
  exact mem_of_preorderWithin (h.unfoldsOn_visitsOf enter) hid hvisits

/-- The visits from a step on are one piece of all visits. -/
theorem WellBuilt.exists_visits_infix (h : a.WellBuilt) (hid : a.contains id = true)
    (hvisits : a.visits enter c id = .ok visits)
    (hsteps : ReflTransGen (a.VisitStep enter) (c, id) w) :
    ∃ l, a.visits enter w.1 w.2 = .ok l ∧ l <:+: visits := by
  have hunfold := h.unfoldsOn_visitsOf enter
  obtain ⟨l, hl⟩ := h.exists_visits (hunfold.of_reach hid hsteps) enter w.1
  rw [visits_eq] at hvisits
  obtain ⟨depth, m, hm, hpiece⟩ := exists_preorderWithin_infix hunfold hid hvisits hsteps
  refine ⟨l, hl, ?_⟩
  rw [visits_eq] at hl
  rwa [eq_of_preorderWithin hl hm]

/-- A node that is entered is visited before its children, one after another. -/
theorem WellBuilt.exists_visits_of_enter (h : a.WellBuilt) (hn : a.node? id = some n) {inner : γ}
    (henter : enter c id = some inner) (hvisits : a.visits enter c id = .ok visits) :
    ∃ below : List (List (γ × NodeId)), n.children.map (a.visits enter inner) = below.map .ok ∧
      visits = (c, id) :: below.flatten := by
  obtain ⟨below, hbelow⟩ := exists_map_eq_map_ok (l := n.children)
    fun child hchild => h.exists_visits (h.child_of_node? hn hchild).1 enter inner
  refine ⟨below, hbelow, ?_⟩
  have hlt := index_lt_of_node? hn
  have hparts : a.visitsOf enter (c, id) = .ok (n.children.map (inner, ·)) := by
    simp [visitsOf, henter, children_of_node? hn, Except.map]
  have hlists : (n.children.map (inner, ·)).map (preorderWithin (a.visitsOf enter)
      (fun visit => .endlessWalk visit.2) (a.size + 1)) = below.map .ok := by
    rw [← hbelow, List.map_map]
    exact List.map_congr_left fun child _ => (a.visits_eq enter inner child).symm
  rw [visits_eq] at hvisits
  exact Except.ok.inj (hvisits.symm.trans
    ((h.descends_visitsOf enter).preorderWithin_eq_cons hlt (Nat.lt_succ_of_lt hlt) hparts hlists))

/-- What is handed down has no say in where a walk goes that is never stopped. -/
theorem map_snd_visits (henter : ∀ c id, (enter c id).isSome) (c : γ) (id : NodeId) :
    (a.visits enter c id).map (List.map Prod.snd) =
      preorderWithin a.children .endlessWalk (a.size + 1) id := by
  rw [visits_eq]
  refine (map_preorderWithin (fun v => ?_) (fun _ => rfl) (c, id)).symm
  obtain ⟨inner, hinner⟩ := Option.isSome_iff_exists.1 (henter v.1 v.2)
  simp only [visitsOf, hinner]
  cases a.children v.2 with
  | error e => rfl
  | ok children => simp [Except.map, Function.comp_def]

theorem walk_eq_unfoldUnless (stop : NodeId → Bool) (id : NodeId) :
    a.walk stop id =
      preorderWithin (unfoldUnless stop a.children) .endlessWalk (a.size + 1) id := by
  rw [walk, visits_eq]
  refine (map_preorderWithin (fun v => ?_) (fun _ => rfl) ((), id)).symm
  simp only [unfoldUnless, visitsOf, stopAt]
  cases stop v.2 with
  | true => rfl
  | false =>
      cases a.children v.2 with
      | error e => rfl
      | ok children => simp [Except.map, Function.comp_def]

theorem walk_eq_preorderWithin (id : NodeId) :
    a.walk (fun _ => false) id = preorderWithin a.children .endlessWalk (a.size + 1) id :=
  map_snd_visits (fun _ _ => rfl) () id

theorem WellBuilt.exists_walk (h : a.WellBuilt) (hid : a.contains id = true)
    (stop : NodeId → Bool) : ∃ l, a.walk stop id = .ok l := by
  obtain ⟨visits, hvisits⟩ := h.exists_visits hid (stopAt stop) ()
  exact ⟨_, by rw [walk, hvisits]; rfl⟩

theorem WellBuilt.walk_eq_cons (h : a.WellBuilt) (hid : id.index < a.size)
    {children : List NodeId} {walks : List (List NodeId)} (hchildren : a.children id = .ok children)
    (hwalks : children.map (a.walk fun _ => false) = walks.map .ok) :
    a.walk (fun _ => false) id = .ok (id :: walks.flatten) := by
  have hwalk : (a.walk fun _ => false) =
      preorderWithin a.children .endlessWalk (a.size + 1) := by
    funext id
    exact walk_eq_preorderWithin id
  rw [hwalk] at hwalks ⊢
  exact h.descends_children.preorderWithin_eq_cons hid (Nat.lt_succ_of_lt hid) hchildren hwalks

theorem WellBuilt.exists_walks_of_walk (h : a.WellBuilt) (hn : a.node? id = some n)
    (hl : a.walk (fun _ => false) id = .ok l) : ∃ walks : List (List NodeId),
      n.children.map (a.walk fun _ => false) = walks.map .ok ∧ l = id :: walks.flatten := by
  obtain ⟨walks, hwalks⟩ := exists_map_eq_map_ok (l := n.children)
    fun child hchild => h.exists_walk (h.child_of_node? hn hchild).1 fun _ => false
  have heq := h.walk_eq_cons (index_lt_of_node? hn) (children_of_node? hn) hwalks
  exact ⟨walks, hwalks, Except.ok.inj (hl.symm.trans heq)⟩

theorem WellBuilt.mem_visitsBelow_iff (h : a.WellBuilt) (hid : a.contains id = true)
    (hvisits : a.visitsBelow enter c id = .ok visits) :
    w ∈ visits ↔ ∃ child, a.HasChild id child ∧ ReflTransGen (a.VisitStep enter) (c, child) w := by
  obtain ⟨children, hchildren, hmem⟩ := h.unfoldsOn_children.exists_parts hid
  obtain ⟨below, hbelow, rfl⟩ := (visitsBelow_eq_ok_iff hchildren).1 hvisits
  obtain ⟨hleft, hright⟩ := exists_of_map_eq_map_ok hbelow
  rw [List.mem_flatten]
  constructor
  · rintro ⟨m, hm, hw⟩
    obtain ⟨child, hchild, hvisits⟩ := hright m hm
    have hstep := (hmem child).1 hchild
    exact ⟨child, hstep, (h.mem_visits_iff (h.contains_child hstep) hvisits).1 hw⟩
  · rintro ⟨child, hstep, hw⟩
    obtain ⟨m, hm, hvisits⟩ := hleft child ((hmem child).2 hstep)
    exact ⟨m, hm, (h.mem_visits_iff (h.contains_child hstep) hvisits).2 hw⟩

theorem WellBuilt.walk_of_visitsBelow (h : a.WellBuilt) (hid : a.contains id = true)
    (henter : ∀ c id, (enter c id).isSome) (hvisits : a.visitsBelow enter c id = .ok visits) :
    a.walk (fun _ => false) id = .ok (id :: visits.map Prod.snd) := by
  obtain ⟨children, hchildren, hmem⟩ := h.unfoldsOn_children.exists_parts hid
  obtain ⟨below, hbelow, rfl⟩ := (visitsBelow_eq_ok_iff hchildren).1 hvisits
  have hwalks : children.map (a.walk fun _ => false) = (below.map (List.map Prod.snd)).map .ok := by
    rw [← map_of_map_eq_map_ok hbelow]
    exact List.map_congr_left fun child _ => by
      rw [walk_eq_preorderWithin, map_snd_visits henter]
  rw [h.walk_eq_cons (index_lt_of_contains hid) hchildren hwalks, List.map_flatten]

theorem WellBuilt.mem_walk_iff (h : a.WellBuilt) (hid : a.contains id = true)
    (hl : a.walk (fun _ => false) id = .ok l) {x : NodeId} :
    x ∈ l ↔ ReflTransGen a.HasChild id x := by
  rw [walk_eq_preorderWithin] at hl
  exact mem_of_preorderWithin h.unfoldsOn_children hid hl

theorem WellBuilt.exists_walk_toAny (h : a.WellBuilt) {k : Class} {id : Ident k}
    (hid : a.contains id = true) :
    ∃ l, a.walk (fun _ => false) id.toAny = .ok l ∧
      ∀ x, x ∈ l ↔ ReflTransGen a.HasChild id.toAny x := by
  rw [← contains_toAny] at hid
  obtain ⟨l, hl⟩ := h.exists_walk hid fun _ => false
  exact ⟨l, hl, fun _ => h.mem_walk_iff hid hl⟩

theorem TreeShaped.nodup_walk (h : a.TreeShaped) (hid : a.contains id = true)
    (hl : a.walk (fun _ => false) id = .ok l) : l.Nodup := by
  rw [walk_eq_preorderWithin] at hl
  refine nodup_of_preorderWithin h.wellBuilt.unfoldsOn_children h.forest ?_ hid hl
  intro x parts hx hparts
  obtain ⟨n, hn, -⟩ := contains_iff.1 hx
  rw [children_of_node? hn] at hparts
  cases hparts
  exact h.nodup_children hn

theorem walkAll_eq_ok_iff {stop : NodeId → Bool} :
    a.walkAll stop = .ok order ↔ ∃ walks : List (List NodeId),
      (a.modules.map fun m => a.walk stop m.toAny) = walks.map .ok ∧ order = walks.flatten := by
  simp only [walkAll, bind_eq_ok_iff, mapM_eq_ok_iff]
  exact exists_congr fun walks => and_congr_right fun _ =>
    ⟨fun h => (Except.ok.inj h).symm, fun h => h ▸ rfl⟩

theorem WellBuilt.exists_walkAll (h : a.WellBuilt) (stop : NodeId → Bool) :
    ∃ order, a.walkAll stop = .ok order := by
  obtain ⟨walks, hwalks⟩ := exists_map_eq_map_ok (l := a.modules)
    fun m hm => h.exists_walk (h.contains_module hm) stop
  exact ⟨walks.flatten, walkAll_eq_ok_iff.2 ⟨walks, hwalks, rfl⟩⟩

/-- Different modules have nothing below them in common, so the walk of all of them meets
no node twice either. -/
theorem TreeShaped.nodup_walkAll (h : a.TreeShaped)
    (horder : a.walkAll (fun _ => false) = .ok order) : order.Nodup := by
  obtain ⟨walks, hwalks, rfl⟩ := walkAll_eq_ok_iff.1 horder
  refine List.nodup_flatten.2 ⟨fun l hl => ?_, ?_⟩
  · obtain ⟨m, hm, hwalk⟩ := (exists_of_map_eq_map_ok hwalks).2 l hl
    exact h.nodup_walk (h.wellBuilt.contains_module hm) hwalk
  · refine pairwise_of_map_eq_map_ok hwalks (h.wellBuilt.nodup_modules.imp_of_mem ?_)
    intro m m' hm hm' hne l l' hl hl' x hx hx'
    have hroot {m m' : IdentOf .moduleDecl} (hne : m ≠ m') :
        ¬ ReflTransGen a.HasChild m.toAny m'.toAny := by
      intro hbelow
      rcases reflTransGen_iff_eq_or_transGen.1 hbelow with heq | habove
      · exact hne (Ident.eq_of_toAny_eq heq.symm)
      · exact h.not_above_module (IdentOf.kind_eq m') habove
    have hmx := (h.wellBuilt.mem_walk_iff (h.wellBuilt.contains_module hm) hl).1 hx
    have hmx' := (h.wellBuilt.mem_walk_iff (h.wellBuilt.contains_module hm') hl').1 hx'
    rcases h.forest.total hmx hmx' with hbelow | hbelow
    · exact hroot hne hbelow
    · exact hroot hne.symm hbelow

end Arena

end TypedTree
