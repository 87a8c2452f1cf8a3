import TypedTree.Proofs.Index.Writes
import TypedTree.Proofs.Scope.Rooting
import TypedTree.Scope.Program

/-!
# Tables that fit an arena

`ScopeTables.Fits` says what scope tables promise about an arena, without a word on the
order of the tests: the arena knows every identity in them, a scope lists no declaration
of another one, every scope is rooted, and no declaration and no variable is left out.
`check_eq_ok_iff` says that the check accepts exactly the tables that fit.
-/

namespace TypedTree

def pairIdents {c d : Class} (entries : List (Ident c × Ident d)) : List NodeId :=
  entries.flatMap fun e => [e.1.toAny, e.2.toAny]

theorem forall_mem_pairIdents {c d : Class} {entries : List (Ident c × Ident d)}
    {p : NodeId → Prop} :
    (∀ id ∈ pairIdents entries, p id) ↔ ∀ e ∈ entries, p e.1.toAny ∧ p e.2.toAny := by
  simp only [pairIdents, List.forall_mem_flatMap, List.forall_mem_cons, List.not_mem_nil,
    false_imp_iff, implies_true, and_true]

namespace ScopeTables

def idents (t : ScopeTables) : List NodeId :=
  pairIdents t.parents.entries ++
    (t.decls.entries.flatMap fun e => e.1.toAny :: e.2.map Ident.toAny) ++
    pairIdents t.declScopes.entries ++ pairIdents t.nameScopes.entries ++
    pairIdents t.bindings.entries

/-- The tables describe the scopes of the arena. -/
structure Fits (t : ScopeTables) (a : Arena) : Prop where
  /-- The tables hold no identity that is not one of the arena. -/
  known : ∀ id ∈ t.idents, a.contains id = true
  /-- A declaration has the scope that lists it. -/
  listed : ∀ e ∈ t.decls.entries, ∀ d ∈ e.2,
    ∃ s, t.declScopes.get? d = some s ∧ s.index = e.1.index
  rooted : ∀ s ∈ a.idsOf (.category .scope), t.Rooted a s
  owned : ∀ d ∈ a.idsOf (.category .decl), t.declScopes.contains d = true
  bound : ∀ v ∈ a.idsOf (.only .varDecl), t.bindings.contains v = true

variable {t : ScopeTables} {a : Arena}

theorem forall_mem_idents {p : NodeId → Prop} :
    (∀ id ∈ t.idents, p id) ↔
      (∀ e ∈ t.parents.entries, p e.1.toAny ∧ p e.2.toAny) ∧
      (∀ e ∈ t.decls.entries, p e.1.toAny ∧ ∀ d ∈ e.2, p d.toAny) ∧
      (∀ e ∈ t.declScopes.entries, p e.1.toAny ∧ p e.2.toAny) ∧
      (∀ e ∈ t.nameScopes.entries, p e.1.toAny ∧ p e.2.toAny) ∧
      ∀ e ∈ t.bindings.entries, p e.1.toAny ∧ p e.2.toAny := by
  have hdecls : (∀ id ∈ t.decls.entries.flatMap fun e => e.1.toAny :: e.2.map Ident.toAny, p id) ↔
      ∀ e ∈ t.decls.entries, p e.1.toAny ∧ ∀ d ∈ e.2, p d.toAny := by
    simp only [List.forall_mem_flatMap, List.forall_mem_cons, List.forall_mem_map]
  simp only [idents, List.forall_mem_append, forall_mem_pairIdents, hdecls, and_assoc]

-- `entries` sorts by slots, which does not evaluate, so the order of indices is taken here
instance (p : NodeId → Prop) [DecidablePred p] : Decidable (∀ id ∈ t.idents, p id) :=
  decidable_of_iff
    ((∀ e ∈ t.parents.sortedEntries, p e.1.toAny ∧ p e.2.toAny) ∧
      (∀ e ∈ t.decls.sortedEntries, p e.1.toAny ∧ ∀ d ∈ e.2, p d.toAny) ∧
      (∀ e ∈ t.declScopes.sortedEntries, p e.1.toAny ∧ p e.2.toAny) ∧
      (∀ e ∈ t.nameScopes.sortedEntries, p e.1.toAny ∧ p e.2.toAny) ∧
      ∀ e ∈ t.bindings.sortedEntries, p e.1.toAny ∧ p e.2.toAny)
    (by simp only [forall_mem_idents, (Table.perm_sortedEntries _).mem_iff])

instance : Decidable (t.Fits a) :=
  decidable_of_iff
    ((∀ id ∈ t.idents, a.contains id = true) ∧
      (∀ e ∈ t.decls.sortedEntries, ∀ d ∈ e.2,
        (t.declScopes.get? d).map Ident.index = some e.1.index) ∧
      (∀ s ∈ a.idsOf (.category .scope), t.Rooted a s) ∧
      (∀ d ∈ a.idsOf (.category .decl), t.declScopes.contains d = true) ∧
      ∀ v ∈ a.idsOf (.only .varDecl), t.bindings.contains v = true)
    (by
      simp only [← (Table.perm_sortedEntries _).mem_iff, Option.map_eq_some_iff]
      exact ⟨fun ⟨hknown, hlisted, hrooted, howned, hbound⟩ =>
          ⟨hknown, hlisted, hrooted, howned, hbound⟩,
        fun h => ⟨h.known, h.listed, h.rooted, h.owned, h.bound⟩⟩)

theorem checkPairs_eq_ok_iff {c d : Class} {entries : List (Ident c × Ident d)} :
    a.checkPairs entries = .ok () ↔
      ∀ e ∈ entries, a.contains e.1 = true ∧ a.contains e.2 = true := by
  unfold Arena.checkPairs
  rw [forM_eq_ok_iff]
  refine forall₂_congr fun e _ => ?_
  rw [andThen_eq_ok_iff, Arena.checkNode_eq_ok_iff, Arena.checkNode_eq_ok_iff]

theorem checkDecls_eq_ok_iff :
    t.checkDecls a = .ok () ↔
      ∀ e ∈ t.decls.entries, a.contains e.1 = true ∧
        ∀ d ∈ e.2, a.contains d = true ∧
          ∃ s, t.declScopes.get? d = some s ∧ s.index = e.1.index := by
  unfold checkDecls
  rw [forM_eq_ok_iff]
  refine forall₂_congr fun e _ => ?_
  rw [andThen_eq_ok_iff, Arena.checkNode_eq_ok_iff, forM_eq_ok_iff]
  refine and_congr_right fun _ => forall₂_congr fun d _ => ?_
  rw [andThen_eq_ok_iff, Arena.checkNode_eq_ok_iff]
  refine and_congr_right fun _ => ?_
  cases t.declScopes.get? d with
  | none => simp [throw, throwThe, MonadExceptOf.throw]
  | some s =>
      rw [unless_eq_ok_iff]
      simp [Ident.same]

theorem Fits.contains (h : t.Fits a) :
    (∀ e ∈ t.parents.entries, a.contains e.1 = true ∧ a.contains e.2 = true) ∧
    (∀ e ∈ t.decls.entries, a.contains e.1 = true ∧ ∀ d ∈ e.2, a.contains d = true) ∧
    (∀ e ∈ t.declScopes.entries, a.contains e.1 = true ∧ a.contains e.2 = true) ∧
    (∀ e ∈ t.nameScopes.entries, a.contains e.1 = true ∧ a.contains e.2 = true) ∧
    ∀ e ∈ t.bindings.entries, a.contains e.1 = true ∧ a.contains e.2 = true := by
  have hknown := h.known
  rw [forall_mem_idents] at hknown
  simpa only [Arena.contains_toAny] using hknown

theorem check_eq_ok_iff : t.check a = .ok () ↔ t.Fits a := by
  have hcheck : t.check a = .ok () ↔
      (∀ id ∈ t.idents, a.contains id = true) ∧
      (∀ e ∈ t.decls.entries, ∀ d ∈ e.2,
        ∃ s, t.declScopes.get? d = some s ∧ s.index = e.1.index) ∧
      t.checkRooted ∅ (a.idsOf (.category .scope)) = .ok () ∧
      (∀ d ∈ a.idsOf (.category .decl), t.declScopes.contains d = true) ∧
      ∀ v ∈ a.idsOf (.only .varDecl), t.bindings.contains v = true := by
    unfold check
    simp only [andThen_eq_ok_iff, checkPairs_eq_ok_iff, checkDecls_eq_ok_iff, forM_eq_ok_iff,
      unless_eq_ok_iff, forall_mem_idents, Arena.contains_toAny]
    constructor
    · rintro ⟨hparents, hdecls, hscopes, hnames, hbindings, hrooted, howned, hbound⟩
      exact ⟨⟨hparents, fun e he => ⟨(hdecls e he).1, fun d hd => ((hdecls e he).2 d hd).1⟩,
        hscopes, hnames, hbindings⟩, fun e he d hd => ((hdecls e he).2 d hd).2, hrooted,
        howned, hbound⟩
    · rintro ⟨⟨hparents, hdecls, hscopes, hnames, hbindings⟩, hlisted, hrooted, howned, hbound⟩
      exact ⟨hparents, fun e he => ⟨(hdecls e he).1, fun d hd => ⟨(hdecls e he).2 d hd,
        hlisted e he d hd⟩⟩, hscopes, hnames, hbindings, hrooted, howned, hbound⟩
  have hchains (hknown : ∀ id ∈ t.idents, a.contains id = true) :
      t.checkRooted ∅ (a.idsOf (.category .scope)) = .ok () ↔
        ∀ s ∈ a.idsOf (.category .scope), t.Rooted a s := by
    have hparents : ∀ e ∈ t.parents.entries, a.contains e.2 = true := by
      intro e he
      rw [← Arena.contains_toAny]
      exact ((forall_mem_idents.1 hknown).1 e he).2
    exact checkRooted_eq_ok_iff (Table.of_get?_eq_some (a.contains · = true) hparents)
      (fun s hs => Arena.mem_idsOf_iff.1 hs) fun i hi => absurd hi Std.TreeSet.not_mem_emptyc
  rw [hcheck]
  constructor
  · rintro ⟨hknown, hlisted, hrooted, howned, hbound⟩
    exact ⟨hknown, hlisted, (hchains hknown).1 hrooted, howned, hbound⟩
  · rintro ⟨hknown, hlisted, hrooted, howned, hbound⟩
    exact ⟨hknown, hlisted, (hchains hknown).2 hrooted, howned, hbound⟩

theorem Fits.contains_parent (h : t.Fits a) {s q : ScopeId} (hq : t.parents.get? s = some q) :
    a.contains q = true := by
  obtain ⟨hparents, -⟩ := h.contains
  exact Table.of_get?_eq_some (a.contains · = true) (fun e he => (hparents e he).2) hq

theorem Fits.exists_parent (h : t.Fits a) {s : ScopeId} (hs : a.contains s = true)
    (hkind : s.kind ≠ .moduleDecl) : ∃ q, t.parents.get? s = some q := by
  obtain ⟨chain, hchain, -, m, hm, -, hmodule⟩ := h.rooted s (Arena.mem_idsOf_iff.2 hs)
  -- a chain of one scope ends there, which makes it a module
  cases hchain with
  | root =>
      obtain rfl : s = m := by simpa using hm
      rw [Arena.contains_iff_kindAt?, hmodule] at hs
      exact absurd (Option.some.inj hs).symm hkind
  | @parent _ q _ hq _ => exact ⟨q, hq⟩

theorem Fits.contains_declScope (h : t.Fits a) {d : DeclId} {s : ScopeId}
    (hs : t.declScopes.get? d = some s) : a.contains s = true := by
  obtain ⟨-, -, hscopes, -, -⟩ := h.contains
  exact Table.of_get?_eq_some (a.contains · = true) (fun e he => (hscopes e he).2) hs

theorem Fits.exists_declScope (h : t.Fits a) {d : DeclId} (hd : a.contains d = true) :
    ∃ s, t.declScopes.get? d = some s ∧ a.contains s = true := by
  obtain ⟨s, hs⟩ := Option.isSome_iff_exists.1 (h.owned d (Arena.mem_idsOf_iff.2 hd))
  exact ⟨s, hs, h.contains_declScope hs⟩

theorem Fits.exists_binding (h : t.Fits a) {v : IdentOf .varDecl} (hv : a.contains v = true) :
    ∃ b, t.bindings.get? v = some b ∧ a.contains b = true := by
  obtain ⟨-, -, -, -, hbindings⟩ := h.contains
  obtain ⟨b, hb⟩ := Option.isSome_iff_exists.1 (h.bound v (Arena.mem_idsOf_iff.2 hv))
  exact ⟨b, hb, Table.of_get?_eq_some (a.contains · = true) (fun e he => (hbindings e he).2) hb⟩

end ScopeTables

namespace ScopedProgram

/-- Tables make a scoped program with an arena exactly if they fit it, and they are then
in the program as they are. -/
theorem ofTables?_eq_ok_iff_fits {a : Arena} {t : ScopeTables} {p : ScopedProgram} :
    ofTables? a t = .ok p ↔ t.Fits a ∧ p = ⟨a, t⟩ := by
  rw [ofTables?_eq_ok_iff, ScopeTables.check_eq_ok_iff]

theorem ofArena?_eq_ok_iff {a : Arena} {p : ScopedProgram} :
    ofArena? a = .ok p ↔ ∃ t, a.resolve = .ok t ∧ t.Fits a ∧ p = ⟨a, t⟩ := by
  simp only [ofArena?, bind_eq_ok_iff, mapError_eq_ok_iff, ofTables?_eq_ok_iff,
    ScopeTables.check_eq_ok_iff]

/-- Scoped programs as they are made, before anything is added. -/
def Validated (p : ScopedProgram) : Prop :=
  (∃ a, ofArena? a = .ok p) ∨ ∃ a t, ofTables? a t = .ok p

theorem Validated.fits {p : ScopedProgram} (h : p.Validated) : p.tables.Fits p.arena := by
  rcases h with ⟨a, h⟩ | ⟨a, t, h⟩
  · obtain ⟨t, -, hfits, rfl⟩ := ofArena?_eq_ok_iff.1 h
    exact hfits
  · obtain ⟨hcheck, rfl⟩ := ofTables?_eq_ok_iff.1 h
    exact ScopeTables.check_eq_ok_iff.1 hcheck

end ScopedProgram

end TypedTree
