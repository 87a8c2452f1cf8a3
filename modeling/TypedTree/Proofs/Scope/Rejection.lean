import TypedTree.Proofs.Scope.Lexical

/-!
# Why tables are rejected

A table is listed in the order of its slots, and the check reports the first failure that it
comes upon. `checkAlong` is the check for any other choice of orders. It accepts the same
tables (`checkAlong_eq_ok_iff`), and whatever it reports is so: `ScopeError.TrueOf` says for
each error what it tells of the tables, and `trueOf_of_checkAlong` that it does. A cycle is met
by going up from a scope that may lie outside it, so what is carried along the climb is that
every position seen is one of a scope below the current one (`trueOf_of_rootedFrom`).
-/

namespace TypedTree

open Relation

namespace ScopeTables

/-- The entries of the five tables, each list in an order of its own. -/
structure Listing where
  parents : List (ScopeId × ScopeId)
  decls : List (ScopeId × List DeclId)
  declScopes : List (DeclId × ScopeId)
  nameScopes : List (IdentOf .nameExpr × ScopeId)
  bindings : List (IdentOf .varDecl × IdentOf .bindingDecl)

def listing (t : ScopeTables) : Listing :=
  ⟨t.parents.entries, t.decls.entries, t.declScopes.entries, t.nameScopes.entries,
    t.bindings.entries⟩

structure Listing.Lists (l : Listing) (t : ScopeTables) : Prop where
  parents : l.parents.Perm t.parents.entries
  decls : l.decls.Perm t.decls.entries
  declScopes : l.declScopes.Perm t.declScopes.entries
  nameScopes : l.nameScopes.Perm t.nameScopes.entries
  bindings : l.bindings.Perm t.bindings.entries

/-- The check of the listed declarations, with the lists looked at in the order given. -/
def checkDeclsAlong (decls : List (ScopeId × List DeclId)) (t : ScopeTables) (a : Arena) :
    Except ScopeError Unit :=
  decls.forM fun (scope, decls) => do
    a.checkNode scope
    decls.forM fun decl => do
      a.checkNode decl
      match t.declScopes.get? decl with
      | some scopedIn =>
        unless scopedIn.same scope do throw (.scopeMismatch decl scope (some scopedIn))
      | none => throw (.scopeMismatch decl scope none)

/-- The check of the tables, with their entries looked at in the order of the listing. -/
def checkAlong (l : Listing) (t : ScopeTables) (a : Arena) : Except ScopeError Unit := do
  a.checkPairs l.parents
  checkDeclsAlong l.decls t a
  a.checkPairs l.declScopes
  a.checkPairs l.nameScopes
  a.checkPairs l.bindings
  t.checkRooted ∅ (a.idsOf (.category .scope))
  (a.idsOf (.category .decl)).forM fun decl => do
    unless t.declScopes.contains decl do throw (.unscoped decl)
  (a.idsOf (.only .varDecl)).forM fun var => do
    unless t.bindings.contains var do throw (.unbound var)

def HasParent (t : ScopeTables) (s q : ScopeId) : Prop := t.parents.get? s = some q

end ScopeTables

/-- What an error tells of the tables. -/
def ScopeError.TrueOf (t : ScopeTables) (a : Arena) : ScopeError → Prop
  | .cycle s => TransGen t.HasParent s s
  | .orphan s => a.contains s = true ∧ t.parents.get? s = none ∧ s.kind ≠ .moduleDecl
  | .scopeMismatch d listedIn scopedIn =>
    (∃ l, t.decls.get? listedIn = some l ∧ d ∈ l) ∧ t.declScopes.get? d = scopedIn ∧
      ∀ s ∈ scopedIn, s.index ≠ listedIn.index
  | .unscoped d => a.contains d = true ∧ t.declScopes.get? d = none
  | .unbound v => a.contains v = true ∧ t.bindings.get? v = none
  | .kindMismatch id found => id ∈ t.idents ∧ a.kindAt? id = some found ∧ found ≠ id.kind
  | .foreign id => id ∈ t.idents ∧ a.size ≤ id.index

namespace ScopeTables

variable {l : Listing} {t : ScopeTables} {a : Arena} {e : ScopeError} {c d : Class} {s : ScopeId}
  {rooted seen : Std.TreeSet Nat}

theorem lists_listing (t : ScopeTables) : t.listing.Lists t :=
  ⟨.refl _, .refl _, .refl _, .refl _, .refl _⟩

theorem checkAlong_listing (t : ScopeTables) (a : Arena) :
    checkAlong t.listing t a = t.check a := rfl

theorem checkAlong_eq_ok_iff (h : l.Lists t) : checkAlong l t a = .ok () ↔ t.check a = .ok () := by
  rw [← checkAlong_listing]
  simp only [checkAlong, checkDeclsAlong, Arena.checkPairs, andThen_eq_ok_iff, forM_eq_ok_iff,
    h.parents.mem_iff, h.decls.mem_iff, h.declScopes.mem_iff, h.nameScopes.mem_iff,
    h.bindings.mem_iff, listing]

theorem trueOf_of_checkNode {id : Ident c} (hid : id.toAny ∈ t.idents)
    (h : a.checkNode id = .error e) : e.TrueOf t a := by
  unfold Arena.checkNode at h
  split at h
  · next hnone =>
      cases h
      exact ⟨hid, Arena.size_le_of_kindAt?_eq_none hnone⟩
  · next found hfound =>
      split at h
      · cases h
      · next hne =>
          cases h
          exact ⟨hid, hfound, hne⟩

theorem trueOf_of_checkPairs {entries : List (Ident c × Ident d)}
    (hentries : ∀ e ∈ entries, e.1.toAny ∈ t.idents ∧ e.2.toAny ∈ t.idents)
    (h : a.checkPairs entries = .error e) : e.TrueOf t a := by
  rcases exists_of_forM_eq_error h with ⟨⟨k, v⟩, hmem, herror⟩
  rcases bind_eq_error_iff.1 herror with hk | ⟨_, -, hv⟩
  · exact trueOf_of_checkNode (hentries _ hmem).1 hk
  · exact trueOf_of_checkNode (hentries _ hmem).2 hv

theorem trueOf_of_checkDeclsAlong {decls : List (ScopeId × List DeclId)}
    (hdecls : ∀ e ∈ decls, e ∈ t.decls.entries) (h : checkDeclsAlong decls t a = .error e) :
    e.TrueOf t a := by
  have hidents : ∀ e ∈ t.decls.entries, e.1.toAny ∈ t.idents ∧ ∀ d ∈ e.2, d.toAny ∈ t.idents :=
    (forall_mem_idents.1 fun _ hid => hid).2.1
  rcases exists_of_forM_eq_error h with ⟨⟨scope, listed⟩, hmem, herror⟩
  have hentry := hdecls _ hmem
  rcases bind_eq_error_iff.1 herror with hscope | ⟨_, -, hlisted⟩
  · exact trueOf_of_checkNode (hidents _ hentry).1 hscope
  · rcases exists_of_forM_eq_error hlisted with ⟨decl, hdecl, herror⟩
    rcases bind_eq_error_iff.1 herror with hnode | ⟨_, -, hmismatch⟩
    · exact trueOf_of_checkNode ((hidents _ hentry).2 decl hdecl) hnode
    · have hlists : ∃ l, t.decls.get? scope = some l ∧ decl ∈ l :=
        ⟨listed, Table.get?_of_mem_entries hentry, hdecl⟩
      split at hmismatch
      · next scopedIn hscoped =>
          obtain ⟨hsame, rfl⟩ := unless_eq_error_iff.1 hmismatch
          refine ⟨hlists, hscoped, fun s hs => ?_⟩
          obtain rfl : scopedIn = s := Option.some.inj hs
          exact beq_eq_false_iff_ne.1 hsame
      · next hnone =>
          cases hmismatch
          exact ⟨hlists, hnone, fun s hs => nomatch hs⟩

/-- A climb reports what is so, if it started with the positions of scopes from which the
parents lead to where it is. -/
theorem trueOf_of_rootedFrom
    (hparents : ∀ {s p}, t.parents.get? s = some p → a.contains p = true)
    (hs : a.contains s = true)
    (hseen : ∀ i ∈ seen, ∃ x : ScopeId, x.index = i ∧ a.contains x = true ∧
      TransGen t.HasParent x s)
    (h : t.rootedFrom rooted seen s = .error e) : e.TrueOf t a := by
  fun_induction t.rootedFrom rooted seen s with
  | case1 => cases h
  | case2 seen s _ hmem =>
      cases h
      obtain ⟨x, hindex, hx, hcycle⟩ := hseen _ hmem
      obtain rfl := Arena.eq_of_contains hx hs hindex
      exact hcycle
  | case3 seen s _ _ p hp ih =>
      refine ih (hparents hp) (fun i hi => ?_) h
      rcases Std.TreeSet.mem_insert.1 hi with heq | hi
      · exact ⟨s, Nat.compare_eq_eq.1 heq, hs, .single hp⟩
      · obtain ⟨x, hindex, hx, hbelow⟩ := hseen i hi
        exact ⟨x, hindex, hx, hbelow.tail hp⟩
  | case4 => cases h
  | case5 seen s _ _ hroot hkind =>
      cases h
      exact ⟨hs, hroot, hkind⟩

theorem trueOf_of_checkRooted {ss : List ScopeId}
    (hparents : ∀ {s p}, t.parents.get? s = some p → a.contains p = true)
    (hss : ∀ s ∈ ss, a.contains s = true) (h : t.checkRooted rooted ss = .error e) :
    e.TrueOf t a := by
  induction ss generalizing rooted with
  | nil => cases h
  | cons s ss ih =>
      obtain ⟨hs, hss⟩ := List.forall_mem_cons.1 hss
      rcases bind_eq_error_iff.1 h with hclimb | ⟨chain, -, hrest⟩
      · exact trueOf_of_rootedFrom hparents hs
          (fun i hi => absurd hi Std.TreeSet.not_mem_emptyc) hclimb
      · exact ih hss hrest

theorem trueOf_of_checkAlong (hl : l.Lists t) (h : checkAlong l t a = .error e) :
    e.TrueOf t a := by
  obtain ⟨hparents, -, hscopes, hnames, hbindings⟩ :=
    (forall_mem_idents (t := t) (p := (· ∈ t.idents))).1 fun _ hid => hid
  simp only [checkAlong, bind_eq_error_iff] at h
  rcases h with hstep | ⟨_, hok, hstep | ⟨_, -, hstep | ⟨_, -, hstep | ⟨_, -, hstep |
    ⟨_, -, hstep | ⟨_, -, hstep | ⟨_, -, hstep⟩⟩⟩⟩⟩⟩⟩
  · exact trueOf_of_checkPairs (fun e he => hparents e (hl.parents.mem_iff.1 he)) hstep
  · exact trueOf_of_checkDeclsAlong (fun e he => hl.decls.mem_iff.1 he) hstep
  · exact trueOf_of_checkPairs (fun e he => hscopes e (hl.declScopes.mem_iff.1 he)) hstep
  · exact trueOf_of_checkPairs (fun e he => hnames e (hl.nameScopes.mem_iff.1 he)) hstep
  · exact trueOf_of_checkPairs (fun e he => hbindings e (hl.bindings.mem_iff.1 he)) hstep
  · -- the parents passed their test, so the climbs meet scopes of the arena only
    have hvalues : ∀ e ∈ t.parents.entries, a.contains e.2 = true := fun e he =>
      (checkPairs_eq_ok_iff.1 hok e (hl.parents.mem_iff.2 he)).2
    exact trueOf_of_checkRooted (Table.of_get?_eq_some (a.contains · = true) hvalues)
      (fun s hs => Arena.mem_idsOf_iff.1 hs) hstep
  · obtain ⟨decl, hdecl, herror⟩ := exists_of_forM_eq_error hstep
    obtain ⟨hnone, rfl⟩ := unless_eq_error_iff.1 herror
    exact ⟨Arena.mem_idsOf_iff.1 hdecl, Table.contains_eq_false_iff.1 hnone⟩
  · obtain ⟨var, hvar, herror⟩ := exists_of_forM_eq_error hstep
    obtain ⟨hnone, rfl⟩ := unless_eq_error_iff.1 herror
    exact ⟨Arena.mem_idsOf_iff.1 hvar, Table.contains_eq_false_iff.1 hnone⟩

theorem trueOf_of_check (h : t.check a = .error e) : e.TrueOf t a :=
  trueOf_of_checkAlong t.lists_listing h

end ScopeTables

namespace ScopedProgram

open ScopeTables (Listing)

variable {l : Listing} {t : ScopeTables} {a : Arena}

/-- Accepts an arena with tables that fit it, whose entries are looked at in the order of the
listing. -/
def ofTablesAlong? (l : Listing) (a : Arena) (t : ScopeTables) :
    Except ScopeError ScopedProgram := do
  ScopeTables.checkAlong l t a
  return ⟨a, t⟩

theorem ofTablesAlong?_eq_ok_iff {p : ScopedProgram} :
    ofTablesAlong? l a t = .ok p ↔ ScopeTables.checkAlong l t a = .ok () ∧ p = ⟨a, t⟩ := by
  rw [ofTablesAlong?, bind_eq_ok_iff]
  constructor
  · rintro ⟨_, hcheck, hp⟩
    exact ⟨hcheck, (Except.ok.inj hp).symm⟩
  · rintro ⟨hcheck, rfl⟩
    exact ⟨(), hcheck, rfl⟩

theorem ofTablesAlong?_eq_error_iff {e : ScopeError} :
    ofTablesAlong? l a t = .error e ↔ ScopeTables.checkAlong l t a = .error e := by
  rw [ofTablesAlong?, bind_eq_error_iff]
  exact or_iff_left fun ⟨_, _, h⟩ => nomatch h

theorem ofTables?_eq_error_iff {e : ScopeError} :
    ofTables? a t = .error e ↔ t.check a = .error e :=
  ofTablesAlong?_eq_error_iff (l := t.listing)

/-- Whatever the order in which the tables are listed, they are accepted or not, and if they
are not, the error tells what is so. -/
theorem verdict_of_lists (h : l.Lists t) :
    ofTablesAlong? t.listing a t = ofTables? a t ∧
      (∀ p, ofTablesAlong? l a t = .ok p ↔ ofTables? a t = .ok p) ∧
      ∀ e, ofTablesAlong? l a t = .error e → e.TrueOf t a := by
  refine ⟨rfl, fun p => ?_, fun e he => ?_⟩
  · rw [ofTablesAlong?_eq_ok_iff, ofTables?_eq_ok_iff, ScopeTables.checkAlong_eq_ok_iff h]
  · exact ScopeTables.trueOf_of_checkAlong h (ofTablesAlong?_eq_error_iff.1 he)

section Loop

/-- The unit and the module of `boundLambda` lie inside each other, and the function inside
the unit. -/
def loop : ScopeTables where
  parents := (∅ : Table ScopeId ScopeId)
    |>.insert (IdentOf.ofIndex .functionDecl 5).widen (IdentOf.ofIndex .translationUnit 8).widen
    |>.insert (IdentOf.ofIndex .translationUnit 8).widen (IdentOf.ofIndex .moduleDecl 9).widen
    |>.insert (IdentOf.ofIndex .moduleDecl 9).widen (IdentOf.ofIndex .translationUnit 8).widen

def loopListing : Listing where
  parents := loop.parents.sortedEntries.reverse
  decls := []
  declScopes := []
  nameScopes := []
  bindings := []

theorem lists_loopListing : loopListing.Lists loop where
  parents := (List.reverse_perm _).trans (Table.perm_sortedEntries _).symm
  decls := by rw [loop, Table.entries_empty]; rfl
  declScopes := by simp [loop, loopListing]
  nameScopes := by simp [loop, loopListing]
  bindings := by simp [loop, loopListing]

/-- The climb from the function goes into the cycle, and it is the unit that it meets again. -/
theorem checkRooted_loop :
    loop.checkRooted ∅ (boundLambda.idsOf (.category .scope)) =
      .error (.cycle (IdentOf.ofIndex .translationUnit 8).widen) := by
  have hids : boundLambda.idsOf (.category .scope) =
      [(IdentOf.ofIndex .functionDecl 5).widen, (IdentOf.ofIndex .translationUnit 8).widen,
        (IdentOf.ofIndex .moduleDecl 9).widen] := by decide
  rw [hids, ScopeTables.checkRooted,
    ScopeTables.rootedFrom_of_parent (p := (IdentOf.ofIndex .translationUnit 8).widen)
      (by decide +kernel) (by decide +kernel) (by decide +kernel),
    ScopeTables.rootedFrom_of_parent (p := (IdentOf.ofIndex .moduleDecl 9).widen)
      (by decide +kernel) (by decide +kernel) (by decide +kernel),
    ScopeTables.rootedFrom_of_parent (p := (IdentOf.ofIndex .translationUnit 8).widen)
      (by decide +kernel) (by decide +kernel) (by decide +kernel),
    ScopeTables.rootedFrom_of_seen (by decide +kernel) (by decide +kernel)]
  rfl

theorem verdict_of_lists_loop :
    loopListing.Lists loop ∧
      ofTablesAlong? loopListing boundLambda loop =
        .error (.cycle (IdentOf.ofIndex .translationUnit 8).widen) ∧
      TransGen loop.HasParent (IdentOf.ofIndex .translationUnit 8).widen
        (IdentOf.ofIndex .translationUnit 8).widen := by
  have hpairs : boundLambda.checkPairs loopListing.parents = .ok () := by decide +kernel
  have herror : ofTablesAlong? loopListing boundLambda loop =
      .error (.cycle (IdentOf.ofIndex .translationUnit 8).widen) := by
    rw [ofTablesAlong?_eq_error_iff, ScopeTables.checkAlong, hpairs, checkRooted_loop]
    rfl
  exact ⟨lists_loopListing, herror, (verdict_of_lists lists_loopListing).2.2 _ herror⟩

end Loop

/-- Which of two failures is reported is a matter of the order. -/
example :
    let beyond : ScopeId := ⟨.braceStmt, 12, rfl⟩
    let noBlock : ScopeId := ⟨.braceStmt, 5, rfl⟩
    let unit : ScopeId := (IdentOf.ofIndex .translationUnit 8).widen
    boundLambda.checkPairs [(beyond, unit), (noBlock, unit)] = .error (.foreign beyond.toAny) ∧
      boundLambda.checkPairs [(noBlock, unit), (beyond, unit)] =
        .error (.kindMismatch noBlock.toAny .functionDecl) := by
  decide

end ScopedProgram

end TypedTree
