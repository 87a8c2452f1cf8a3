import TypedTree.Proofs.Index.Writes
import TypedTree.Proofs.Scope.Roots

/-!
# Chains walked in full

The check of chains stops a climb where an earlier one has passed. `walkUp` goes up the whole
chain of a scope, whatever is known. What a climb finds wrong does not depend on where it may
stop (`map_rootedFrom`): a scope that is known to be rooted has a chain, no scope below it can
be met again on that chain, and so the rest of the walk succeeds. Hence the check reports what
walks of all chains would report (`checkRooted_eq_forM_walkUp`). A climb is a loop, of which
`pass` is one pass. It is over after at most one pass for each entry of the table and one more,
because no pass but the last meets a key that was seen (`passes_eq`).
-/

namespace TypedTree

namespace ScopeTables

/-- Goes up from `s` to the end of its chain. Meeting a position in `seen` again or ending at a
scope that is no module is an error. -/
def walkUp (t : ScopeTables) (seen : Std.TreeSet Nat) (s : ScopeId) : Except ScopeError Unit :=
  if _hseen : s.index ∈ seen then .error (.cycle s)
  else
    match _hparent : t.parents.get? s with
    | some p => t.walkUp (seen.insert s.index) p
    | none => if s.kind = .moduleDecl then .ok () else .error (.orphan s)
termination_by t.unseen seen
decreasing_by exact unseen_insert_lt _hparent _hseen

/-- The positions that are known to be rooted after climbs from one scope after another. -/
def known (t : ScopeTables) (rooted : Std.TreeSet Nat) (ss : List ScopeId) :
    Except ScopeError (Std.TreeSet Nat) :=
  ss.foldlM (fun rooted s => return (← t.rootedFrom rooted ∅ s) ∪ rooted) rooted

/-- Where a climb is: the positions that it has seen, and the scope that it has come to. -/
structure Climb where
  seen : Std.TreeSet Nat
  scope : ScopeId

/-- One pass of a climb, which then goes on from the parent or has come to its result. -/
def pass (t : ScopeTables) (rooted : Std.TreeSet Nat) (c : Climb) :
    Climb ⊕ Except ScopeError (Std.TreeSet Nat) :=
  if c.scope.index ∈ rooted then .inr (.ok c.seen)
  else if c.scope.index ∈ c.seen then .inr (.error (.cycle c.scope))
  else
    match t.parents.get? c.scope with
    | some p => .inl ⟨c.seen.insert c.scope.index, p⟩
    | none =>
      if c.scope.kind = .moduleDecl then .inr (.ok (c.seen.insert c.scope.index))
      else .inr (.error (.orphan c.scope))

def passes (t : ScopeTables) (rooted : Std.TreeSet Nat) :
    Nat → Climb → Climb ⊕ Except ScopeError (Std.TreeSet Nat)
  | 0, c => .inl c
  | n + 1, c =>
    match t.pass rooted c with
    | .inl c => t.passes rooted n c
    | .inr result => .inr result

variable {t : ScopeTables} {a : Arena} {s : ScopeId} {rooted seen : Std.TreeSet Nat}

/-- A climb is over when it can have seen every key, and its result is that of the recursion. -/
theorem passes_eq_of_unseen_lt {n : Nat} (h : t.unseen seen < n) :
    t.passes rooted n ⟨seen, s⟩ = .inr (t.rootedFrom rooted seen s) := by
  induction n generalizing seen s with
  | zero => exact absurd h (Nat.not_lt_zero _)
  | succ n ih =>
      rw [passes, pass]
      by_cases hmem : s.index ∈ rooted
      · simp only [if_pos hmem, rootedFrom_of_mem hmem]
      · by_cases hseen : s.index ∈ seen
        · simp only [if_neg hmem, if_pos hseen, rootedFrom_of_seen hmem hseen]
        · cases hparent : t.parents.get? s with
          | some p =>
              have hlt : t.unseen (seen.insert s.index) < n :=
                Nat.lt_of_lt_of_le (unseen_insert_lt hparent hseen) (Nat.le_of_lt_succ h)
              simp only [if_neg hmem, if_neg hseen, rootedFrom_of_parent hmem hseen hparent, ih hlt]
          | none =>
              by_cases hkind : s.kind = .moduleDecl
              · simp only [if_neg hmem, if_neg hseen, if_pos hkind,
                  rootedFrom_of_module hmem hseen hparent hkind]
              · simp only [if_neg hmem, if_neg hseen, if_neg hkind,
                  rootedFrom_of_orphan hmem hseen hparent hkind]

theorem passes_eq (t : ScopeTables) (rooted seen : Std.TreeSet Nat) (s : ScopeId) :
    t.passes rooted (t.parents.size + 1) ⟨seen, s⟩ = .inr (t.rootedFrom rooted seen s) := by
  have hle : t.unseen seen ≤ t.parents.entries.length := List.countP_le_length
  rw [Table.length_entries] at hle
  exact passes_eq_of_unseen_lt (Nat.lt_succ_of_le hle)

/-- A walk in full is a climb with nothing known. -/
theorem walkUp_eq : t.walkUp seen s = (t.rootedFrom ∅ seen s).map fun _ => () := by
  have hmem (s : ScopeId) : s.index ∉ (∅ : Std.TreeSet Nat) := Std.TreeSet.not_mem_emptyc
  fun_induction t.walkUp seen s with
  | case1 seen s hseen =>
      rw [rootedFrom_of_seen (hmem s) hseen]
      rfl
  | case2 seen s hseen p hparent ih => rw [rootedFrom_of_parent (hmem s) hseen hparent, ih]
  | case3 seen s hseen hparent hkind =>
      rw [rootedFrom_of_module (hmem s) hseen hparent hkind]
      rfl
  | case4 seen s hseen hparent hkind =>
      rw [rootedFrom_of_orphan (hmem s) hseen hparent hkind]
      rfl

/-- A climb that stops at scopes known to be rooted finds the same error as a walk in full, or
none, if nothing that it has seen lies on the chain ahead. -/
theorem map_rootedFrom (hparents : ∀ {s p}, t.parents.get? s = some p → a.contains p = true)
    (hrooted : ∀ i ∈ rooted, t.RootedAt a i) (hs : a.contains s = true)
    (hseen : ∀ c, t.Chain s c → ∀ x ∈ c, x.index ∉ seen) :
    (t.rootedFrom rooted seen s).map (fun _ => ()) = t.walkUp seen s := by
  have hempty (s : ScopeId) : s.index ∉ (∅ : Std.TreeSet Nat) := Std.TreeSet.not_mem_emptyc
  rw [walkUp_eq]
  fun_induction t.rootedFrom rooted seen s with
  | case1 seen s hmem =>
      -- the rest of the chain has been passed before, and no scope of it has been seen
      obtain ⟨c, hc, hkind⟩ := (hrooted _ hmem s rfl).exists_chain hparents hs
      obtain ⟨reached, hreached⟩ : ∃ reached, t.rootedFrom ∅ seen s = .ok reached :=
        rootedFrom_isOk_of_chain hc hkind (hseen c hc)
      rw [hreached]
      rfl
  | case2 seen s _ hmem => rw [rootedFrom_of_seen (hempty s) hmem]
  | case3 seen s _ hnew p hparent ih =>
      rw [rootedFrom_of_parent (hempty s) hnew hparent]
      refine ih (hparents hparent) fun c hc => ?_
      have hchain : t.Chain s (s :: c) := .parent hparent hc
      exact hchain.notMem_insert (hseen _ hchain)
  | case4 seen s _ hnew hparent hkind =>
      rw [rootedFrom_of_module (hempty s) hnew hparent hkind]
  | case5 seen s _ hnew hparent hkind =>
      rw [rootedFrom_of_orphan (hempty s) hnew hparent hkind]

section Known

variable {ss before after : List ScopeId}

/-- The check of a list goes on from what is known after the first part of it. -/
theorem checkRooted_append :
    t.checkRooted rooted (before ++ after) =
      t.known rooted before >>= fun rooted => t.checkRooted rooted after := by
  induction before generalizing rooted with
  | nil => rfl
  | cons s before ih =>
      rw [List.cons_append, checkRooted, known, List.foldlM_cons]
      simp only [bind_assoc, pure_bind, ih]
      rfl

/-- No position is taken for known but those of rooted scopes. -/
theorem rootedAt_of_known (hparents : ∀ {s p}, t.parents.get? s = some p → a.contains p = true)
    (hrooted : ∀ i ∈ rooted, t.RootedAt a i) (hss : ∀ s ∈ ss, a.contains s = true)
    {reached : Std.TreeSet Nat} (h : t.known rooted ss = .ok reached) :
    ∀ i ∈ reached, t.RootedAt a i := by
  induction ss generalizing rooted with
  | nil =>
      cases h
      exact hrooted
  | cons s ss ih =>
      obtain ⟨hs, hss⟩ := List.forall_mem_cons.1 hss
      rw [known, List.foldlM_cons] at h
      obtain ⟨rooted', hstep, hrest⟩ := bind_eq_ok_iff.1 h
      obtain ⟨chain, hchain, hunion⟩ := bind_eq_ok_iff.1 hstep
      cases hunion
      exact ih (rootedAt_union_of_rootedFrom hparents hrooted hs hchain) hss hrest

theorem checkRooted_eq_forM_walkUp
    (hparents : ∀ {s p}, t.parents.get? s = some p → a.contains p = true)
    (hrooted : ∀ i ∈ rooted, t.RootedAt a i) (hss : ∀ s ∈ ss, a.contains s = true) :
    t.checkRooted rooted ss = ss.forM (t.walkUp ∅) := by
  induction ss generalizing rooted with
  | nil => rfl
  | cons s ss ih =>
      obtain ⟨hs, hss⟩ := List.forall_mem_cons.1 hss
      have hwalk := map_rootedFrom hparents hrooted hs
        fun _ _ x _ => Std.TreeSet.not_mem_emptyc
      have hcons : (s :: ss).forM (t.walkUp ∅) = t.walkUp ∅ s >>= fun _ => ss.forM (t.walkUp ∅) :=
        rfl
      rw [checkRooted, hcons, ← hwalk]
      cases hclimb : t.rootedFrom rooted ∅ s with
      | error e => rfl
      | ok chain => exact ih (rootedAt_union_of_rootedFrom hparents hrooted hs hclimb) hss

end Known

/-- What the check of chains says of tables whose parents are nodes of the arena. A climb comes
to its end, after at most one pass for each entry and one more. The check accepts what walks of
all chains in full would accept, and reports the error that they would report. Whatever scopes
it has gone up from, those that it takes for known are rooted. -/
theorem checkRooted_refines_walkUp
    (h : ∀ e ∈ t.parents.entries, a.contains e.1 = true ∧ a.contains e.2 = true) :
    (∀ rooted seen s, t.passes rooted (t.parents.size + 1) ⟨seen, s⟩ =
        .inr (t.rootedFrom rooted seen s)) ∧
      t.checkRooted ∅ (a.idsOf (.category .scope)) =
        (a.idsOf (.category .scope)).forM (t.walkUp ∅) ∧
      ∀ before after, a.idsOf (.category .scope) = before ++ after →
        t.checkRooted ∅ (a.idsOf (.category .scope)) =
          (t.known ∅ before >>= fun rooted => t.checkRooted rooted after) ∧
        ∀ rooted, t.known ∅ before = .ok rooted →
          ∀ s : ScopeId, s.index ∈ rooted → t.Rooted a s := by
  have hparents {s p : ScopeId} (hp : t.parents.get? s = some p) : a.contains p = true :=
    Table.of_get?_eq_some (a.contains · = true) (fun e he => (h e he).2) hp
  have hscopes (s : ScopeId) (hs : s ∈ a.idsOf (.category .scope)) : a.contains s = true :=
    Arena.mem_idsOf_iff.1 hs
  have hempty : ∀ i ∈ (∅ : Std.TreeSet Nat), t.RootedAt a i :=
    fun i hi => absurd hi Std.TreeSet.not_mem_emptyc
  refine ⟨passes_eq t, checkRooted_eq_forM_walkUp hparents hempty hscopes, fun before after hids =>
    ⟨hids ▸ checkRooted_append, fun rooted hrooted s hs => ?_⟩⟩
  have hbefore : ∀ s ∈ before, a.contains s = true :=
    fun s hs => hscopes s (hids ▸ List.mem_append_left after hs)
  exact rootedAt_of_known hparents hempty hbefore hrooted _ hs s rfl

section Returning

/-- Parents over the scopes of `ScopedProgram.nestedModule`. The unit lies inside the function,
that inside the inner module, and the outer module inside itself. -/
def returning : ScopeTables where
  parents := (∅ : Table ScopeId ScopeId).writeAll
    [((IdentOf.ofIndex .functionDecl 0).widen, (IdentOf.ofIndex .moduleDecl 1).widen),
      ((IdentOf.ofIndex .translationUnit 2).widen, (IdentOf.ofIndex .functionDecl 0).widen),
      ((IdentOf.ofIndex .moduleDecl 3).widen, (IdentOf.ofIndex .moduleDecl 3).widen)]

/-- The climbs from the inner module and from the unit stop at once or after one pass, and the
one from the outer module comes back to where it started. -/
theorem checkRooted_returning :
    returning.checkRooted ∅ (ScopedProgram.nestedModule.idsOf (.category .scope)) =
      .error (.cycle (IdentOf.ofIndex .moduleDecl 3).widen) := by
  have hids : ScopedProgram.nestedModule.idsOf (.category .scope) =
      [(IdentOf.ofIndex .functionDecl 0).widen, (IdentOf.ofIndex .moduleDecl 1).widen,
        (IdentOf.ofIndex .translationUnit 2).widen, (IdentOf.ofIndex .moduleDecl 3).widen] := by
    decide
  rw [hids, checkRooted,
    rootedFrom_of_parent (p := (IdentOf.ofIndex .moduleDecl 1).widen)
      (by decide +kernel) (by decide +kernel) (by decide +kernel),
    rootedFrom_of_module (by decide +kernel) (by decide +kernel) (by decide +kernel) rfl]
  change returning.checkRooted _ _ = _
  rw [checkRooted, rootedFrom_of_mem (by decide +kernel)]
  change returning.checkRooted _ _ = _
  rw [checkRooted,
    rootedFrom_of_parent (p := (IdentOf.ofIndex .functionDecl 0).widen)
      (by decide +kernel) (by decide +kernel) (by decide +kernel),
    rootedFrom_of_mem (by decide +kernel)]
  change returning.checkRooted _ _ = _
  rw [checkRooted,
    rootedFrom_of_parent (p := (IdentOf.ofIndex .moduleDecl 3).widen)
      (by decide +kernel) (by decide +kernel) (by decide +kernel),
    rootedFrom_of_seen (by decide +kernel) (by decide +kernel)]
  rfl

theorem checkRooted_refines_walkUp_returning :
    (∀ e ∈ returning.parents.entries, ScopedProgram.nestedModule.contains e.1 = true ∧
        ScopedProgram.nestedModule.contains e.2 = true) ∧
      (ScopedProgram.nestedModule.idsOf (.category .scope)).forM (returning.walkUp ∅) =
        .error (.cycle (IdentOf.ofIndex .moduleDecl 3).widen) ∧
      returning.checkRooted ∅ (ScopedProgram.nestedModule.idsOf (.category .scope)) =
        .error (.cycle (IdentOf.ofIndex .moduleDecl 3).widen) := by
  have hparents : ∀ e ∈ returning.parents.entries,
      ScopedProgram.nestedModule.contains e.1 = true ∧
        ScopedProgram.nestedModule.contains e.2 = true :=
    Table.forall_mem_entries_writeAll (P := (ScopedProgram.nestedModule.contains · = true))
      (Q := (ScopedProgram.nestedModule.contains · = true)) (by decide +kernel)
  exact ⟨hparents, (checkRooted_refines_walkUp hparents).2.1 ▸ checkRooted_returning,
    checkRooted_returning⟩

end Returning

end ScopeTables

end TypedTree
