import TypedTree.Proofs.Acceptance
import TypedTree.Proofs.Scope.Chain
import TypedTree.Scope.Check

/-!
# The check of chains

`ScopeTables.checkRooted` goes up from one scope after another and stops wherever an
earlier chain has passed. It accepts exactly the tables in which each of the scopes is
rooted (`checkRooted_eq_ok_iff`). What carries the proof is that the positions it takes
for known are those of rooted scopes only, whatever scopes it has started from.
-/

namespace TypedTree

namespace ScopeTables

def RootedAt (t : ScopeTables) (a : Arena) (i : Nat) : Prop :=
  ∀ s : ScopeId, s.index = i → t.Rooted a s

variable {t : ScopeTables} {a : Arena} {s : ScopeId} {rooted seen reached : Std.TreeSet Nat}

theorem Rooted.rootedAt (h : t.Rooted a s) : t.RootedAt a s.index :=
  fun _ heq => h.of_index_eq heq.symm

/-- A climb that succeeds starts at a rooted scope, and it adds positions of rooted
scopes only to those that it has seen. -/
theorem rooted_of_rootedFrom
    (hparents : ∀ {s p}, t.parents.get? s = some p → a.contains p = true)
    (hrooted : ∀ i ∈ rooted, t.RootedAt a i) (hs : a.contains s = true)
    (h : t.rootedFrom rooted seen s = .ok reached) :
    t.Rooted a s ∧ ∀ i ∈ reached, i ∈ seen ∨ t.RootedAt a i := by
  fun_induction t.rootedFrom rooted seen s with
  | case1 seen s hmem =>
      -- an earlier chain has passed here, so nothing new is seen
      cases h
      exact ⟨hrooted _ hmem s rfl, fun i hi => .inl hi⟩
  | case2 => cases h
  | case3 seen s _ _ p hp ih =>
      obtain ⟨hproot, hreached⟩ := ih (hparents hp) h
      have hsroot : t.Rooted a s := .parent hp hproot
      refine ⟨hsroot, fun i hi => ?_⟩
      rcases hreached i hi with hi | hi
      · rcases Std.TreeSet.mem_insert.1 hi with heq | hi
        · exact .inr (Nat.compare_eq_eq.1 heq ▸ hsroot.rootedAt)
        · exact .inl hi
      · exact .inr hi
  | case4 seen s _ _ hroot hkind =>
      cases h
      have hsroot : t.Rooted a s := by
        rw [Arena.contains_iff_kindAt?, hkind] at hs
        exact .module hroot hs
      refine ⟨hsroot, fun i hi => ?_⟩
      rcases Std.TreeSet.mem_insert.1 hi with heq | hi
      · exact .inr (Nat.compare_eq_eq.1 heq ▸ hsroot.rootedAt)
      · exact .inl hi
  | case5 => cases h

theorem rootedFrom_of_mem (h : s.index ∈ rooted) : t.rootedFrom rooted seen s = .ok seen := by
  rw [rootedFrom.eq_def, if_pos h]

theorem rootedFrom_of_parent {p : ScopeId} (h : s.index ∉ rooted) (hseen : s.index ∉ seen)
    (hp : t.parents.get? s = some p) :
    t.rootedFrom rooted seen s = t.rootedFrom rooted (seen.insert s.index) p := by
  rw [rootedFrom.eq_def, if_neg h, dif_neg hseen]
  split
  · next q hq =>
    rw [hp] at hq
    cases hq
    rfl
  · next hnone =>
    rw [hp] at hnone
    cases hnone

theorem rootedFrom_of_module (h : s.index ∉ rooted) (hseen : s.index ∉ seen)
    (hroot : t.parents.get? s = none) (hkind : s.kind = .moduleDecl) :
    t.rootedFrom rooted seen s = .ok (seen.insert s.index) := by
  rw [rootedFrom.eq_def, if_neg h, dif_neg hseen]
  split
  · next q hq =>
    rw [hroot] at hq
    cases hq
  · exact if_pos hkind

theorem rootedFrom_of_orphan (h : s.index ∉ rooted) (hseen : s.index ∉ seen)
    (hroot : t.parents.get? s = none) (hkind : s.kind ≠ .moduleDecl) :
    t.rootedFrom rooted seen s = .error (.orphan s) := by
  rw [rootedFrom.eq_def, if_neg h, dif_neg hseen]
  split
  · next q hq =>
    rw [hroot] at hq
    cases hq
  · exact if_neg hkind

theorem rootedFrom_of_seen (h : s.index ∉ rooted) (hseen : s.index ∈ seen) :
    t.rootedFrom rooted seen s = .error (.cycle s) := by
  rw [rootedFrom.eq_def, if_neg h, dif_pos hseen]

/-- Having seen the first scope of a chain, a climb does not meet it again on the rest. -/
theorem Chain.notMem_insert {c : List ScopeId} (hc : t.Chain s (s :: c))
    (hseen : ∀ x ∈ s :: c, x.index ∉ seen) : ∀ x ∈ c, x.index ∉ seen.insert s.index := by
  have hnodup := hc.nodup
  rw [List.map_cons, List.nodup_cons] at hnodup
  intro x hx hmem
  rcases Std.TreeSet.mem_insert.1 hmem with heq | hmem
  · rw [Nat.compare_eq_eq.1 heq] at hnodup
    exact hnodup.1 (List.mem_map_of_mem hx)
  · exact hseen x (List.mem_cons_of_mem s hx) hmem

theorem rootedFrom_isOk_of_chain {c : List ScopeId} (hc : t.Chain s c)
    (hkind : ∀ m ∈ c.getLast?, m.kind = .moduleDecl)
    (hseen : ∀ x ∈ c, x.index ∉ seen) : ∃ reached, t.rootedFrom rooted seen s = .ok reached := by
  induction hc generalizing seen with
  | @root s hs =>
      have hs' : s.index ∉ seen := hseen s (by simp)
      by_cases hmem : s.index ∈ rooted
      · exact ⟨_, rootedFrom_of_mem hmem⟩
      · exact ⟨_, rootedFrom_of_module hmem hs' hs (hkind s rfl)⟩
  | @parent s p c hs hp ih =>
      have hs' : s.index ∉ seen := hseen s (by simp)
      have hseen' := (Chain.parent hs hp).notMem_insert hseen
      have hkind' : ∀ m ∈ c.getLast?, m.kind = .moduleDecl := by
        obtain ⟨r, rfl⟩ := hp.exists_cons
        simpa using hkind
      by_cases hmem : s.index ∈ rooted
      · exact ⟨_, rootedFrom_of_mem hmem⟩
      · rw [rootedFrom_of_parent hmem hs' hs]
        exact ih hkind' hseen'

theorem Chain.contains (hparents : ∀ {s p}, t.parents.get? s = some p → a.contains p = true)
    {c : List ScopeId} (hc : t.Chain s c) (hs : a.contains s = true) :
    ∀ x ∈ c, a.contains x = true := by
  induction hc with
  | root => simpa using hs
  | parent hp _ ih => exact List.forall_mem_cons.2 ⟨hs, ih (hparents hp)⟩

/-- The chain of a rooted scope ends at one that claims to be a module. -/
theorem Rooted.exists_chain (hparents : ∀ {s p}, t.parents.get? s = some p → a.contains p = true)
    (hs : a.contains s = true) (h : t.Rooted a s) :
    ∃ c, t.Chain s c ∧ ∀ m ∈ c.getLast?, m.kind = .moduleDecl := by
  obtain ⟨c, hc, -, m, hm, -, hkind⟩ := h
  refine ⟨c, hc, fun m' hm' => ?_⟩
  obtain rfl : m' = m := Option.some.inj (hm'.symm.trans hm)
  have hmem := hc.contains hparents hs m' (List.mem_of_getLast? hm)
  rw [Arena.contains_iff_kindAt?, hkind] at hmem
  exact (Option.some.inj hmem).symm

theorem Rooted.isOk_rootedFrom
    (hparents : ∀ {s p}, t.parents.get? s = some p → a.contains p = true)
    (hs : a.contains s = true) (h : t.Rooted a s) :
    ∃ reached, t.rootedFrom rooted ∅ s = .ok reached := by
  obtain ⟨c, hc, hkind⟩ := h.exists_chain hparents hs
  exact rootedFrom_isOk_of_chain hc hkind (by simp)

/-- The scopes of a climb that succeeds join those that are known to be rooted. -/
theorem rootedAt_union_of_rootedFrom
    (hparents : ∀ {s p}, t.parents.get? s = some p → a.contains p = true)
    (hrooted : ∀ i ∈ rooted, t.RootedAt a i) (hs : a.contains s = true)
    (h : t.rootedFrom rooted ∅ s = .ok reached) : ∀ i ∈ reached ∪ rooted, t.RootedAt a i := by
  intro i hi
  rcases Std.TreeSet.mem_union_iff.1 hi with hi | hi
  · have hreached := (rooted_of_rootedFrom hparents hrooted hs h).2 i hi
    exact hreached.resolve_left Std.TreeSet.not_mem_emptyc
  · exact hrooted i hi

/-- The shared set of rooted positions changes nothing about what is accepted. -/
theorem checkRooted_eq_ok_iff {ss : List ScopeId}
    (hparents : ∀ {s p}, t.parents.get? s = some p → a.contains p = true)
    (hss : ∀ s ∈ ss, a.contains s = true) (hrooted : ∀ i ∈ rooted, t.RootedAt a i) :
    t.checkRooted rooted ss = .ok () ↔ ∀ s ∈ ss, t.Rooted a s := by
  induction ss generalizing rooted with
  | nil => simp [checkRooted]
  | cons s ss ih =>
      obtain ⟨hs, hss⟩ := List.forall_mem_cons.1 hss
      rw [checkRooted, bind_eq_ok_iff, List.forall_mem_cons]
      constructor
      · rintro ⟨chain, hchain, hrest⟩
        have hunion := rootedAt_union_of_rootedFrom hparents hrooted hs hchain
        exact ⟨(rooted_of_rootedFrom hparents hrooted hs hchain).1, (ih hss hunion).1 hrest⟩
      · rintro ⟨hsroot, hrest⟩
        obtain ⟨chain, hchain⟩ := hsroot.isOk_rootedFrom hparents hs
        have hunion := rootedAt_union_of_rootedFrom hparents hrooted hs hchain
        exact ⟨chain, hchain, (ih hss hunion).2 hrest⟩

end ScopeTables

end TypedTree
