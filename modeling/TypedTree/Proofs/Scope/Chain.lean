import Mathlib.Data.List.Nodup
import Mathlib.Data.List.Perm.Subperm
import TypedTree.Proofs.Arena.Identity
import TypedTree.Scope.Tables

/-!
# Chains of parents

`Chain t s c` says that `c` lists `s`, its parent, the parent of that, and so on up to
a scope without a parent. There is at most one such list, and no scope comes twice in
it (`Chain.nodup`), so a scope with a chain has no cycle above it. `Rooted t a s` says
that the chain of `s` exists and ends at a module of the arena `a`.
-/

namespace TypedTree

namespace ScopeTables

/-- `c` lists the scopes from `s` upward. The last of them has no parent. -/
inductive Chain (t : ScopeTables) : ScopeId → List ScopeId → Prop
  | root {s : ScopeId} (h : t.parents.get? s = none) : t.Chain s [s]
  | parent {s p : ScopeId} {c : List ScopeId} (h : t.parents.get? s = some p)
      (hp : t.Chain p c) : t.Chain s (s :: c)

/-- Going up from `s` never meets a scope twice and ends at a module without a parent. -/
def Rooted (t : ScopeTables) (a : Arena) (s : ScopeId) : Prop :=
  ∃ c, t.Chain s c ∧ (c.map Ident.index).Nodup ∧
    ∃ m ∈ c.getLast?, t.parents.get? m = none ∧ a.kindAt? m = some .moduleDecl

variable {t : ScopeTables} {a : Arena} {s s' p : ScopeId} {c c' r : List ScopeId}

theorem get?_parents_congr (h : s.index = s'.index) :
    t.parents.get? s = t.parents.get? s' :=
  t.parents.get?_congr h

namespace Chain

theorem exists_cons (h : t.Chain s c) : ∃ r, c = s :: r := by
  cases h with
  | root => exact ⟨[], rfl⟩
  | parent => exact ⟨_, rfl⟩

/-- The chain from `s` is the chain from any scope at the position of `s`, but for the
scope that it starts with. -/
theorem of_index_eq (h : t.Chain s (s :: r)) (heq : s.index = s'.index) :
    t.Chain s' (s' :: r) := by
  cases h with
  | root hs => exact .root (by rwa [← get?_parents_congr heq])
  | parent hs hp => exact .parent (by rwa [← get?_parents_congr heq]) hp

theorem unique (h : t.Chain s c) (h' : t.Chain s c') : c = c' := by
  induction h generalizing c' with
  | root hs =>
      cases h' with
      | root => rfl
      | parent hs' =>
          rw [hs] at hs'
          cases hs'
  | parent hs hp ih =>
      cases h' with
      | root hs' =>
          rw [hs] at hs'
          cases hs'
      | parent hs' hp' =>
          rw [hs] at hs'
          cases hs'
          rw [ih hp']

theorem of_mem (h : t.Chain s c) (hx : p ∈ c) : ∃ l r, c = l ++ r ∧ t.Chain p r := by
  induction h with
  | root hs =>
      obtain rfl := List.mem_singleton.1 hx
      exact ⟨[], _, rfl, .root hs⟩
  | @parent s q c hs hp ih =>
      rcases List.mem_cons.1 hx with rfl | hx
      · exact ⟨[], _, rfl, .parent hs hp⟩
      · obtain ⟨l, r, rfl, hr⟩ := ih hx
        exact ⟨s :: l, r, rfl, hr⟩

/-- No scope comes twice in a chain: from its second place on the chain would be as long
as from its first. -/
theorem nodup (h : t.Chain s c) : (c.map Ident.index).Nodup := by
  induction h with
  | root => simp
  | @parent s p c hs hp ih =>
      refine List.nodup_cons.2 ⟨fun hmem => ?_, ih⟩
      obtain ⟨x, hx, heq⟩ := List.mem_map.1 hmem
      obtain ⟨l, r, rfl, hr⟩ := hp.of_mem hx
      obtain ⟨r, rfl⟩ := hr.exists_cons
      have hlong : t.Chain s (s :: (l ++ x :: r)) := .parent hs hp
      have hlength := congrArg List.length (hlong.unique (hr.of_index_eq heq))
      simp only [List.length_cons, List.length_append] at hlength
      omega

end Chain

theorem Rooted.module (h : t.parents.get? s = none) (hkind : a.kindAt? s = some .moduleDecl) :
    t.Rooted a s :=
  ⟨[s], .root h, by simp, s, rfl, h, hkind⟩

theorem Rooted.parent (h : t.parents.get? s = some p) (hp : t.Rooted a p) : t.Rooted a s := by
  obtain ⟨c, hc, hnodup, m, hm, hlast⟩ := hp
  obtain ⟨r, rfl⟩ := hc.exists_cons
  have hchain : t.Chain s (s :: p :: r) := .parent h hc
  exact ⟨_, hchain, hchain.nodup, m, by simpa using hm, hlast⟩

theorem Rooted.of_index_eq (h : t.Rooted a s) (heq : s.index = s'.index) : t.Rooted a s' := by
  obtain ⟨c, hc, -, m, hm, hroot, hkind⟩ := h
  obtain ⟨r, rfl⟩ := hc.exists_cons
  have hchain := hc.of_index_eq heq
  cases r with
  | nil =>
      obtain rfl : s = m := by simpa using hm
      rw [get?_parents_congr heq] at hroot
      exact .module hroot (by rwa [← Arena.kindAt?_congr heq])
  | cons p r => exact ⟨_, hchain, hchain.nodup, m, by simpa using hm, hroot, hkind⟩

theorem Chain.ancestorsWithin_eq {steps : Nat} (h : t.Chain s l) (hsteps : l.length ≤ steps + 1) :
    t.ancestorsWithin steps s = l := by
  induction h generalizing steps with
  | root hs => exact ancestorsWithin_of_root hs steps
  | @parent s p l hs hp ih =>
      obtain ⟨r, rfl⟩ := hp.exists_cons
      simp only [List.length_cons] at hsteps ih
      obtain ⟨steps, rfl⟩ : ∃ n, steps = n + 1 := ⟨steps - 1, by omega⟩
      rw [ancestorsWithin_of_parent hs, ih (by omega)]

/-- All scopes of a chain but the last have a parent, so there are entries for them. -/
theorem Chain.length_le (h : t.Chain s l) : l.length ≤ t.parents.size + 1 := by
  have hparent : ∀ x ∈ l.dropLast, ∃ p, t.parents.get? x = some p := by
    induction h with
    | root => simp
    | @parent s p l hs hp ih =>
        obtain ⟨r, rfl⟩ := hp.exists_cons
        exact List.forall_mem_cons.2 ⟨⟨p, hs⟩, ih⟩
  have hsubset : l.dropLast.map Ident.index ⊆ t.parents.entries.map fun e => e.1.index := by
    intro i hi
    obtain ⟨x, hx, rfl⟩ := List.mem_map.1 hi
    obtain ⟨p, hp⟩ := hparent x hx
    obtain ⟨k, hk, hmem⟩ := (t.parents.get?_eq_some_iff x p).1 hp
    exact List.mem_map.2 ⟨(k, p), hmem, hk⟩
  have hnodup : (l.dropLast.map Ident.index).Nodup :=
    h.nodup.sublist ((List.dropLast_sublist l).map Ident.index)
  have hlength := (List.subperm_of_subset hnodup hsubset).length_le
  simp only [List.length_map, List.length_dropLast, Table.length_entries] at hlength
  omega

theorem Chain.ancestors_eq (h : t.Chain s l) : t.ancestors s = l := by
  rw [ScopeTables.ancestors_eq, h.ancestorsWithin_eq h.length_le]

theorem exists_ancestorsWithin_eq_cons (t : ScopeTables) (steps : Nat) (s : ScopeId) :
    ∃ r, t.ancestorsWithin steps s = s :: r := by
  cases steps with
  | zero => exact ⟨[], rfl⟩
  | succ steps =>
      cases h : t.parents.get? s with
      | none => exact ⟨[], ancestorsWithin_of_root h _⟩
      | some p => exact ⟨_, ancestorsWithin_of_parent h steps⟩

/-- The climb of `ancestors` reaches the end of the chain, so it tells which scopes are
rooted. -/
theorem rooted_iff : t.Rooted a s ↔
    ∃ m ∈ (t.ancestors s).getLast?, t.parents.get? m = none ∧ a.kindAt? m = some .moduleDecl := by
  constructor
  · rintro ⟨c, hc, -, hend⟩
    rwa [hc.ancestors_eq]
  · rw [ancestors_eq]
    generalize t.parents.size = steps
    intro hend
    induction steps generalizing s with
    | zero =>
        rcases hend with ⟨m, hm, hroot, hkind⟩
        obtain rfl : s = m := by simpa [ancestorsWithin_zero] using hm
        exact .module hroot hkind
    | succ steps ih =>
        cases hp : t.parents.get? s with
        | none =>
            rw [ancestorsWithin_of_root hp] at hend
            rcases hend with ⟨m, hm, -, hkind⟩
            obtain rfl : s = m := by simpa using hm
            exact .module hp hkind
        | some p =>
            rcases t.exists_ancestorsWithin_eq_cons steps p with ⟨r, hr⟩
            rw [ancestorsWithin_of_parent hp, hr, List.getLast?_cons_cons] at hend
            exact .parent hp (ih (hr.symm ▸ hend))

instance : Decidable (t.Rooted a s) := decidable_of_iff _ rooted_iff.symm

end ScopeTables

end TypedTree
