import Mathlib.Dynamics.PeriodicPts.Defs
import TypedTree.Proofs.Program.Describes
import TypedTree.Proofs.Ty.Fact

/-!
# Canonical types

Without a cycle ahead, `RelationTable.canonical` finds the one type that a type stands for, and
the bound on its steps never matters (`standsFor_iff_of_acyclic`). If the aliases run into a
cycle, the bound decides where on the cycle the answer lies (`canonical_mem_periodicPts`), and
a second search goes on from there. It comes back to the same type exactly if the length of the
cycle divides the number of steps (`canonical_canonical_iff`).
-/

namespace TypedTree

open Function Relation

namespace RelationTable

variable {r : RelationTable} {t u v : TypeId} {n : Nat}

/-- From a type on that leads into no cycle, the aliases lead to the canonical type and to no
other one that is no alias. They do so within as many steps as there are aliases, one less than
the search may take, and further steps change nothing. -/
theorem standsFor_iff_of_acyclic
    (h : ∀ u, ReflTransGen r.AliasOf t u → ¬ TransGen r.AliasOf u u) :
    (∀ u, r.StandsFor t u ↔ u = r.canonical t) ∧
      ∃ n ≤ r.aliases.size, r.aliases.get? (r.follow n t) = none ∧
        ∀ m, n ≤ m → r.follow m t = r.canonical t := by
  rcases exists_standsFor h with ⟨v, hv⟩
  rcases hv.exists_le_size with ⟨n, hle, hn⟩
  rw [hv.canonical_eq]
  refine ⟨fun u => ⟨fun hu => hu.unique hv, fun hu => hu ▸ hv⟩, n, hle, ?_,
    fun m => hv.follow_eq hn⟩
  rw [hn]
  exact hv.2

/-- Three aliases in a row and no other. -/
def aliasChain : RelationTable :=
  run [.addAlias ⟨8⟩ ⟨9⟩, .addAlias ⟨9⟩ ⟨10⟩, .addAlias ⟨7⟩ ⟨8⟩]

theorem not_transGen_aliasChain (u : TypeId) : ¬ TransGen aliasChain.AliasOf u u := by
  have hentries : ∀ e ∈ aliasChain.aliases.sortedEntries, e.1.raw < e.2.raw := by decide +kernel
  have hlt {t u : TypeId} (h : TransGen aliasChain.AliasOf t u) : t.raw < u.raw := by
    induction h with
    | single hu => exact hentries _ (aliasOf_iff_mem_sortedEntries.1 hu)
    | tail _ hu ih => exact ih.trans (hentries _ (aliasOf_iff_mem_sortedEntries.1 hu))
  exact fun h => Nat.lt_irrefl _ (hlt h)

/-- The chain is as long as it can be: two steps do not reach its end. -/
theorem standsFor_iff_of_acyclic_aliasChain :
    (∀ u, ReflTransGen aliasChain.AliasOf ⟨7⟩ u → ¬ TransGen aliasChain.AliasOf u u) ∧
      aliasChain.aliases.size = 3 ∧ aliasChain.follow 2 ⟨7⟩ = ⟨9⟩ ∧
      aliasChain.canonical ⟨7⟩ = ⟨10⟩ ∧
      (∀ u, aliasChain.StandsFor ⟨7⟩ u ↔ u = aliasChain.canonical ⟨7⟩) ∧
      ∃ n ≤ aliasChain.aliases.size, aliasChain.aliases.get? (aliasChain.follow n ⟨7⟩) = none ∧
        ∀ m, n ≤ m → aliasChain.follow m ⟨7⟩ = aliasChain.canonical ⟨7⟩ := by
  have hacyclic (u : TypeId) (_ : ReflTransGen aliasChain.AliasOf ⟨7⟩ u) :
      ¬ TransGen aliasChain.AliasOf u u := not_transGen_aliasChain u
  exact ⟨hacyclic, by decide +kernel, by decide +kernel, by decide +kernel,
    standsFor_iff_of_acyclic hacyclic⟩

/-- The aliases lead from `u` back to `u` in `n` steps, and not in fewer. -/
structure Cycle (r : RelationTable) (n : Nat) (u : TypeId) : Prop where
  next : ∃ v, r.AliasOf u v
  pos : 0 < n
  back : r.follow n u = u
  least : ∀ m, 0 < m → r.follow m u = u → n ≤ m

def EntersCycle (r : RelationTable) (t : TypeId) (n : Nat) : Prop :=
  ∃ u, ReflTransGen r.AliasOf t u ∧ r.Cycle n u

theorem follow_eq_iterate (r : RelationTable) (n : Nat) (t : TypeId) :
    r.follow n t = (r.follow 1)^[n] t := by
  induction n with
  | zero => rfl
  | succ n ih => rw [follow_add, ih, iterate_succ_apply']

theorem isFixedPt_of_get?_eq_none (h : r.aliases.get? t = none) : IsFixedPt (r.follow 1) t :=
  follow_of_none h 1

theorem cycle_iff :
    r.Cycle n u ↔
      (∃ v, r.AliasOf u v) ∧ u ∈ periodicPts (r.follow 1) ∧ minimalPeriod (r.follow 1) u = n := by
  constructor
  · rintro ⟨halias, hpos, hback, hleast⟩
    have hperiodic : IsPeriodicPt (r.follow 1) n u := by
      rwa [IsPeriodicPt, IsFixedPt, ← follow_eq_iterate]
    refine ⟨halias, mk_mem_periodicPts hpos hperiodic, ?_⟩
    refine le_antisymm (hperiodic.minimalPeriod_le hpos) (hleast _ ?_ ?_)
    · exact hperiodic.minimalPeriod_pos hpos
    · rw [follow_eq_iterate, iterate_minimalPeriod]
  · rintro ⟨halias, hperiodic, rfl⟩
    refine ⟨halias, minimalPeriod_pos_of_mem_periodicPts hperiodic, ?_, fun m hpos hm => ?_⟩
    · rw [follow_eq_iterate, iterate_minimalPeriod]
    · rw [follow_eq_iterate] at hm
      exact IsPeriodicPt.minimalPeriod_le hpos hm

/-- Every step from a type on a cycle is an alias: a type that is none would never be left, and
so be the one that the cycle comes back to. -/
theorem Cycle.exists_aliasOf_follow (h : r.Cycle n u) (m : Nat) :
    ∃ v, r.AliasOf (r.follow m u) v := by
  refine Option.ne_none_iff_exists'.1 fun hnone => ?_
  have hperiodic : IsPeriodicPt (r.follow 1) n u := (follow_eq_iterate r n u).symm.trans h.back
  have hround : r.follow (n * m) u = u := by
    rw [follow_eq_iterate]
    exact hperiodic.mul_const m
  have hend : r.follow (n * m) u = r.follow m u :=
    StandsFor.follow_eq ⟨r.reflTransGen_follow m u, hnone⟩ rfl (Nat.le_mul_of_pos_left m h.pos)
  rw [← hend, hround] at hnone
  rcases h.next with ⟨v, hv⟩
  cases hv.symm.trans hnone

/-- The search stops where the aliases end or on the cycle that they run into: as many types as
there are aliases and one more cannot all be different aliases. -/
theorem canonical_mem_periodicPts (r : RelationTable) (t : TypeId) :
    r.canonical t ∈ periodicPts (r.follow 1) := by
  by_cases halias : ∀ i ≤ r.aliases.size, ∃ u, r.AliasOf (r.follow i t) u
  · rcases exists_follow_eq_follow halias with ⟨i, j, hij, hj, heq⟩
    have hperiodic : IsPeriodicPt (r.follow 1) (j - i) (r.follow i t) := by
      rw [IsPeriodicPt, IsFixedPt, ← follow_eq_iterate, ← follow_add,
        Nat.add_sub_cancel' hij.le, heq]
    have hsteps : i + (r.aliases.size + 1 - i) = r.aliases.size + 1 := by omega
    rw [canonical, ← hsteps, follow_add, follow_eq_iterate r (_ - i)]
    exact mk_mem_periodicPts (Nat.sub_pos_of_lt hij) (hperiodic.apply_iterate _)
  · push Not at halias
    rcases halias with ⟨i, -, hnone⟩
    have hend : r.aliases.get? (r.follow i t) = none := Option.eq_none_iff_forall_ne_some.2 hnone
    have hstands : r.StandsFor t (r.follow i t) := ⟨r.reflTransGen_follow i t, hend⟩
    rw [hstands.canonical_eq]
    exact mk_mem_periodicPts Nat.one_pos ((isFixedPt_of_get?_eq_none hend).isPeriodicPt 1)

/-- The cycle that the aliases lead into is the one that the canonical type lies on. -/
theorem entersCycle_iff :
    r.EntersCycle t n ↔
      (∃ v, r.AliasOf (r.canonical t) v) ∧ minimalPeriod (r.follow 1) (r.canonical t) = n := by
  have hcanonical := r.canonical_mem_periodicPts t
  constructor
  · rintro ⟨u, hreach, hcycle⟩
    rcases exists_follow_eq hreach with ⟨k, rfl⟩
    rcases cycle_iff.1 hcycle with ⟨-, hperiodic, hn⟩
    -- the steps to the cycle and those of the search can be taken in either order
    have hmeet : r.follow k (r.canonical t) = r.follow (r.aliases.size + 1) (r.follow k t) := by
      rw [canonical, ← follow_add, ← follow_add, Nat.add_comm]
    refine ⟨Option.ne_none_iff_exists'.1 fun hnone => ?_, ?_⟩
    · rcases hcycle.exists_aliasOf_follow (r.aliases.size + 1) with ⟨v, hv⟩
      rw [← hmeet, follow_of_none hnone] at hv
      cases hv.symm.trans hnone
    · rw [← minimalPeriod_apply_iterate hcanonical k, ← follow_eq_iterate, hmeet,
        follow_eq_iterate, minimalPeriod_apply_iterate hperiodic, hn]
  · rintro ⟨halias, hn⟩
    exact ⟨_, r.reflTransGen_follow _ t, cycle_iff.2 ⟨halias, hcanonical, hn⟩⟩

/-- A type that is no alias counts as a cycle of one type. -/
theorem forall_entersCycle_iff {P : Nat → Prop} (hone : P 1) :
    (∀ n, r.EntersCycle t n → P n) ↔ P (minimalPeriod (r.follow 1) (r.canonical t)) := by
  simp only [entersCycle_iff]
  constructor
  · intro h
    by_cases halias : ∃ v, r.AliasOf (r.canonical t) v
    · exact h _ ⟨halias, rfl⟩
    · have hnone : r.aliases.get? (r.canonical t) = none := by
        simpa [AliasOf, Option.eq_none_iff_forall_ne_some] using halias
      rwa [minimalPeriod_eq_one_iff_isFixedPt.2 (isFixedPt_of_get?_eq_none hnone)]
  · rintro h n ⟨-, rfl⟩
    exact h

theorem canonical_canonical_iff_dvd :
    r.canonical (r.canonical t) = r.canonical t ↔
      ∀ n, r.EntersCycle t n → n ∣ r.aliases.size + 1 := by
  rw [forall_entersCycle_iff (P := (· ∣ r.aliases.size + 1)) (one_dvd _),
    ← isPeriodicPt_iff_minimalPeriod_dvd, IsPeriodicPt, IsFixedPt, ← follow_eq_iterate]
  rfl

/-- An alias and what it stands for have one canonical type, unless they lead into a cycle of
two types or more. -/
theorem canonical_eq_iff_of_aliasOf (h : r.AliasOf t u) :
    r.canonical t = r.canonical u ↔ ∀ n, r.EntersCycle t n → n = 1 := by
  have hnext : r.canonical u = r.follow 1 (r.canonical t) := by
    rw [canonical, canonical, ← follow_add, follow_of_some h]
  rw [forall_entersCycle_iff (P := (· = 1)) rfl, minimalPeriod_eq_one_iff_isFixedPt, IsFixedPt,
    hnext, eq_comm]

theorem isSubtype_of_canonical_eq (h : r.canonical t = r.canonical u) : r.isSubtype t u = true := by
  rw [isSubtype_eq_true_iff, h]
  exact .inl (.refl _)

/-- A canonical type is its own canonical type exactly if the aliases lead into no cycle, or
into one whose length divides the number of steps of the search. -/
theorem canonical_canonical_iff (r : RelationTable) :
    (∀ t, r.canonical (r.canonical t) = r.canonical t ↔
      ∀ n, r.EntersCycle t n → n ∣ r.aliases.size + 1) ∧
    (∀ t u, r.AliasOf t u →
      (r.canonical t = r.canonical u ↔ ∀ n, r.EntersCycle t n → n = 1) ∧
        ((∀ n, r.EntersCycle t n → n = 1) → r.isSubtype t u = true ∧ r.isSubtype u t = true)) ∧
    ∀ p : TypedProgram, p.relations = r.relations →
      ∀ t, (∀ n, r.EntersCycle t n → n ∣ r.aliases.size + 1) → ∀ trait s,
        p.conforms t trait s = (p.source.scopeAncestors s).any fun q => r.conforms t trait q := by
  refine ⟨fun t => canonical_canonical_iff_dvd, fun t u h => ?_, fun p hp t h trait s => ?_⟩
  · have hcanonical := canonical_eq_iff_of_aliasOf h
    refine ⟨hcanonical, fun hone => ?_⟩
    exact ⟨isSubtype_of_canonical_eq (hcanonical.2 hone),
      isSubtype_of_canonical_eq (hcanonical.2 hone).symm⟩
  · have hidem := canonical_canonical_iff_dvd.2 h
    simp only [TypedProgram.conforms, TypedProgram.canonical, hp, relations, conforms, hidem]

section Cycles

open ScopedProgram (scopedLambda)
open TypedProgram (lambdaTypes ofParts?)

def moduleTyped : PropertyTables where
  declTypes := (∅ : Table DeclId TypeId).insert (IdentOf.ofIndex .moduleDecl 9).widen ⟨7⟩

def programWith (r : Relations) : TypedProgram := ⟨scopedLambda, lambdaTypes, moduleTyped, r⟩

theorem ofParts?_programWith (r : Relations) :
    ofParts? scopedLambda lambdaTypes moduleTyped r .modulesOnly = .ok (programWith r) := by
  have hcheck : moduleTyped.check scopedLambda.arena lambdaTypes .modulesOnly = .ok () := by
    decide +kernel
  exact TypedProgram.ofParts?_eq_ok_iff.2 ⟨hcheck, rfl⟩

/-- A cycle of two types, and a type that stands for another one. -/
def cycleOfTwo : RelationTable :=
  run [.addAlias ⟨7⟩ ⟨8⟩, .addAlias ⟨8⟩ ⟨7⟩, .addAlias ⟨9⟩ ⟨5⟩]

theorem EntersCycle.unique {m : Nat} (h : r.EntersCycle t n) (h' : r.EntersCycle t m) : n = m :=
  (entersCycle_iff.1 h).2.symm.trans (entersCycle_iff.1 h').2

theorem StandsFor.not_entersCycle (h : r.StandsFor t u) : ¬ r.EntersCycle t n := by
  intro hcycle
  rcases (entersCycle_iff.1 hcycle).1 with ⟨v, hv⟩
  rw [h.canonical_eq] at hv
  cases hv.symm.trans h.2

theorem entersCycle_cycleOfTwo : cycleOfTwo.EntersCycle ⟨7⟩ 2 := by
  refine ⟨⟨7⟩, .refl, ⟨⟨⟨8⟩, by decide +kernel⟩, Nat.two_pos, by decide +kernel, ?_⟩⟩
  intro m hpos hm
  by_contra hlt
  obtain rfl : m = 1 := by omega
  exact absurd hm (by decide +kernel)

theorem canonical_canonical_iff_cycleOfTwo :
    cycleOfTwo.EntersCycle ⟨7⟩ 2 ∧
      cycleOfTwo.canonical (cycleOfTwo.canonical ⟨7⟩) = cycleOfTwo.canonical ⟨7⟩ ∧
      cycleOfTwo.AliasOf ⟨7⟩ ⟨8⟩ ∧ cycleOfTwo.canonical ⟨7⟩ ≠ cycleOfTwo.canonical ⟨8⟩ ∧
      cycleOfTwo.AliasOf ⟨9⟩ ⟨5⟩ ∧
      (cycleOfTwo.isSubtype ⟨9⟩ ⟨5⟩ = true ∧ cycleOfTwo.isSubtype ⟨5⟩ ⟨9⟩ = true) ∧
      (programWith cycleOfTwo.relations).relations = cycleOfTwo.relations ∧
      ∀ trait s, (programWith cycleOfTwo.relations).conforms ⟨7⟩ trait s =
        (scopedLambda.scopeAncestors s).any fun q => cycleOfTwo.conforms ⟨7⟩ trait q := by
  have hcycle := entersCycle_cycleOfTwo
  have hsteps : ∀ n, cycleOfTwo.EntersCycle ⟨7⟩ n → n ∣ cycleOfTwo.aliases.size + 1 := by
    intro n hn
    rw [hn.unique hcycle]
    decide +kernel
  have hnone : ∀ n, cycleOfTwo.EntersCycle ⟨9⟩ n → n = 1 := by
    have hstands : cycleOfTwo.StandsFor ⟨9⟩ ⟨5⟩ := ⟨.single (by decide +kernel), by decide +kernel⟩
    exact fun n hn => absurd hn hstands.not_entersCycle
  have halias : cycleOfTwo.AliasOf ⟨7⟩ ⟨8⟩ := by decide +kernel
  have halias' : cycleOfTwo.AliasOf ⟨9⟩ ⟨5⟩ := by decide +kernel
  obtain ⟨hidem, hsame, hprogram⟩ := canonical_canonical_iff cycleOfTwo
  refine ⟨hcycle, (hidem ⟨7⟩).2 hsteps, halias, fun heq => ?_, halias',
    (hsame ⟨9⟩ ⟨5⟩ halias').2 hnone, rfl, hprogram (programWith _) rfl ⟨7⟩ hsteps⟩
  exact absurd (((hsame ⟨7⟩ ⟨8⟩ halias).1.1 heq) 2 hcycle) (by decide)

/-- Two types that stand for each other, and a conformance of one of them. -/
def swappedAliases : RelationTable :=
  run [.addAlias ⟨3⟩ ⟨2⟩, .addAlias ⟨2⟩ ⟨3⟩,
    .record (.conformance ⟨3⟩ (.ofIndex .traitDecl 0) (IdentOf.ofIndex .moduleDecl 9).widen)]

/-- The search makes three steps and turns the cycle around each time. So no canonical type is
its own, no alias is a subtype of what it stands for, and a program finds a conformance that is
not there for the type that it was asked about. -/
theorem not_canonical_canonical_swappedAliases :
    swappedAliases.canonical (swappedAliases.canonical ⟨3⟩) ≠ swappedAliases.canonical ⟨3⟩ ∧
      swappedAliases.AliasOf ⟨3⟩ ⟨2⟩ ∧ swappedAliases.isSubtype ⟨3⟩ ⟨2⟩ = false ∧
      swappedAliases.isSubtype ⟨2⟩ ⟨3⟩ = false ∧
      ∃ p, ofParts? scopedLambda lambdaTypes moduleTyped swappedAliases.relations .modulesOnly =
          .ok p ∧
        p.conforms ⟨3⟩ (.ofIndex .traitDecl 0) (IdentOf.ofIndex .moduleDecl 9).widen = true ∧
        ((p.source.scopeAncestors (IdentOf.ofIndex .moduleDecl 9).widen).any fun q =>
          swappedAliases.conforms ⟨3⟩ (.ofIndex .traitDecl 0) q) = false :=
  ⟨by decide +kernel, by decide +kernel, by decide +kernel, by decide +kernel, _,
    ofParts?_programWith _, by decide +kernel, by decide +kernel⟩

end Cycles

end RelationTable

end TypedTree
