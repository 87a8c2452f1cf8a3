import TypedTree.Proofs.Program.Describes

/-!
# The outcome of a construction

A table is listed in the order of its slots, and the check of the identities reports the first
bad one that it comes upon. A listing in another order goes through the identities in `guarded`
in another order, so `ofPartsAlong?` makes a program with these looked at in any order given.
`Outcomes` says what the results are, but for the identity that a failed check of the
identities reports, and `outcomes_ofParts?` that they are so for every order.
-/

namespace TypedTree

namespace Arena

variable {ε : Type} {c : Class} {a : Arena} {has : Ident c → Bool} {id : Ident c}

/-- All identities of the class pass the test. -/
def Covered (a : Arena) (has : Ident c → Bool) : Prop :=
  ∀ id : Ident c, a.contains id = true → has id = true

/-- Of the identities of the class that fail the test, the one of the lowest position. -/
structure FirstWithout (a : Arena) (has : Ident c → Bool) (id : Ident c) : Prop where
  contains : a.contains id = true
  without : has id = false
  before : ∀ x : Ident c, a.contains x = true → x.index < id.index → has x = true

theorem FirstWithout.unique {x : Ident c} (h : a.FirstWithout has id)
    (hx : a.FirstWithout has x) : id = x := by
  have hle {x y : Ident c} (hx : a.FirstWithout has x) (hy : a.FirstWithout has y) :
      x.index ≤ y.index := by
    by_contra hlt
    have hhas := hx.before y hy.contains (Nat.lt_of_not_le hlt)
    rw [hy.without] at hhas
    cases hhas
  exact eq_of_contains h.contains hx.contains (Nat.le_antisymm (hle h hx) (hle hx h))

theorem firstWithout_of_firstFailing (h : FirstFailing (a.idsOf c) (has · = true) id) :
    a.FirstWithout has id := by
  rcases h with ⟨before, after, hids, hbefore, hid⟩
  have hmem : id ∈ a.idsOf c := by simp [hids]
  refine ⟨mem_idsOf_iff.1 hmem, eq_false_of_ne_true hid, fun x hx hlt => ?_⟩
  have hsorted := a.pairwise_idsOf c
  rw [← mem_idsOf_iff, hids, List.mem_append] at hx
  rw [hids, List.pairwise_append] at hsorted
  -- what does not come before `id` has no lower position
  rcases hx with hx | hx
  · exact hbefore x hx
  · rcases List.mem_cons.1 hx with rfl | hx
    · exact absurd hlt (Nat.lt_irrefl _)
    · have hafter := (List.pairwise_cons.1 hsorted.2.1).1 x hx
      exact absurd hlt (Nat.lt_asymm hafter)

theorem covered_iff : a.Covered has ↔ ∀ id ∈ a.idsOf c, has id = true := by
  simp only [Covered, mem_idsOf_iff]

theorem Covered.forM_eq_ok (h : a.Covered has) (error : Ident c → ε) :
    ((a.idsOf c).forM fun x => do unless has x do throw (error x) : Except ε Unit) = .ok () :=
  forM_eq_ok_iff.2 fun id hid => unless_eq_ok_iff.2 (covered_iff.1 h id hid)

theorem exists_firstWithout (h : ¬ a.Covered has) (error : Ident c → ε) :
    ∃ id, a.FirstWithout has id ∧
      ((a.idsOf c).forM fun x => do unless has x do throw (error x) : Except ε Unit) =
        .error (error id) := by
  rw [covered_iff] at h
  rcases exists_firstFailing h with ⟨id, hid⟩
  exact ⟨id, firstWithout_of_firstFailing hid, forM_unless_eq_error hid⟩

end Arena

namespace PropertyTables

open Arena

variable {t : PropertyTables} {a : Arena} {p : TypePool} {order : List NodeId}

/-- The tables give the module a type, and the pool knows it as that of a module. -/
def HasModuleType (t : PropertyTables) (p : TypePool) (m : IdentOf .moduleDecl) : Prop :=
  ∃ ty d, t.declTypes.get? m.widen = some ty ∧ p.get? ty = some (.module d)

theorem isChecked_eq_true_iff {m : IdentOf .moduleDecl} :
    t.isChecked p m = true ↔ t.HasModuleType p m := by
  simp only [isChecked, HasModuleType, Option.any_eq_true, Option.bind_eq_some_iff]
  constructor
  · rintro ⟨ty, ⟨ref, href, hty⟩, hmodule⟩
    cases ty with
    | module d => exact ⟨ref, d, href, hty⟩
    | _ => cases hmodule
  · rintro ⟨ref, d, href, hty⟩
    exact ⟨_, ⟨ref, href, hty⟩, rfl⟩

theorem checkModules_eq_ok_iff_hasModuleType :
    t.checkModules a p = .ok () ↔ ∀ m ∈ a.modules, t.HasModuleType p m := by
  simp only [checkModules_eq_ok_iff, isChecked_eq_true_iff]

theorem exists_uncheckedModule (h : ¬ ∀ m ∈ a.modules, t.HasModuleType p m) :
    ∃ m, FirstFailing a.modules (t.HasModuleType p) m ∧
      t.checkModules a p = .error (.uncheckedModule m) := by
  rcases exists_firstFailing h with ⟨m, hm⟩
  refine ⟨m, hm, forM_unless_eq_error ?_⟩
  simpa only [FirstFailing, isChecked_eq_true_iff] using hm

theorem exists_missingDeclType (h : ¬ a.Covered t.declTypes.contains) :
    ∃ d, a.FirstWithout t.declTypes.contains d ∧
      t.checkTotality a = .error (.missingDeclType d) := by
  rcases exists_firstWithout h ConstructionError.missingDeclType with ⟨d, hd, herror⟩
  refine ⟨d, hd, ?_⟩
  rw [checkTotality, herror]
  rfl

theorem exists_missingExprType (hdecls : a.Covered t.declTypes.contains)
    (h : ¬ a.Covered t.exprTypes.contains) :
    ∃ e, a.FirstWithout t.exprTypes.contains e ∧
      t.checkTotality a = .error (.missingExprType e) := by
  rcases exists_firstWithout h ConstructionError.missingExprType with ⟨e, he, herror⟩
  refine ⟨e, he, ?_⟩
  rw [checkTotality, hdecls.forM_eq_ok, herror]
  rfl

theorem exists_unresolvedName (hdecls : a.Covered t.declTypes.contains)
    (hexprs : a.Covered t.exprTypes.contains) (h : ¬ a.Covered t.references.contains) :
    ∃ n, a.FirstWithout t.references.contains n ∧
      t.checkTotality a = .error (.unresolvedName n) := by
  rcases exists_firstWithout h ConstructionError.unresolvedName with ⟨n, hn, herror⟩
  refine ⟨n, hn, ?_⟩
  rw [checkTotality, hdecls.forM_eq_ok, hexprs.forM_eq_ok, herror]
  rfl

/-- The check of the tables, with their identities looked at in the order given. -/
def checkAlong (order : List NodeId) (t : PropertyTables) (a : Arena) (p : TypePool) :
    Validation → Except ConstructionError Unit
  | .modulesOnly => t.checkModules a p
  | .full => do
    t.checkModules a p
    order.forM a.checkKey
    t.checkTotality a

theorem checkAlong_guarded : t.checkAlong t.guarded a p = t.check a p := by
  funext v
  cases v with
  | full => rw [checkAlong, check, checkKeys_eq]
  | modulesOnly => rfl

/-- The modules have their types and the identities their nodes. -/
structure Admitted (t : PropertyTables) (a : Arena) (p : TypePool) : Prop where
  checked : ∀ m ∈ a.modules, t.HasModuleType p m
  known : ∀ id ∈ t.guarded, a.contains id = true

theorem Admitted.checkAlong_eq (h : t.Admitted a p) (horder : order.Perm t.guarded) :
    t.checkAlong order a p .full = t.checkTotality a := by
  have hmodules : t.checkModules a p = .ok () := checkModules_eq_ok_iff_hasModuleType.2 h.checked
  have hkeys : order.forM a.checkKey = .ok () := forM_eq_ok_iff.2 fun id hid =>
    checkKey_eq_ok_iff.2 (h.known id (horder.mem_iff.1 hid))
  rw [checkAlong, hmodules, hkeys]
  rfl

theorem checkAlong_of_checkModules_eq_error {e : ConstructionError}
    (h : t.checkModules a p = .error e) (v : Validation) : t.checkAlong order a p v = .error e := by
  cases v with
  | full =>
      rw [checkAlong, h]
      rfl
  | modulesOnly => exact h

end PropertyTables

namespace TypedProgram

open PropertyTables

variable {source : ScopedProgram} {pool : TypePool} {t : PropertyTables} {r : Relations}
  {order : List NodeId}

/-- Accepts a scoped program with property tables that describe it, and looks at the
identities in the tables in the order given. -/
def ofPartsAlong? (order : List NodeId) (source : ScopedProgram) (pool : TypePool)
    (t : PropertyTables) (r : Relations) (v : Validation) :
    Except ConstructionError TypedProgram := do
  t.checkAlong order source.arena pool v
  return ⟨source, pool, t, r⟩

theorem ofPartsAlong?_eq_ok_iff {v : Validation} {p : TypedProgram} :
    ofPartsAlong? order source pool t r v = .ok p ↔
      t.checkAlong order source.arena pool v = .ok () ∧ p = ⟨source, pool, t, r⟩ := by
  rw [ofPartsAlong?, bind_eq_ok_iff]
  constructor
  · rintro ⟨_, hcheck, hp⟩
    exact ⟨hcheck, (Except.ok.inj hp).symm⟩
  · rintro ⟨hcheck, rfl⟩
    exact ⟨(), hcheck, rfl⟩

theorem ofPartsAlong?_of_eq_error {v : Validation} {e : ConstructionError}
    (h : t.checkAlong order source.arena pool v = .error e) :
    ofPartsAlong? order source pool t r v = .error e := by
  rw [ofPartsAlong?, h]
  rfl

/-- What a construction from the parts gives. -/
structure Outcomes (source : ScopedProgram) (pool : TypePool) (t : PropertyTables) (r : Relations)
    (make : Validation → Except ConstructionError TypedProgram) : Prop where
  eq_of_ok : ∀ v p, make v = .ok p → p = ⟨source, pool, t, r⟩
  modulesOnly_iff : (∃ p, make .modulesOnly = .ok p) ↔
    ∀ m ∈ source.arena.modules, t.HasModuleType pool m
  modulesOnly_of_full : ∀ p, make .full = .ok p → make .modulesOnly = .ok p
  uncheckedModule : (¬ ∀ m ∈ source.arena.modules, t.HasModuleType pool m) →
    ∃ m, FirstFailing source.arena.modules (t.HasModuleType pool) m ∧
      ∀ v, make v = .error (.uncheckedModule m)
  missingDeclType : t.Admitted source.arena pool →
    ¬ source.arena.Covered t.declTypes.contains →
      ∃ d, source.arena.FirstWithout t.declTypes.contains d ∧
        make .full = .error (.missingDeclType d)
  missingExprType : t.Admitted source.arena pool → source.arena.Covered t.declTypes.contains →
    ¬ source.arena.Covered t.exprTypes.contains →
      ∃ e, source.arena.FirstWithout t.exprTypes.contains e ∧
        make .full = .error (.missingExprType e)
  unresolvedName : t.Admitted source.arena pool → source.arena.Covered t.declTypes.contains →
    source.arena.Covered t.exprTypes.contains → ¬ source.arena.Covered t.references.contains →
      ∃ n, source.arena.FirstWithout t.references.contains n ∧
        make .full = .error (.unresolvedName n)
  full_iff : t.Admitted source.arena pool → ((∃ p, make .full = .ok p) ↔
    source.arena.Covered t.declTypes.contains ∧ source.arena.Covered t.exprTypes.contains ∧
      source.arena.Covered t.references.contains)

theorem outcomes_ofPartsAlong? (h : order.Perm t.guarded) :
    Outcomes source pool t r (ofPartsAlong? order source pool t r) where
  eq_of_ok _ _ hp := (ofPartsAlong?_eq_ok_iff.1 hp).2
  modulesOnly_iff := by
    simp only [ofPartsAlong?_eq_ok_iff, exists_and_left, exists_eq, and_true, checkAlong,
      checkModules_eq_ok_iff_hasModuleType]
  modulesOnly_of_full p hp := by
    rcases ofPartsAlong?_eq_ok_iff.1 hp with ⟨hcheck, rfl⟩
    rw [checkAlong, andThen_eq_ok_iff] at hcheck
    exact ofPartsAlong?_eq_ok_iff.2 ⟨hcheck.1, rfl⟩
  uncheckedModule hmodules := by
    rcases exists_uncheckedModule hmodules with ⟨m, hm, herror⟩
    exact ⟨m, hm, fun v => ofPartsAlong?_of_eq_error (checkAlong_of_checkModules_eq_error herror v)⟩
  missingDeclType hadmitted hmissing := by
    rcases exists_missingDeclType hmissing with ⟨d, hd, herror⟩
    rw [← hadmitted.checkAlong_eq h] at herror
    exact ⟨d, hd, ofPartsAlong?_of_eq_error herror⟩
  missingExprType hadmitted hdecls hmissing := by
    rcases exists_missingExprType hdecls hmissing with ⟨e, he, herror⟩
    rw [← hadmitted.checkAlong_eq h] at herror
    exact ⟨e, he, ofPartsAlong?_of_eq_error herror⟩
  unresolvedName hadmitted hdecls hexprs hmissing := by
    rcases exists_unresolvedName hdecls hexprs hmissing with ⟨n, hn, herror⟩
    rw [← hadmitted.checkAlong_eq h] at herror
    exact ⟨n, hn, ofPartsAlong?_of_eq_error herror⟩
  full_iff hadmitted := by
    simp only [ofPartsAlong?_eq_ok_iff, exists_and_left, exists_eq, and_true,
      hadmitted.checkAlong_eq h, checkTotality_eq_ok_iff, Arena.covered_iff]

theorem ofPartsAlong?_guarded :
    ofPartsAlong? t.guarded source pool t r = ofParts? source pool t r := by
  funext v
  rw [ofPartsAlong?, checkAlong_guarded, ofParts?]

/-- The outcome of a construction, in whatever order the tables are listed. -/
theorem outcomes_ofParts? (source : ScopedProgram) (pool : TypePool) (t : PropertyTables)
    (r : Relations) :
    Outcomes source pool t r (ofParts? source pool t r) ∧
      ofPartsAlong? t.guarded source pool t r = ofParts? source pool t r ∧
      ∀ order : List NodeId, order.Perm t.guarded →
        Outcomes source pool t r (ofPartsAlong? order source pool t r) :=
  ⟨ofPartsAlong?_guarded ▸ outcomes_ofPartsAlong? (.refl _), ofPartsAlong?_guarded,
    fun _ => outcomes_ofPartsAlong?⟩

section UntypedExprs

open ScopedProgram (boundLambda scopedLambda)

/-- The properties of `strayOperator`, but for the types of the sequence and of the lambda. -/
def untypedExprs : PropertyTables :=
  { strayOperator with
    exprTypes := (∅ : Table ExprId TypeId).insert (IdentOf.ofIndex .nameExpr 3).widen ⟨3⟩ }

theorem admitted_untypedExprs : untypedExprs.Admitted boundLambda lambdaTypes where
  checked := by
    simp only [← isChecked_eq_true_iff]
    decide
  known := by decide +kernel

theorem firstWithout_untypedExprs :
    boundLambda.FirstWithout untypedExprs.exprTypes.contains
      (IdentOf.ofIndex .sequenceExpr 4).widen where
  contains := by decide
  without := by decide +kernel
  before := by
    simp only [← Arena.mem_idsOf_iff]
    decide +kernel

theorem outcomes_untypedExprs :
    untypedExprs.Admitted boundLambda lambdaTypes ∧
      ofPartsAlong? untypedExprs.guarded.reverse scopedLambda lambdaTypes untypedExprs
          (∅ : RelationTable).relations .full =
        .error (.missingExprType (IdentOf.ofIndex .sequenceExpr 4).widen) := by
  have hdecls : boundLambda.Covered untypedExprs.declTypes.contains := by
    rw [Arena.covered_iff]
    decide +kernel
  have hexprs : ¬ boundLambda.Covered untypedExprs.exprTypes.contains := by
    rw [Arena.covered_iff]
    decide +kernel
  have houtcomes := (outcomes_ofParts? scopedLambda lambdaTypes untypedExprs
    (∅ : RelationTable).relations).2.2 _ (List.reverse_perm _)
  rcases houtcomes.missingExprType admitted_untypedExprs hdecls hexprs with ⟨e, he, herror⟩
  obtain rfl := he.unique firstWithout_untypedExprs
  exact ⟨admitted_untypedExprs, herror⟩

end UntypedExprs

end TypedProgram

end TypedTree
