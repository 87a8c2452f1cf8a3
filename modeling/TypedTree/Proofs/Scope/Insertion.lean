import TypedTree.Proofs.Scope.Ancestors

/-!
# Insertions into valid programs

Nothing checks a program again once it has passed. `Extended` programs are those that were
accepted, and what becomes of them when declarations are synthesized in scopes of their arena.
Their tables keep fitting the arena (`Extended.fits`): a table of an accepted program has no
key at the position that comes next, so the entry of a new declaration replaces no other one.
For the same reason an insertion changes no answer but those at its own position
(`insertSynthesized_of_extended`).
-/

namespace TypedTree

namespace Arena

variable {a : Arena} {n : Node} {sp : Span} {c : Class} {x : Ident c}

theorem getElem?_spans_insert_of_ne (hx : x.index ≠ a.size) :
    (a.insert n sp).2.spans[x.index]? = a.spans[x.index]? := by
  have hsize : x.index ≠ a.spans.size := a.aligned.symm ▸ hx
  simp only [insert, Array.getElem?_push]
  exact if_neg hsize

theorem toOption_node (a : Arena) (x : Ident c) : (a.node x).toOption = a.node? x := by
  unfold node
  cases a.node? x <;> rfl

theorem toOption_span (a : Arena) (x : Ident c) :
    (a.span x).toOption = a.spans[x.index]? := by
  unfold span
  cases a.spans[x.index]? <;> rfl

theorem toOption_children (a : Arena) (x : Ident c) :
    (a.children x).toOption = (a.node? x).map Node.children := by
  unfold children node
  cases a.node? x <;> rfl

end Arena

namespace ScopeTables

variable {t t' : ScopeTables} {a a' : Arena} {s : ScopeId}

theorem Rooted.of_parents_eq (h : t.Rooted a s) (hparents : t'.parents = t.parents)
    (hmodules : ∀ m : ScopeId, a.kindAt? m = some .moduleDecl → a'.kindAt? m = some .moduleDecl) :
    t'.Rooted a' s := by
  rcases h with ⟨l, hl, hnodup, m, hm, hroot, hkind⟩
  exact ⟨l, hl.of_parents_eq hparents, hnodup, m, hm, by rw [hparents, hroot], hmodules m hkind⟩

end ScopeTables

namespace ScopedProgram

variable {p q : ScopedProgram} {s : ScopeId} {id : IdentOf .synthesizedDecl} {c : Class}

/-- Programs as they are made, and what they grow into by declarations in scopes of the
arena. -/
inductive Extended : ScopedProgram → Prop
  | validated {p : ScopedProgram} (h : p.Validated) : p.Extended
  | insert {p : ScopedProgram} {s : ScopeId} (h : p.Extended) (hs : p.arena.contains s = true)
      (kind : SynthesizedKind) : (p.insertSynthesized kind s).2.Extended

/-- The programs give the same answers at every position but `i`. -/
structure SameBut (p q : ScopedProgram) (i : Nat) : Prop where
  node : ∀ {c : Class} (x : Ident c), x.index ≠ i →
    (q.arena.node x).toOption = (p.arena.node x).toOption
  span : ∀ {c : Class} (x : Ident c), x.index ≠ i →
    (q.arena.span x).toOption = (p.arena.span x).toOption
  children : ∀ {c : Class} (x : Ident c), x.index ≠ i →
    (q.arena.children x).toOption = (p.arena.children x).toOption
  kindAt? : ∀ {c : Class} (x : Ident c), x.index ≠ i → q.arena.kindAt? x = p.arena.kindAt? x
  scopeParent? : ∀ s : ScopeId, s.index ≠ i → q.scopeParent? s = p.scopeParent? s
  scopeDecls : ∀ s : ScopeId, s.index ≠ i → q.scopeDecls s = p.scopeDecls s
  declScope? : ∀ d : DeclId, d.index ≠ i → q.declScope? d = p.declScope? d
  nameScope? : ∀ n : IdentOf .nameExpr, n.index ≠ i → q.nameScope? n = p.nameScope? n
  varBinding? : ∀ v : IdentOf .varDecl, v.index ≠ i → q.varBinding? v = p.varBinding? v
  modules : q.arena.modules = p.arena.modules
  coreLibrary : q.arena.coreLibrary = p.arena.coreLibrary

theorem fits_insertSynthesized (h : p.tables.Fits p.arena) (hs : p.arena.contains s = true)
    (kind : SynthesizedKind) :
    (p.insertSynthesized kind s).2.tables.Fits (p.insertSynthesized kind s).2.arena := by
  have hcontains {c : Class} {x : Ident c} (hx : p.arena.contains x = true) :
      (p.insertSynthesized kind s).2.arena.contains x = true :=
    contains_insertSynthesized.2 (.inl hx)
  have hpair {c d : Class} {e : Ident c × Ident d}
      (he : p.arena.contains e.1 = true ∧ p.arena.contains e.2 = true) :
      (p.insertSynthesized kind s).2.arena.contains e.1 = true ∧
        (p.insertSynthesized kind s).2.arena.contains e.2 = true :=
    ⟨hcontains he.1, hcontains he.2⟩
  rcases h.contains with ⟨hparents, hdecls, hscopes, hnames, hbindings⟩
  constructor
  case known =>
    rw [ScopeTables.forall_mem_idents]
    simp only [Arena.contains_toAny]
    refine ⟨fun e he => hpair (hparents e he), fun e he => ?_, ?_, fun e he => hpair (hnames e he),
      fun e he => hpair (hbindings e he)⟩
    · exact ⟨hcontains (hdecls e he).1, fun d hd => hcontains ((hdecls e he).2 d hd)⟩
    · refine Table.forall_mem_entries_write
        (P := ((p.insertSynthesized kind s).2.arena.contains · = true))
        (Q := ((p.insertSynthesized kind s).2.arena.contains · = true))
        (fun e he => hpair (hscopes e he)) ?_ (hcontains hs) _
      exact contains_insertSynthesized.2 (.inr ⟨rfl, rfl⟩)
  case listed =>
    intro e he d hd
    rcases h.listed e he d hd with ⟨o, ho, hindex⟩
    refine ⟨o, ?_, hindex⟩
    have hne : p.arena.size ≠ d.index :=
      Nat.ne_of_gt (Arena.index_lt_of_contains ((hdecls e he).2 d hd))
    have hget : (p.insertSynthesized kind s).2.declScope? d = p.declScope? d := by
      rw [declScope?_insertSynthesized, if_neg hne]
    exact hget.trans ho
  case rooted =>
    intro x hx
    have hgrown : (p.grow [(kind, s)]).arena.contains x = true := Arena.mem_idsOf_iff.1 hx
    have hold : p.arena.contains x = true := contains_grow_scope.1 hgrown
    refine (h.rooted x (Arena.mem_idsOf_iff.2 hold)).of_parents_eq rfl fun m hm => ?_
    have hlt : m.index ≠ p.arena.size := Nat.ne_of_lt (Arena.index_lt_of_kindAt? hm)
    exact (Arena.kindAt?_insert m).trans ((if_neg hlt).trans hm)
  case owned =>
    intro d hd
    change ((p.insertSynthesized kind s).2.declScope? d).isSome = true
    rw [declScope?_insertSynthesized]
    rcases contains_insertSynthesized.1 (Arena.mem_idsOf_iff.1 hd) with hold | ⟨hindex, -⟩
    · have hne : p.arena.size ≠ d.index := Nat.ne_of_gt (Arena.index_lt_of_contains hold)
      rw [if_neg hne]
      exact h.owned d (Arena.mem_idsOf_iff.2 hold)
    · rw [if_pos hindex.symm]
      rfl
  case bound =>
    intro v hv
    rcases contains_insertSynthesized.1 (Arena.mem_idsOf_iff.1 hv) with hold | ⟨-, hkind⟩
    · exact h.bound v (Arena.mem_idsOf_iff.2 hold)
    · rw [IdentOf.kind_eq] at hkind
      cases hkind

theorem Extended.fits (h : p.Extended) : p.tables.Fits p.arena := by
  induction h with
  | validated h => exact h.fits
  | insert _ hs kind ih => exact fits_insertSynthesized ih hs kind

theorem sameBut_insertSynthesized (p : ScopedProgram) (kind : SynthesizedKind) (s : ScopeId) :
    p.SameBut (p.insertSynthesized kind s).2 p.arena.size where
  node x hx := by
    rw [Arena.toOption_node, Arena.toOption_node]
    exact (Arena.node?_insert x).trans (if_neg hx)
  span x hx := by
    rw [Arena.toOption_span, Arena.toOption_span]
    exact Arena.getElem?_spans_insert_of_ne hx
  children x hx := by
    rw [Arena.toOption_children, Arena.toOption_children]
    exact congrArg (Option.map Node.children) ((Arena.node?_insert x).trans (if_neg hx))
  kindAt? x hx := (Arena.kindAt?_insert x).trans (if_neg hx)
  scopeParent? _ _ := rfl
  scopeDecls _ _ := rfl
  declScope? d hd := (declScope?_insertSynthesized kind s d).trans (if_neg hd.symm)
  nameScope? _ _ := rfl
  varBinding? _ _ := rfl
  modules := rfl
  coreLibrary := rfl

/-- A declaration in a scope of the arena leaves a program that passes the check again as it
is. It takes the position that comes next, and at the others every answer stays what it was. -/
theorem insertSynthesized_of_extended {kind : SynthesizedKind} (h : p.Extended)
    (hs : p.arena.contains s = true) (hq : p.insertSynthesized kind s = (id, q)) :
    id.index = p.arena.size ∧ ofTables? q.arena q.tables = .ok q ∧ p.SameBut q id.index := by
  obtain rfl : (p.insertSynthesized kind s).1 = id := congrArg Prod.fst hq
  obtain rfl : (p.insertSynthesized kind s).2 = q := congrArg Prod.snd hq
  have hfits := fits_insertSynthesized h.fits hs kind
  exact ⟨rfl, ofTables?_eq_ok_iff_fits.2 ⟨hfits, rfl⟩, sameBut_insertSynthesized p kind s⟩

/-- `scopedLambda` with a copy operation in the function under its lambda. -/
def copiedInLambda : ScopedProgram :=
  (scopedLambda.insertSynthesized .copy (IdentOf.ofIndex .functionDecl 5).widen).2

theorem insertSynthesized_copiedInLambda :
    copiedInLambda.Extended ∧
      copiedInLambda.arena.contains (IdentOf.ofIndex .translationUnit 8) = true ∧
      ∃ id q, copiedInLambda.insertSynthesized .deinit
          (IdentOf.ofIndex .translationUnit 8).widen = (id, q) ∧
        id.index = 11 ∧ ofTables? q.arena q.tables = .ok q ∧
        copiedInLambda.SameBut q id.index := by
  have hvalidated : scopedLambda.Validated := .inl ⟨_, ofArena?_boundLambda⟩
  have hextended : copiedInLambda.Extended :=
    .insert (.validated hvalidated) (by decide +kernel) .copy
  have hunit : copiedInLambda.arena.contains (IdentOf.ofIndex .translationUnit 8) = true := by
    decide +kernel
  have hq : copiedInLambda.insertSynthesized .deinit (IdentOf.ofIndex .translationUnit 8).widen =
      (.ofIndex .synthesizedDecl 11, _) := rfl
  exact ⟨hextended, hunit, _, _, hq, insertSynthesized_of_extended hextended hunit hq⟩

end ScopedProgram

end TypedTree
