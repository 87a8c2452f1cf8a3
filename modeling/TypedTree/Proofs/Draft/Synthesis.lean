import TypedTree.Proofs.Draft.Recorded
import TypedTree.Proofs.Draft.Totality

/-!
# Declarations that a run synthesizes

A call to synthesize a declaration writes to the arena, to the scopes, to the types and to the
list of a module, all at the position that comes next. `Materialized` says what is found there
and when. Positions increase along a run, so no other call takes this one: the entry of the
call is the only one for it (`filter_entries`), and a type for it stays unless a later call
sets another (`lastAt_declTypes`), even if a type was recorded there before.
-/

namespace TypedTree

namespace Draft

open Indexed (index)

/-- The program holds what `request` asks for at `id`. The request came after the calls
`before` of a run and was followed by the calls `after`. -/
structure Materialized (source : ScopedProgram) (pool : TypePool) (before : List Op)
    (request : Request) (after : List Op) (id : IdentOf .synthesizedDecl) (p : TypedProgram) :
    Prop where
  index_eq : id.index = ((start source pool).run before).source.arena.size
  /-- Until the request there is no node at the position. -/
  absent : ∀ earlier, earlier <+: before →
    ((start source pool).run earlier).source.arena.node? id = none
  /-- From the request on the node is there, whatever calls follow. -/
  present : ∀ later, later <+: after →
    ((start source pool).run (before ++ .synthesize request :: later)).source.arena.node? id =
      some ⟨.synthesizedDecl, ({ kind := request.kind } : SynthesizedDecl)⟩
  /-- The module lists the declaration once, and no other module does. -/
  listed : ∀ m : IdentOf .moduleDecl,
    (p.synthesizedDecls m).filter (fun e => e.id = id) =
      if m = request.module then [⟨id, request.kind, request.ty, request.scope⟩] else []
  increasing : ∀ m : IdentOf .moduleDecl,
    (p.synthesizedDecls m).Pairwise fun e f => e.id.index < f.id.index
  syntaxKind : p.arena.get? id = some ({ kind := request.kind } : SynthesizedDecl)
  span : p.arena.span id = .ok .dummy
  scope : p.scope id.widen = .ok request.scope
  /-- The last type that a later call sets takes the place of the one asked for. -/
  declaredType : p.declaredType id.widen =
    .ok ((lastAt (after.filterMap Op.declType?) id.widen).getD request.ty)
  unlisted : ∀ s : ScopeId, ∀ d ∈ p.source.scopeDecls s, d.index ≠ id.index

section Entries

variable (next : Nat) (rs : List Request) (r : Request) (rs' : List Request)

theorem entries_append_cons :
    entries next (rs ++ r :: rs') = entries next rs ++
      (r.module, ⟨.ofIndex .synthesizedDecl (next + rs.length), r.kind, r.ty, r.scope⟩) ::
        entries (next + rs.length + 1) rs' := by
  rw [entries, List.zipIdx_append, List.map_append]
  rfl

/-- Of the entries that a run leaves only that of one request has its position. -/
theorem filter_entries :
    (entries next (rs ++ r :: rs')).filter
        (fun e => e.2.id = .ofIndex .synthesizedDecl (next + rs.length)) =
      [(r.module, ⟨.ofIndex .synthesizedDecl (next + rs.length), r.kind, r.ty, r.scope⟩)] := by
  have hpairwise := pairwise_entries next (rs ++ r :: rs')
  rw [entries_append_cons] at hpairwise ⊢
  rcases List.pairwise_append.1 hpairwise with ⟨-, hafter, hbefore⟩
  have hlt : (entries next rs).filter
      (fun e => e.2.id = .ofIndex .synthesizedDecl (next + rs.length)) = [] := by
    refine List.filter_eq_nil_iff.2 fun e he heq => ?_
    have hindex := hbefore e he _ List.mem_cons_self
    rw [of_decide_eq_true heq] at hindex
    exact Nat.lt_irrefl _ hindex
  have hgt : (entries (next + rs.length + 1) rs').filter
      (fun e => e.2.id = .ofIndex .synthesizedDecl (next + rs.length)) = [] := by
    refine List.filter_eq_nil_iff.2 fun e he heq => ?_
    have hindex := (List.pairwise_cons.1 hafter).1 e he
    rw [of_decide_eq_true heq] at hindex
    exact Nat.lt_irrefl _ hindex
  simp [List.filter_append, hlt, hgt]

theorem filter_pairsAt_entries (m : IdentOf .moduleDecl) :
    ((pairsAt (entries next (rs ++ r :: rs')) m).map Prod.snd).filter
        (fun e => e.id = .ofIndex .synthesizedDecl (next + rs.length)) =
      if m = r.module then
        [⟨.ofIndex .synthesizedDecl (next + rs.length), r.kind, r.ty, r.scope⟩]
      else [] := by
  have hfilter := filter_entries next rs r rs'
  rw [List.filter_map, pairsAt, List.filter_comm, ← pairsAt]
  simp only [Function.comp_def, hfilter]
  by_cases hm : m = r.module
  · rw [if_pos hm, pairsAt_cons_of_index_eq (congrArg Ident.index hm.symm)]
    rfl
  · have hne : index r.module ≠ index m := fun h => hm (IdentOf.eq_of_index_eq h.symm)
    rw [if_neg hm, pairsAt_cons_of_index_ne hne]
    rfl

end Entries

section Run

variable {source : ScopedProgram} {pool : TypePool} {before after : List Op} {request : Request}
  {r : Relations} {p : TypedProgram} {id : IdentOf .synthesizedDecl}

theorem requests_append_synthesize (before : List Op) (request : Request) (after : List Op) :
    requests (before ++ .synthesize request :: after) =
      requests before ++ request :: requests after :=
  requests_append _ _

theorem getElem?_made (before : List Op) (request : Request) (after : List Op) :
    ((requests (before ++ .synthesize request :: after)).map
        fun r => (r.kind, r.scope))[(requests before).length]? =
      some (request.kind, request.scope) := by
  simp [requests_append_synthesize]

theorem getElem?_entries_run (d : Draft) (before : List Op) (request : Request)
    (after : List Op) :
    (d.run (before ++ .synthesize request :: after)).source.arena.entries[
        (d.run before).source.arena.size]? =
      some (⟨.synthesizedDecl, ({ kind := request.kind } : SynthesizedDecl)⟩, .dummy) := by
  rw [size_run, source_run]
  exact ScopedProgram.getElem?_entries_grow (getElem?_made before request after)

theorem node?_run_eq_none (d : Draft) {earlier : List Op} (h : earlier <+: before)
    {c : Class} {x : Ident c} (hx : x.index = (d.run before).source.arena.size) :
    (d.run earlier).source.arena.node? x = none := by
  rcases h with ⟨rest, rfl⟩
  have hsize : (d.run earlier).source.arena.size ≤ x.index := by
    rw [hx, run_append, size_run (d.run earlier)]
    exact Nat.le_add_right _ _
  exact Array.getElem?_eq_none hsize

/-- The type at a position that a request took is the one asked for, unless a later call has
set another. -/
theorem lastAt_declTypes {next : Nat} {k : DeclId}
    (hk : k.index = next + (requests before).length) :
    lastAt (declTypes next (before ++ .synthesize request :: after)) k =
      some ((lastAt (after.filterMap Op.declType?) k).getD request.ty) := by
  have hlater : lastAt (declTypes (next + (requests before).length + 1) after) k =
      lastAt (after.filterMap Op.declType?) k := by
    rw [lastAt, pairsAt_declTypes (hk ▸ Nat.lt_succ_self _), ← lastAt]
  rw [declTypes_append, declTypes, lastAt_append_cons hk.symm, hlater]

/-- The lists of declarations are those of the source, which knows no position beyond its
arena. -/
theorem index_ne_of_mem_scopeDecls (hsource : source.Validated) {ops : List Op} {s : ScopeId}
    {d : DeclId} (hd : d ∈ ((start source pool).run ops).source.scopeDecls s) {i : Nat}
    (hi : source.arena.size ≤ i) : d.index ≠ i := by
  rw [ScopedProgram.scopeDecls, source_run, ScopedProgram.decls_grow] at hd
  rcases hsource.fits.contains with ⟨-, hdecls, -⟩
  cases hl : source.tables.decls.get? s with
  | none => simp [start, hl] at hd
  | some l =>
      have hmem : d ∈ l := by simpa [start, hl] using hd
      have hcontains := Table.of_get?_eq_some (fun l => ∀ d ∈ l, source.arena.contains d = true)
        (fun e he => (hdecls e he).2) hl d hmem
      exact Nat.ne_of_lt (Nat.lt_of_lt_of_le (Arena.index_lt_of_contains hcontains) hi)

/-- Whatever was called before and is called afterwards, a program holds what each call has
synthesized. -/
theorem materialized_of_finish? (hsource : source.Validated)
    (hid : (((start source pool).run before).synthesize request.module request.kind request.ty
      request.scope).1 = id)
    (hp : ((start source pool).run (before ++ .synthesize request :: after)).finish? r = .ok p) :
    Materialized source pool before request after id p := by
  have hanswers := answers_of_finish?_eq_ok hp
  have hrun :
      p.source = ((start source pool).run (before ++ .synthesize request :: after)).source := by
    rw [source_run]
    exact hanswers.source_eq
  have hindex : id.index = ((start source pool).run before).source.arena.size := by
    rw [← hid]
    rfl
  have hposition : id.index = source.arena.size + (requests before).length :=
    hindex.trans (size_run _ _)
  have hentry (later : List Op) := Arena.getElem?_entries_eq_some_iff.1
    (getElem?_entries_run (start source pool) before request later)
  rw [← hindex] at hentry
  have harena : p.arena =
      ((start source pool).run (before ++ .synthesize request :: after)).source.arena :=
    congrArg ScopedProgram.arena hrun
  constructor
  case index_eq => exact hindex
  case absent => exact fun earlier h => node?_run_eq_none _ h hindex
  case present =>
    intro later _
    exact (hentry later).1
  case listed =>
    intro m
    have hid' : id = .ofIndex .synthesizedDecl (source.arena.size + (requests before).length) :=
      IdentOf.eq_of_index_eq hposition
    rw [hanswers.synthesizedDecls, requests_append_synthesize, hid']
    exact filter_pairsAt_entries _ _ _ _ m
  case increasing =>
    intro m
    rw [hanswers.synthesizedDecls]
    exact List.pairwise_map.2 ((pairwise_entries _ _).filter _)
  case syntaxKind =>
    rw [harena]
    exact Arena.get?_eq_some_iff.2 (hentry after).1
  case span =>
    rw [harena]
    exact Arena.span_eq_ok_iff.2 (hentry after).2
  case scope =>
    have hscope : p.source.declScope? id.widen = some request.scope := by
      rw [hrun, source_run]
      exact ScopedProgram.declScope?_grow_of_getElem? (getElem?_made before request after)
        hposition
    rw [TypedProgram.scope, hscope]
  case declaredType => rw [hanswers.declaredType, lastAt_declTypes hposition]
  case unlisted =>
    intro s d hd
    rw [hrun] at hd
    exact index_ne_of_mem_scopeDecls hsource hd (hposition ▸ Nat.le_add_right _ _)

end Run

section Retyped

open ScopedProgram (scopedLambda ofArena?_boundLambda)

/-- A deinitializer in the function under the lambda of `boundLambda`. -/
def deinitInLambda : Request :=
  ⟨.ofIndex .moduleDecl 9, .deinit, ⟨3⟩, (IdentOf.ofIndex .functionDecl 5).widen⟩

/-- Sets another type for the declaration of `deinitInLambda`, under an identity that claims
another kind, and makes one more declaration. -/
def retype : List Op :=
  [.setDeclType (IdentOf.ofIndex .varDecl 11).widen ⟨4⟩,
    .synthesize ⟨.ofIndex .moduleDecl 9, .copy, ⟨3⟩, (IdentOf.ofIndex .translationUnit 8).widen⟩]

def retypedDraft : Draft :=
  (start scopedLambda .new).run (copyInUnit ++ .synthesize deinitInLambda :: retype)

theorem describes_retypedDraft :
    retypedDraft.properties.Describes retypedDraft.source.arena retypedDraft.pool := by
  decide +kernel

theorem materialized_retypedDraft :
    scopedLambda.Validated ∧ retypedDraft.validation = .full ∧
      ∃ p, retypedDraft.finish? (∅ : RelationTable).relations = .ok p ∧
        ((((start scopedLambda .new).run copyInUnit).synthesize deinitInLambda.module
          deinitInLambda.kind deinitInLambda.ty deinitInLambda.scope).1 =
            .ofIndex .synthesizedDecl 11) ∧
        Materialized scopedLambda .new copyInUnit deinitInLambda retype
          (.ofIndex .synthesizedDecl 11) p ∧
        p.declaredType (IdentOf.ofIndex .synthesizedDecl 11).widen = .ok ⟨4⟩ := by
  have hsource : scopedLambda.Validated := .inl ⟨_, ofArena?_boundLambda⟩
  have hfinish : retypedDraft.finish? (∅ : RelationTable).relations =
      .ok ⟨retypedDraft.source, retypedDraft.pool, retypedDraft.properties,
        (∅ : RelationTable).relations⟩ :=
    finish?_eq_ok_iff.2
      ⟨rfl, TypedProgram.ofParts?_full_eq_ok_iff.2 ⟨describes_retypedDraft, rfl⟩⟩
  have hmaterialized := materialized_of_finish? hsource rfl hfinish
  exact ⟨hsource, rfl, _, hfinish, rfl, hmaterialized, hmaterialized.declaredType⟩

end Retyped

end Draft

end TypedTree
