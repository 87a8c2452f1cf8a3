import TypedTree.Proofs.Scope.Fit

/-!
# Growing programs

`ScopedProgram.grow` adds synthesized declarations one after another, each in any scope at
all. The arena then knows what it knew before, and one declaration more for each
(`contains_grow`). A declaration of the source keeps its scope (`declScope?_grow_of_lt`), and
one that was added has the scope that it was added in (`declScope?_grow_of_getElem?`).
-/

namespace TypedTree

namespace ScopedProgram

/-- Adds declarations of the given kinds, each in its scope. -/
def grow (p : ScopedProgram) (made : List (SynthesizedKind × ScopeId)) : ScopedProgram :=
  made.foldl (fun p e => (p.insertSynthesized e.1 e.2).2) p

variable {p : ScopedProgram} {made : List (SynthesizedKind × ScopeId)} {c : Class}

theorem size_insertSynthesized (kind : SynthesizedKind) (scope : ScopeId) :
    (p.insertSynthesized kind scope).2.arena.size = p.arena.size + 1 :=
  Arena.size_insert p.arena _ _

theorem contains_insertSynthesized {kind : SynthesizedKind} {scope : ScopeId} {id : Ident c} :
    (p.insertSynthesized kind scope).2.arena.contains id = true ↔
      p.arena.contains id = true ∨ id.index = p.arena.size ∧ id.kind = .synthesizedDecl :=
  Arena.contains_insert

theorem declScope?_insertSynthesized (kind : SynthesizedKind) (scope : ScopeId) (d : DeclId) :
    (p.insertSynthesized kind scope).2.declScope? d =
      if p.arena.size = d.index then some scope else p.declScope? d :=
  Table.get?_insert _ _ _ _

theorem entries_grow :
    (p.grow made).arena.entries = p.arena.entries ++
      made.map fun e => (⟨.synthesizedDecl, ({ kind := e.1 } : SynthesizedDecl)⟩, .dummy) := by
  induction made generalizing p with
  | nil => simp [grow]
  | cons e made ih =>
      change ((p.insertSynthesized e.1 e.2).2.grow made).arena.entries = _
      have hentry : (p.insertSynthesized e.1 e.2).2.arena.entries = p.arena.entries ++
          [(⟨.synthesizedDecl, ({ kind := e.1 } : SynthesizedDecl)⟩, .dummy)] :=
        Arena.entries_insert
      rw [ih, hentry, List.append_assoc]
      rfl

theorem size_grow : (p.grow made).arena.size = p.arena.size + made.length := by
  rw [← Arena.length_entries, entries_grow, List.length_append, Arena.length_entries,
    List.length_map]

theorem getElem?_entries_grow {i : Nat} {e : SynthesizedKind × ScopeId} (he : made[i]? = some e) :
    (p.grow made).arena.entries[p.arena.size + i]? =
      some (⟨.synthesizedDecl, ({ kind := e.1 } : SynthesizedDecl)⟩, .dummy) := by
  rw [entries_grow, ← Arena.length_entries, List.getElem?_append_right (Nat.le_add_right _ _),
    Nat.add_sub_cancel_left, List.getElem?_map, he]
  rfl

/-- A program knows what it knew before it grew, and one declaration for each that was
added. -/
theorem contains_grow {id : Ident c} :
    (p.grow made).arena.contains id = true ↔
      p.arena.contains id = true ∨
        id.kind = .synthesizedDecl ∧ ∃ i < made.length, id.index = p.arena.size + i := by
  induction made generalizing p with
  | nil => simp [grow]
  | cons e made ih =>
      change ((p.insertSynthesized e.1 e.2).2.grow made).arena.contains id = true ↔ _
      rw [ih, contains_insertSynthesized, size_insertSynthesized, or_assoc]
      refine or_congr_right ?_
      -- the first declaration takes the next position, and the others come after it
      constructor
      · rintro (⟨hindex, hkind⟩ | ⟨hkind, i, hi, hindex⟩)
        · exact ⟨hkind, 0, by simp, hindex⟩
        · exact ⟨hkind, i + 1, by simpa using hi, by omega⟩
      · rintro ⟨hkind, i, hi, hindex⟩
        cases i with
        | zero => exact .inl ⟨hindex, hkind⟩
        | succ i => exact .inr ⟨hkind, i, by simpa using hi, by omega⟩

theorem contains_grow_of_kind_ne {id : Ident c} (hkind : id.kind ≠ .synthesizedDecl) :
    (p.grow made).arena.contains id = true ↔ p.arena.contains id = true := by
  rw [contains_grow]
  exact or_iff_left fun hmade => hkind hmade.1

/-- A program has the nodes that it had before it grew, and new ones that are synthesized
declarations. -/
theorem get?_grow {k : Kind} (hkind : k ≠ .synthesizedDecl) (id : IdentOf k) :
    (p.grow made).arena.get? id = p.arena.get? id := by
  induction made generalizing p with
  | nil => rfl
  | cons e made ih =>
      change ((p.insertSynthesized e.1 e.2).2.grow made).arena.get? id = _
      rw [ih]
      exact Arena.get?_insert_of_kind_ne hkind.symm id

theorem declScope?_grow_of_lt {d : DeclId} (h : d.index < p.arena.size) :
    (p.grow made).declScope? d = p.declScope? d := by
  induction made generalizing p with
  | nil => rfl
  | cons e made ih =>
      change ((p.insertSynthesized e.1 e.2).2.grow made).declScope? d = _
      rw [ih (by rw [size_insertSynthesized]; omega), declScope?_insertSynthesized]
      exact if_neg (by omega)

theorem declScope?_grow_of_getElem? {d : DeclId} {i : Nat} {e : SynthesizedKind × ScopeId}
    (he : made[i]? = some e) (hd : d.index = p.arena.size + i) :
    (p.grow made).declScope? d = some e.2 := by
  induction made generalizing p i with
  | nil => cases he
  | cons e' made ih =>
      change ((p.insertSynthesized e'.1 e'.2).2.grow made).declScope? d = _
      cases i with
      | zero =>
          obtain rfl : e' = e := Option.some.inj he
          have hlt : d.index < (p.insertSynthesized e'.1 e'.2).2.arena.size := by
            rw [size_insertSynthesized]
            omega
          rw [declScope?_grow_of_lt hlt, declScope?_insertSynthesized]
          exact if_pos hd.symm
      | succ i => exact ih he (by rw [size_insertSynthesized]; omega)

theorem bindings_grow : (p.grow made).tables.bindings = p.tables.bindings := by
  induction made generalizing p with
  | nil => rfl
  | cons e made ih => exact ih

theorem decls_grow : (p.grow made).tables.decls = p.tables.decls := by
  induction made generalizing p with
  | nil => rfl
  | cons e made ih => exact ih

end ScopedProgram

end TypedTree
