import TypedTree.Proofs.Ty.Outline

/-!
# What types look like in writing

A writer adds the text of the outline to what it has written, and is then inside of the same
types as before (`map_write_eq`). So a type can be written whenever the names that it uses are
known. In a pool that was built from the parts up, a type comes after all its components, and
nothing is ever left out: `plain`, which keeps no account of the types around it, writes the
same (`display_eq_plain`).
-/

namespace TypedTree

namespace TypeWriter

variable {w : TypeWriter} {names : NameTable}

theorem put_empty (w : TypeWriter) : w.put "" = w := by
  rw [put, String.append_empty]

theorem put_put (w : TypeWriter) (s s' : String) : (w.put s).put s' = w.put (s ++ s') := by
  simp only [put, String.append_assoc]

/-- If every part is written as its text, so are pieces with their parts. -/
theorem map_foldlM_putPiece
    {part : (v : w.Beside) → TypeId → Except Fault v.val.Beside}
    {text : TypeId → Except Fault String}
    (h : ∀ v u, Subtype.val <$> part v u = v.val.put <$> text u) (pieces : List (Piece TypeId))
    (v : w.Beside) :
    Subtype.val <$> pieces.foldlM (Beside.putPiece names part) v =
      v.val.put <$> Piece.concat names text pieces := by
  induction pieces generalizing v with
  | nil => exact congrArg Except.ok (put_empty v.val).symm
  | cons piece rest ih =>
      have hpiece : Subtype.val <$> Beside.putPiece names part v piece =
          v.val.put <$> piece.text names text := by
        cases piece with
        | literal s => rfl
        | name n =>
            rw [Beside.putPiece, Piece.text]
            cases names.lookup n <;> rfl
        | part u =>
            rw [Piece.text, ← h, Beside.putPiece]
            cases part v u <;> rfl
      rw [List.foldlM_cons]
      calc Subtype.val <$> (Beside.putPiece names part v piece >>=
            rest.foldlM (Beside.putPiece names part))
        _ = Beside.putPiece names part v piece >>= fun u =>
            u.val.put <$> Piece.concat names text rest := by simp only [map_bind, ih]
        _ = (Subtype.val <$> Beside.putPiece names part v piece) >>= fun u =>
            u.put <$> Piece.concat names text rest := by rw [bind_map_left]
        _ = piece.text names text >>= fun s =>
            (v.val.put s).put <$> Piece.concat names text rest := by rw [hpiece, bind_map_left]
        _ = v.val.put <$> Piece.concat names text (piece :: rest) := by
          simp only [Piece.concat, map_eq_pure_bind, bind_assoc, pure_bind, put_put]

end TypeWriter

namespace TypePool

variable {p : TypePool} {a : Arena} {names : NameTable} {t : TypeId}

/-- A writer puts the text of the outline inside of its types, and changes nothing else. -/
theorem map_write_eq (w : TypeWriter) (t : TypeId) :
    Subtype.val <$> p.write a names w t = w.put <$> (p.outline a w.opened t).text names := by
  induction w, t using write.induct p with
  | case1 w t hget =>
      rw [write_of_get?_eq_none hget, outline_of_get?_eq_none hget, Outline.text]
      rfl
  | case2 w t ty hget ht =>
      rw [write_of_mem hget ht, outline_of_mem hget ht, Outline.text]
      rfl
  | case3 w t ty hget ht ih =>
      have hpart (v : (w.enter t).Beside) (u : TypeId) : Subtype.val <$> p.write a names v.val u =
          v.val.put <$> (p.outline a (t :: w.opened) u).text names := by
        rw [ih v u, v.property]
        rfl
      rw [write_of_notMem hget ht, outline_of_notMem hget ht, Outline.text_opened, Piece.concat_map]
      calc Subtype.val <$> TypeWriter.Beside.leave <$> (ty.layout a).foldlM _ _
        _ = TypeWriter.leave <$> Subtype.val <$> (ty.layout a).foldlM
            (TypeWriter.Beside.putPiece names fun v u => p.write a names v.val u)
            (TypeWriter.Beside.refl (w.enter t)) := by
          rw [Functor.map_map, Functor.map_map]
          rfl
        _ = w.put <$> Piece.concat names (Outline.text names ∘ p.outline a (t :: w.opened))
            (ty.layout a) := by
          rw [TypeWriter.map_foldlM_putPiece hpart, Functor.map_map]
          rfl

/-- A type is displayed as the text of its outline. -/
theorem display_eq_text (t : TypeId) :
    p.display a names t = (p.outline a [] t).text names := by
  have hput : TypeWriter.text ∘ ({} : TypeWriter).put = id := by
    funext s
    exact String.empty_append
  calc p.display a names t
    _ = TypeWriter.text <$> Subtype.val <$> p.write a names {} t := by
      simp only [display, map_eq_pure_bind, bind_assoc, pure_bind]
    _ = (p.outline a [] t).text names := by
      rw [map_write_eq, Functor.map_map]
      change (TypeWriter.text ∘ ({} : TypeWriter).put) <$> _ = _
      rw [hput, id_map]

end TypePool

namespace Ty

variable {t : TypeId}

/-- The types that a type is made of, whether they are written or not. -/
def components : Ty → List TypeId
  | .tuple components => components.map TupleComponent.ty
  | .lambda s => s.environment :: s.output :: s.inputs.map CallableParameter.ty
  | .subscript _ s => s.environment :: s.output :: s.inputs.map CallableParameter.ty
  | _ => []

theorem declaredName_ne_part (n : Option Name) : declaredName n ≠ .part t := by
  cases n <;> simp [declaredName]

theorem part_mem_labeled_iff {pieces : List (Piece TypeId)} {label : Option Name} :
    .part t ∈ labeled pieces label ↔ .part t ∈ pieces := by
  cases label <;> simp [labeled]

theorem mem_separated_iff {piece : Piece TypeId} (h : ∀ s, piece ≠ .literal s)
    {items : List (List (Piece TypeId))} :
    piece ∈ separated items ↔ ∃ item ∈ items, piece ∈ item := by
  induction items with
  | nil => simp [separated]
  | cons item rest ih =>
      cases rest with
      | nil => simp [separated, List.intercalate]
      | cons item' rest =>
          have hcons : separated (item :: item' :: rest) =
              item ++ .literal ", " :: separated (item' :: rest) := by
            simp [separated, List.intercalate]
          rw [hcons, List.mem_append, List.mem_cons, ih]
          simp [h]

theorem part_mem_separated_iff {items : List (List (Piece TypeId))} :
    .part t ∈ separated items ↔ ∃ item ∈ items, .part t ∈ item :=
  mem_separated_iff (by simp)

theorem part_mem_inputsLayout_iff {inputs : List CallableParameter} :
    .part t ∈ inputsLayout inputs ↔ t ∈ inputs.map CallableParameter.ty := by
  have hinput (input : CallableParameter) : .part t ∈ inputLayout input ↔ input.ty = t := by
    rw [inputLayout, part_mem_labeled_iff]
    split <;> simp [eq_comm]
  simp [inputsLayout, part_mem_separated_iff, hinput]

theorem mem_components_of_part_mem_layout {a : Arena} {ty : Ty} (h : .part t ∈ ty.layout a) :
    t ∈ ty.components := by
  cases ty with
  | builtin | error => simp [layout] at h
  | module | product | trait | genericParameter =>
      simp [layout, (declaredName_ne_part _).symm] at h
  | tuple parts =>
      have hcomponent (c : TupleComponent) : .part t ∈ componentLayout c ↔ c.ty = t := by
        rw [componentLayout, part_mem_labeled_iff]
        simp [eq_comm]
      simpa [layout, components, part_mem_separated_iff, hcomponent] using h
  | lambda s =>
      have henvironment : .part t ∈ environmentLayout s.environment → t = s.environment := by
        rw [environmentLayout]
        split <;> simp
      simp only [layout, List.mem_append, part_mem_inputsLayout_iff, List.mem_cons, reduceCtorEq,
        Piece.part.injEq, List.not_mem_nil, or_false, false_or] at h
      rcases h with (henv | hinput) | rfl
      · exact henvironment henv ▸ List.mem_cons_self
      · exact .tail _ (.tail _ hinput)
      · exact .tail _ (.head _)
  | subscript capabilities s =>
      simp only [layout, List.cons_append, List.mem_append, part_mem_inputsLayout_iff,
        List.mem_cons, reduceCtorEq, Piece.part.injEq, List.not_mem_nil, or_false, false_or] at h
      rcases h with hinput | rfl
      · exact .tail _ (.tail _ hinput)
      · exact .tail _ (.head _)

end Ty

namespace TypePool

variable {p : TypePool} {a : Arena} {names : NameTable} {t : TypeId}

def ComponentsFirst (p : TypePool) : Prop :=
  ∀ t ty, p.get? t = some ty → ∀ c ∈ ty.components, c.raw < t.raw

/-- Pools that come from the new one by interning types, each after its components. -/
inductive WellBuilt : TypePool → Prop
  | new : WellBuilt .new
  | intern {p : TypePool} {ty : Ty} (h : p.WellBuilt)
      (hcomponents : ∀ c ∈ ty.components, p.contains c = true) : WellBuilt (p.intern ty).2

/-- A type in writing, with all its parts, whatever is around them. -/
def plain (p : TypePool) (h : p.ComponentsFirst) (a : Arena) (names : NameTable) (t : TypeId) :
    Except Fault String :=
  match _hget : p.get? t with
  | none => .ok "<foreign type>"
  | some ty => Piece.concat names (fun u => p.plain h a names u.val) (Piece.attach (ty.layout a))
termination_by t.raw
decreasing_by exact h t ty _hget _ (Ty.mem_components_of_part_mem_layout u.property)

theorem plain_of_get?_eq_none (h : p.ComponentsFirst) (hget : p.get? t = none) :
    p.plain h a names t = .ok "<foreign type>" := by
  rw [plain]
  split
  · rfl
  · cases hget.symm.trans ‹_›

theorem plain_of_get?_eq_some (h : p.ComponentsFirst) {ty : Ty} (hget : p.get? t = some ty) :
    p.plain h a names t = Piece.concat names (p.plain h a names) (ty.layout a) := by
  rw [plain]
  split
  · cases hget.symm.trans ‹_›
  · rename_i hget'
    cases hget.symm.trans hget'
    rw [Piece.concat_attach]

/-- Inside of types that come later nothing is left out. -/
theorem text_outline_eq_plain (h : p.ComponentsFirst) {outer : List TypeId}
    (houter : ∀ u ∈ outer, t.raw < u.raw) :
    (p.outline a outer t).text names = p.plain h a names t := by
  induction outer, t using outline.induct p with
  | case1 outer t hget =>
      rw [outline_of_get?_eq_none hget, plain_of_get?_eq_none h hget, Outline.text]
  | case2 outer t ty hget ht => exact absurd (houter t ht) (Nat.lt_irrefl _)
  | case3 outer t ty hget ht ih =>
      rw [outline_of_notMem hget ht, Outline.text_opened, Piece.concat_map,
        plain_of_get?_eq_some h hget]
      refine Piece.concat_congr fun u hu => ih u fun v hv => ?_
      have hlt : u.raw < t.raw := h t ty hget u (Ty.mem_components_of_part_mem_layout hu)
      rcases List.mem_cons.1 hv with rfl | hv
      · exact hlt
      · exact hlt.trans (houter v hv)

theorem display_eq_plain (h : p.ComponentsFirst) (t : TypeId) :
    p.display a names t = p.plain h a names t := by
  rw [display_eq_text]
  exact text_outline_eq_plain h fun _ hu => nomatch hu

theorem ComponentsFirst.intern (h : p.ComponentsFirst) {ty : Ty}
    (hcomponents : ∀ c ∈ ty.components, p.contains c = true) :
    (p.intern ty).2.ComponentsFirst := by
  intro t u hget c hc
  by_cases hty : ty ∈ p.types.toList
  · rw [intern_of_mem hty] at hget
    exact h t u hget c hc
  · rw [interner.read?_eq, types_intern_of_notMem hty] at hget
    by_cases hlt : t.raw < p.types.toList.length
    · rw [List.getElem?_append_left hlt, ← interner.read?_eq] at hget
      exact h t u hget c hc
    · rw [List.getElem?_append_right (Nat.le_of_not_lt hlt)] at hget
      obtain rfl : u = ty := by simpa using List.mem_of_getElem? hget
      have hc : c.raw < p.size := of_decide_eq_true (hcomponents c hc)
      exact hc.trans_le (Nat.le_of_not_lt hlt)

theorem WellBuilt.componentsFirst (h : p.WellBuilt) : p.ComponentsFirst := by
  induction h with
  | new =>
      intro t ty hget c hc
      have hbuiltin : ∀ ty ∈ builtins, ty.components = [] := by decide
      rw [hbuiltin ty (mem_types_iff.2 ⟨t, hget⟩)] at hc
      cases hc
  | intern _ hcomponents ih => exact ih.intern hcomponents

/-- `o` is the outline of `t` for a writer that is inside of the types `outer`: each place holds
what the pool and the types around it give. -/
structure Outlines (p : TypePool) (a : Arena) (outer : List TypeId) (t : TypeId) (o : Outline) :
    Prop where
  root : o.root = t
  fits : ∀ path x, o.Visit path x → x.Fits p a (path ++ outer)

theorem outlines_outline (outer : List TypeId) (t : TypeId) :
    p.Outlines a outer t (p.outline a outer t) :=
  ⟨root_outline, fun _ _ => fits_of_visit_outline⟩

/-- Whatever types a pool holds, there is an end to the writing of one: it follows an outline,
which is finite, in which a type is left out exactly where it would enclose itself, and no deeper
than the pool is large. The writer is then inside of the types that it was inside of before, and
the only thing that it may lack are names. If the pool was built from the parts up, a type is
displayed with all its parts. -/
theorem display_follows_outline (p : TypePool) (a : Arena) (names : NameTable) :
    (∀ w t, (∀ v, p.write a names w t = .ok v → v.val.opened = w.opened) ∧
      ∃ o, p.Outlines a w.opened t o ∧
        Subtype.val <$> p.write a names w t = w.put <$> o.text names) ∧
    (∀ t, ∃ o, p.Outlines a [] t o ∧ p.display a names t = o.text names ∧
      ∀ path x, o.Visit path x →
        path.Nodup ∧ path.length ≤ p.size ∧ (x = .cycle x.root ↔ x.root ∈ path)) ∧
    (∀ t, (∃ s, p.display a names t = .ok s) ↔
      ∀ n, p.Uses a t n → (names.text? n).isSome) ∧
    (p.WellBuilt → ∃ h : p.ComponentsFirst, ∀ t, p.display a names t = p.plain h a names t) := by
  refine ⟨fun w t => ⟨fun v _ => v.property, _, outlines_outline w.opened t, map_write_eq w t⟩,
    fun t => ⟨_, outlines_outline [] t, display_eq_text t, fun path x hvisit => ?_⟩,
    fun t => ?_, fun h => ⟨h.componentsFirst, display_eq_plain h.componentsFirst⟩⟩
  · rcases path_of_visit_outline hvisit with ⟨hnodup, -, hlength⟩
    exact ⟨hnodup, hlength, eq_cycle_iff_of_visit_outline hvisit⟩
  · rw [display_eq_text]
    exact exists_text_outline_eq_ok_iff

/-- A function that keeps a pair and takes another one. -/
def pairFunction : TypePool :=
  let pair : Ty := .tuple [⟨some ⟨1⟩, ⟨2⟩⟩, ⟨none, ⟨2⟩⟩]
  let function : Ty := .lambda ⟨⟨7⟩, [⟨none, .inout, ⟨7⟩⟩], ⟨3⟩⟩
  ((new.intern pair).2.intern function).2

/-- A type that holds itself, and two that hold each other, a type twice, and one that is not
there. -/
def knots : TypePool :=
  ofTypes [.tuple [⟨none, ⟨3⟩⟩, ⟨none, ⟨7⟩⟩], .tuple [⟨none, ⟨9⟩⟩],
    .tuple [⟨none, ⟨8⟩⟩, ⟨none, ⟨2⟩⟩, ⟨none, ⟨2⟩⟩, ⟨none, ⟨40⟩⟩]]

theorem wellBuilt_pairFunction : pairFunction.WellBuilt :=
  .intern (.intern .new (by decide)) (by decide +kernel)

/-- A pool that was built from the parts up, and one that was not. -/
theorem display_follows_outline_knots :
    pairFunction.WellBuilt ∧
      pairFunction.display ∅ (.ofTexts ["x"]) ⟨8⟩ =
        .ok "[\x7bx: Bool, Bool\x7d] (inout \x7bx: Bool, Bool\x7d) -> Int" ∧
      (∃ h : pairFunction.ComponentsFirst, ∀ t, pairFunction.display ∅ (.ofTexts ["x"]) t =
        pairFunction.plain h ∅ (.ofTexts ["x"]) t) ∧
      (¬ ∀ n, pairFunction.Uses ∅ ⟨8⟩ n → (NameTable.new.text? n).isSome) ∧
      knots.display ∅ .new ⟨7⟩ = .ok "\x7bInt, <cycle>\x7d" ∧
      knots.display ∅ .new ⟨8⟩ = .ok "\x7b\x7b<cycle>, Bool, Bool, <foreign type>\x7d\x7d" ∧
      (∀ n, knots.Uses ∅ ⟨8⟩ n → (NameTable.new.text? n).isSome) := by
  obtain ⟨-, -, -, hplain⟩ := display_follows_outline pairFunction ∅ (.ofTexts ["x"])
  obtain ⟨-, -, hnames, -⟩ := display_follows_outline pairFunction ∅ .new
  obtain ⟨-, -, hknots, -⟩ := display_follows_outline knots ∅ .new
  have hknot : knots.display ∅ .new ⟨8⟩ =
      .ok "\x7b\x7b<cycle>, Bool, Bool, <foreign type>\x7d\x7d" := by decide +kernel
  have hunknown : pairFunction.display ∅ .new ⟨8⟩ = .error (.unknownName ⟨1⟩) := by decide +kernel
  refine ⟨wellBuilt_pairFunction, by decide +kernel, hplain wellBuilt_pairFunction, fun hall => ?_,
    by decide +kernel, hknot, (hknots ⟨8⟩).1 ⟨_, hknot⟩⟩
  rcases (hnames ⟨8⟩).2 hall with ⟨s, hs⟩
  cases hunknown.symm.trans hs

end TypePool

end TypedTree
