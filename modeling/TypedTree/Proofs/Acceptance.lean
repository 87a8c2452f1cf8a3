/-!
# What computations that may fail give

One lemma for each way in which computations in `Except` are put together, so that the
result of the whole is read off its parts. A check, which is a computation that gives
nothing, accepts exactly if each of its tests does, and reports the first one that fails
(`forM_unless_eq_error`).
-/

namespace TypedTree

variable {α β ε : Type}

theorem bind_eq_ok_iff {x : Except ε α} {f : α → Except ε β} {b : β} :
    (x >>= f) = .ok b ↔ ∃ a, x = .ok a ∧ f a = .ok b := by
  cases x with
  | error e => simp [bind, Except.bind]
  | ok a => simp [bind, Except.bind]

theorem bind_eq_error_iff {x : Except ε α} {f : α → Except ε β} {e : ε} :
    (x >>= f) = .error e ↔ x = .error e ∨ ∃ a, x = .ok a ∧ f a = .error e := by
  cases x with
  | error e => simp [bind, Except.bind]
  | ok a => simp [bind, Except.bind]

theorem mapError_eq_ok_iff {ε' : Type} {x : Except ε α} {f : ε → ε'} {a : α} :
    x.mapError f = .ok a ↔ x = .ok a := by
  cases x with
  | error e => exact iff_of_false (fun h => by cases h) (fun h => by cases h)
  | ok b =>
      rw [Except.ok.injEq]
      exact ⟨Except.ok.inj, congrArg Except.ok⟩

theorem mapM_eq_ok_iff {f : α → Except ε β} {l : List α} {r : List β} :
    l.mapM f = .ok r ↔ l.map f = r.map .ok := by
  induction l generalizing r with
  | nil =>
      rw [List.mapM_nil, List.map_nil, List.nil_eq, List.map_eq_nil_iff]
      exact ⟨fun h => (Except.ok.inj h).symm, fun h => h ▸ rfl⟩
  | cons x l ih =>
      simp only [List.mapM_cons, bind_eq_ok_iff, ih]
      rw [List.map_cons, eq_comm, List.map_eq_cons_iff]
      constructor
      · rintro ⟨y, hy, ys, hys, h⟩
        exact ⟨y, ys, (Except.ok.inj h).symm, hy.symm, hys.symm⟩
      · rintro ⟨y, ys, rfl, hy, hys⟩
        exact ⟨y, hy.symm, ys, hys.symm, rfl⟩

theorem mapM_congr_left {f g : α → Except ε β} {l : List α} (h : ∀ x ∈ l, f x = g x) :
    l.mapM f = l.mapM g := by
  induction l with
  | nil => rfl
  | cons x l ih =>
      obtain ⟨hx, hl⟩ := List.forall_mem_cons.1 h
      rw [List.mapM_cons, List.mapM_cons, hx, ih hl]

theorem foldlM_congr_left {f g : β → α → Except ε β} {l : List α}
    (h : ∀ x ∈ l, ∀ b, f b x = g b x) (b : β) : l.foldlM f b = l.foldlM g b := by
  induction l generalizing b with
  | nil => rfl
  | cons x l ih =>
      obtain ⟨hx, hl⟩ := List.forall_mem_cons.1 h
      rw [List.foldlM_cons, List.foldlM_cons, hx b]
      exact bind_congr fun b => ih hl b

/-- A loop whose steps add to a state what they find adds in the end what all of them find,
where `P` holds of the states that the steps start from. -/
theorem foldlM_eq_map_mapM {σ : Type} (P : σ → Prop) (add : σ → List β → σ)
    {f : σ → α → Except ε σ} {g : α → Except ε (List β)}
    (hstep : ∀ {s}, P s → ∀ x, f s x = (g x).map (add s)) (hadd : ∀ {s}, P s → ∀ l, P (add s l))
    (hnil : ∀ s, add s [] = s) (happend : ∀ s l l', add s (l ++ l') = add (add s l) l')
    {s : σ} (hs : P s) (xs : List α) :
    xs.foldlM f s = (xs.mapM g).map fun found => add s found.flatten := by
  induction xs generalizing s with
  | nil => exact congrArg Except.ok (hnil s).symm
  | cons x xs ih =>
      rw [List.foldlM_cons, List.mapM_cons, hstep hs]
      cases g x with
      | error e => rfl
      | ok l =>
          change xs.foldlM f (add s l) = _
          rw [ih (hadd hs l)]
          cases xs.mapM g with
          | error e => rfl
          | ok found => exact congrArg Except.ok (happend s l found.flatten).symm

theorem exists_of_map_eq_map_ok {f : α → Except ε β} {l : List α} {r : List β}
    (h : l.map f = r.map .ok) :
    (∀ x ∈ l, ∃ y ∈ r, f x = .ok y) ∧ ∀ y ∈ r, ∃ x ∈ l, f x = .ok y := by
  constructor
  · intro x hx
    have hmem : f x ∈ r.map Except.ok := h ▸ List.mem_map_of_mem hx
    obtain ⟨y, hy, heq⟩ := List.mem_map.1 hmem
    exact ⟨y, hy, heq.symm⟩
  · intro y hy
    have hmem : Except.ok y ∈ l.map f := h ▸ List.mem_map_of_mem hy
    exact List.mem_map.1 hmem

theorem getElem?_eq_some_iff_of_map_eq_map_ok {f : α → Except ε β} {l : List α} {r : List β}
    (h : l.map f = r.map .ok) {i : Nat} {y : β} :
    r[i]? = some y ↔ ∃ x, l[i]? = some x ∧ f x = .ok y := by
  have hi : l[i]?.map f = r[i]?.map .ok := by
    rw [← List.getElem?_map, h, List.getElem?_map]
  rw [← Option.map_eq_some_iff, hi]
  exact (Option.map_injective fun _ _ => Except.ok.inj).eq_iff.symm

theorem exists_map_eq_map_ok {f : α → Except ε β} {l : List α}
    (h : ∀ x ∈ l, ∃ y, f x = .ok y) : ∃ r : List β, l.map f = r.map .ok := by
  induction l with
  | nil => exact ⟨[], rfl⟩
  | cons x l ih =>
      obtain ⟨⟨y, hy⟩, hl⟩ := List.forall_mem_cons.1 h
      obtain ⟨r, hr⟩ := ih hl
      exact ⟨y :: r, by rw [List.map_cons, List.map_cons, hy, hr]⟩

theorem map_of_map_eq_map_ok {γ : Type} {f : α → Except ε β} {l : List α} {r : List β}
    (h : l.map f = r.map .ok) (g : β → γ) :
    l.map (fun x => (f x).map g) = (r.map g).map .ok := by
  have hmap := congrArg (List.map (Except.map g)) h
  rw [List.map_map, List.map_map] at hmap
  rw [List.map_map]
  exact hmap

theorem map_eq_map_of_map_eq_map_ok {γ δ : Type} {f : α → Except ε β} {g : α → Except ε γ}
    {l : List α} {r : List β} {r' : List γ} (hf : l.map f = r.map .ok) (hg : l.map g = r'.map .ok)
    {F : β → δ} {G : γ → δ} (h : ∀ x ∈ l, ∀ y y', f x = .ok y → g x = .ok y' → F y = G y') :
    r.map F = r'.map G := by
  have hok : (r.map F).map (Except.ok : δ → Except ε δ) = (r'.map G).map .ok := by
    rw [← map_of_map_eq_map_ok hf, ← map_of_map_eq_map_ok hg]
    refine List.map_congr_left fun x hx => ?_
    obtain ⟨y, -, hy⟩ := (exists_of_map_eq_map_ok hf).1 x hx
    obtain ⟨y', -, hy'⟩ := (exists_of_map_eq_map_ok hg).1 x hx
    rw [hy, hy', Except.map, Except.map, h x hx y y' hy hy']
  exact (List.map_inj_right fun _ _ => Except.ok.inj).1 hok

/-- The results of two members of a list stand in the order of the members. -/
theorem exists_pair_of_map_eq_map_ok {f : α → Except ε β} {l : List α} {r : List β}
    (h : l.map f = r.map .ok) {x x' : α} (hx : [x, x'].Sublist l) :
    ∃ y y', f x = .ok y ∧ f x' = .ok y' ∧ [y, y'].Sublist r := by
  have hmap := hx.map f
  rw [h, List.sublist_map_iff] at hmap
  obtain ⟨r', hr', heq⟩ := hmap
  obtain ⟨y, r'', rfl, hy, hrest⟩ := List.map_eq_cons_iff.1 heq.symm
  obtain ⟨y', rfl, hy'⟩ := List.map_eq_singleton_iff.1 hrest
  exact ⟨y, y', hy.symm, hy'.symm, hr'⟩

/-- What sets two members of a list apart sets their results apart. -/
theorem pairwise_of_map_eq_map_ok {f : α → Except ε β} {l : List α} {r : List β}
    {S : β → β → Prop} (h : l.map f = r.map .ok)
    (hl : l.Pairwise fun x x' => ∀ y y', f x = .ok y → f x' = .ok y' → S y y') :
    r.Pairwise S := by
  have hmap : (l.map f).Pairwise fun e e' => ∀ y y', e = .ok y → e' = .ok y' → S y y' :=
    List.pairwise_map.2 hl
  rw [h, List.pairwise_map] at hmap
  exact hmap.imp fun hy => hy _ _ rfl rfl

theorem andThen_eq_ok_iff {x : Except ε Unit} {y : Unit → Except ε Unit} :
    (x >>= y) = .ok () ↔ x = .ok () ∧ y () = .ok () := by
  rw [bind_eq_ok_iff]
  constructor
  · rintro ⟨_, hx, hy⟩
    exact ⟨hx, hy⟩
  · rintro ⟨hx, hy⟩
    exact ⟨(), hx, hy⟩

theorem forM_eq_ok_iff {l : List α} {f : α → Except ε Unit} :
    l.forM f = .ok () ↔ ∀ x ∈ l, f x = .ok () := by
  induction l with
  | nil => simp [List.forM, pure, Except.pure]
  | cons x l ih =>
      have hcons : (x :: l).forM f = f x >>= fun _ => l.forM f := rfl
      rw [hcons, andThen_eq_ok_iff, ih, List.forall_mem_cons]

theorem exists_of_forM_eq_error {l : List α} {f : α → Except ε Unit} {e : ε}
    (h : l.forM f = .error e) : ∃ x ∈ l, f x = .error e := by
  induction l with
  | nil => cases h
  | cons x l ih =>
      rcases bind_eq_error_iff.1 h with hx | ⟨_, -, hl⟩
      · exact ⟨x, List.mem_cons_self, hx⟩
      · obtain ⟨y, hy, herror⟩ := ih hl
        exact ⟨y, List.mem_cons_of_mem x hy, herror⟩

theorem forM_flatMap {l : List α} {g : α → List β} {f : β → Except ε Unit} :
    forM (l.flatMap g) f = forM l fun x => forM (g x) f := by
  induction l with
  | nil => rfl
  | cons x l ih => rw [List.flatMap_cons, List.forM_append, ih, List.forM_cons]

theorem unless_eq_ok_iff {c : Bool} {e : ε} :
    (unless c do throw e : Except ε Unit) = .ok () ↔ c = true := by
  cases c with
  | false => simp [throw, throwThe, MonadExceptOf.throw]
  | true => simp [pure, Except.pure]

theorem unless_eq_error_iff {c : Bool} {e e' : ε} :
    (unless c do throw e : Except ε Unit) = .error e' ↔ c = false ∧ e = e' := by
  cases c with
  | false => simp [throw, throwThe, MonadExceptOf.throw]
  | true => simp [pure, Except.pure]

/-- The first member of a list that does not satisfy the predicate. -/
def FirstFailing (l : List α) (P : α → Prop) (x : α) : Prop :=
  ∃ before after, l = before ++ x :: after ∧ (∀ y ∈ before, P y) ∧ ¬ P x

theorem exists_firstFailing {P : α → Prop} {l : List α} (h : ¬ ∀ x ∈ l, P x) :
    ∃ x, FirstFailing l P x := by
  induction l with
  | nil => exact absurd (List.forall_mem_nil P) h
  | cons y l ih =>
      by_cases hy : P y
      · have hl : ¬ ∀ x ∈ l, P x := fun hl => h (List.forall_mem_cons.2 ⟨hy, hl⟩)
        rcases ih hl with ⟨x, before, after, rfl, hbefore, hx⟩
        exact ⟨x, y :: before, after, rfl, List.forall_mem_cons.2 ⟨hy, hbefore⟩, hx⟩
      · exact ⟨y, [], l, rfl, List.forall_mem_nil P, hy⟩

/-- A test of all members of a list reports the first that fails it. -/
theorem forM_unless_eq_error {l : List α} {test : α → Bool} {error : α → ε} {x : α}
    (h : FirstFailing l (test · = true) x) :
    (l.forM fun y => do unless test y do throw (error y) : Except ε Unit) = .error (error x) := by
  rcases h with ⟨before, after, rfl, hbefore, hx⟩
  have hpass : (before.forM fun y => do unless test y do throw (error y) : Except ε Unit) =
      .ok () :=
    forM_eq_ok_iff.2 fun y hy => unless_eq_ok_iff.2 (hbefore y hy)
  rw [List.forM_eq_forM] at hpass ⊢
  have hfail : test x = false := eq_false_of_ne_true hx
  rw [List.forM_append, List.forM_cons, hpass, hfail]
  rfl

end TypedTree
