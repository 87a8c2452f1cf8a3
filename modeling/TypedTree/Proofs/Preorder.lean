import Mathlib.Data.List.Flatten
import Mathlib.Data.List.Nodup
import TypedTree.Preorder
import TypedTree.Proofs.Acceptance
import TypedTree.Proofs.Forest

/-!
# What a listing in preorder holds

`UnfoldsOn unfold D R` says that, of the items with `D`, `unfold` gives those that `R`
relates to an item. A listing then holds what can be reached along `R`
(`mem_of_preorderWithin`), it holds nothing twice where every item is reached along one
way only (`nodup_of_preorderWithin`), and it exists where `R` goes down in rank
(`exists_preorderWithin`). An item stands before all below it (`pair_sublist_of_above`), and all
below a part before all below a later part (`pair_sublist_of_parts`). To unfold some items no
further leaves out what is below them (`preorderWithin_unfoldUnless`).
-/

namespace TypedTree

open Relation

variable {α β ε : Type} {unfold : α → Except ε (List α)} {endless : α → ε} {D : α → Prop}
  {R : α → α → Prop} {depth : Nat} {x y : α} {l : List α}

/-- On the items with `D`, which `R` does not leave, `unfold` follows `R`. -/
structure UnfoldsOn (unfold : α → Except ε (List α)) (D : α → Prop) (R : α → α → Prop) :
    Prop where
  exists_parts : ∀ {x}, D x → ∃ parts, unfold x = .ok parts ∧ ∀ y, y ∈ parts ↔ R x y
  closed : ∀ {x y}, D x → R x y → D y

theorem UnfoldsOn.mem_iff (h : UnfoldsOn unfold D R) (hx : D x) {parts : List α}
    (hparts : unfold x = .ok parts) : y ∈ parts ↔ R x y := by
  obtain ⟨parts', hparts', hmem⟩ := h.exists_parts hx
  obtain rfl : parts = parts' := Except.ok.inj (hparts.symm.trans hparts')
  exact hmem y

theorem preorderWithin_succ_eq_ok_iff :
    preorderWithin unfold endless (depth + 1) x = .ok l ↔
      ∃ parts, unfold x = .ok parts ∧ ∃ below : List (List α),
        parts.map (preorderWithin unfold endless depth) = below.map .ok ∧
          l = x :: below.flatten := by
  simp only [preorderWithin_succ, bind_eq_ok_iff, mapM_eq_ok_iff]
  refine exists_congr fun parts => and_congr_right fun _ => exists_congr fun below => ?_
  exact and_congr_right fun _ => ⟨fun h => (Except.ok.inj h).symm, fun h => h ▸ rfl⟩

theorem mem_of_preorderWithin (h : UnfoldsOn unfold D R) (hx : D x)
    (hl : preorderWithin unfold endless depth x = .ok l) : y ∈ l ↔ ReflTransGen R x y := by
  induction depth generalizing x l with
  | zero => cases hl
  | succ depth ih =>
      obtain ⟨parts, hparts, below, hbelow, rfl⟩ := preorderWithin_succ_eq_ok_iff.1 hl
      obtain ⟨hleft, hright⟩ := exists_of_map_eq_map_ok hbelow
      rw [List.mem_cons, List.mem_flatten, ReflTransGen.cases_head_iff, eq_comm]
      refine or_congr_right ⟨?_, ?_⟩
      · rintro ⟨m, hm, hy⟩
        obtain ⟨z, hz, hzm⟩ := hright m hm
        have hxz := (h.mem_iff hx hparts).1 hz
        exact ⟨z, hxz, (ih (h.closed hx hxz) hzm).1 hy⟩
      · rintro ⟨z, hxz, hy⟩
        obtain ⟨m, hm, hzm⟩ := hleft z ((h.mem_iff hx hparts).2 hxz)
        exact ⟨m, hm, (ih (h.closed hx hxz) hzm).2 hy⟩

theorem transGen_of_mem_flatten (h : UnfoldsOn unfold D R) (hx : D x) {parts : List α}
    {below : List (List α)} (hparts : unfold x = .ok parts)
    (hbelow : parts.map (preorderWithin unfold endless depth) = below.map .ok)
    (hy : y ∈ below.flatten) : TransGen R x y := by
  obtain ⟨m, hm, hym⟩ := List.mem_flatten.1 hy
  obtain ⟨z, hz, hzm⟩ := (exists_of_map_eq_map_ok hbelow).2 m hm
  have hxz := (h.mem_iff hx hparts).1 hz
  exact .head' hxz ((mem_of_preorderWithin h (h.closed hx hxz) hzm).1 hym)

theorem preorderWithin_mono {depth' : Nat} (hle : depth ≤ depth')
    (hl : preorderWithin unfold endless depth x = .ok l) :
    preorderWithin unfold endless depth' x = .ok l := by
  induction depth generalizing depth' x l with
  | zero => cases hl
  | succ depth ih =>
      obtain ⟨depth', rfl⟩ : ∃ n, depth' = n + 1 := ⟨depth' - 1, by omega⟩
      obtain ⟨parts, hparts, below, hbelow, rfl⟩ := preorderWithin_succ_eq_ok_iff.1 hl
      refine preorderWithin_succ_eq_ok_iff.2 ⟨parts, hparts, below, ?_, rfl⟩
      rw [← hbelow]
      refine List.map_congr_left fun y hy => ?_
      obtain ⟨m, -, hm⟩ := (exists_of_map_eq_map_ok hbelow).1 y hy
      rw [hm, ih (by omega) hm]

theorem eq_of_preorderWithin {depth' : Nat} {l' : List α}
    (hl : preorderWithin unfold endless depth x = .ok l)
    (hl' : preorderWithin unfold endless depth' x = .ok l') : l = l' := by
  rcases Nat.le_total depth depth' with hle | hle
  · exact Except.ok.inj ((preorderWithin_mono hle hl).symm.trans hl')
  · exact Except.ok.inj (hl.symm.trans (preorderWithin_mono hle hl'))

/-- Of the items with `D`, `unfold` gives items of lower rank, which have `D` too. -/
structure Descends (unfold : α → Except ε (List α)) (D : α → Prop) (rank : α → Nat) : Prop where
  exists_parts : ∀ {x}, D x → ∃ parts, unfold x = .ok parts ∧ ∀ y ∈ parts, D y ∧ rank y < rank x

namespace Descends

variable {rank : α → Nat} (h : Descends unfold D rank)

include h

theorem of_mem (hx : D x) {parts : List α} (hparts : unfold x = .ok parts) (hy : y ∈ parts) :
    D y ∧ rank y < rank x := by
  obtain ⟨parts', hparts', hmem⟩ := h.exists_parts hx
  obtain rfl : parts = parts' := Except.ok.inj (hparts.symm.trans hparts')
  exact hmem y hy

/-- A listing needs no more levels than the rank of the first item, and one for the item. -/
theorem exists_preorderWithin (hx : D x) (hdepth : rank x < depth) :
    ∃ l, preorderWithin unfold endless depth x = .ok l := by
  induction depth generalizing x with
  | zero => omega
  | succ depth ih =>
      obtain ⟨parts, hparts, hmem⟩ := h.exists_parts hx
      have hbelow : ∀ y ∈ parts, ∃ m, preorderWithin unfold endless depth y = .ok m := by
        intro y hy
        obtain ⟨hyD, hlt⟩ := hmem y hy
        exact ih hyD (by omega)
      obtain ⟨below, hbelow⟩ := exists_map_eq_map_ok hbelow
      exact ⟨_, preorderWithin_succ_eq_ok_iff.2 ⟨parts, hparts, below, hbelow, rfl⟩⟩

theorem preorderWithin_eq {depth' : Nat} (hx : D x) (hdepth : rank x < depth)
    (hdepth' : rank x < depth') :
    preorderWithin unfold endless depth x = preorderWithin unfold endless depth' x := by
  obtain ⟨l, hl⟩ : ∃ l, preorderWithin unfold endless (rank x + 1) x = .ok l :=
    h.exists_preorderWithin hx (Nat.lt_succ_self _)
  rw [preorderWithin_mono hdepth hl, preorderWithin_mono hdepth' hl]

theorem preorderWithin_eq_cons (hx : D x) (hdepth : rank x < depth) {parts : List α}
    {below : List (List α)} (hparts : unfold x = .ok parts)
    (hbelow : parts.map (preorderWithin unfold endless depth) = below.map .ok) :
    preorderWithin unfold endless depth x = .ok (x :: below.flatten) := by
  obtain ⟨depth, rfl⟩ : ∃ n, depth = n + 1 := ⟨depth - 1, by omega⟩
  refine preorderWithin_succ_eq_ok_iff.2 ⟨parts, hparts, below, ?_, rfl⟩
  rw [← hbelow]
  refine List.map_congr_left fun y hy => ?_
  obtain ⟨hyD, hlt⟩ := h.of_mem hx hparts hy
  exact h.preorderWithin_eq hyD (by omega) (by omega)

end Descends

theorem nodup_of_preorderWithin (h : UnfoldsOn unfold D R) (hforest : Forest R)
    (hparts : ∀ {x parts}, D x → unfold x = .ok parts → parts.Nodup) (hx : D x)
    (hl : preorderWithin unfold endless depth x = .ok l) : l.Nodup := by
  induction depth generalizing x l with
  | zero => cases hl
  | succ depth ih =>
      obtain ⟨parts, hunfold, below, hbelow, rfl⟩ := preorderWithin_succ_eq_ok_iff.1 hl
      obtain ⟨-, hright⟩ := exists_of_map_eq_map_ok hbelow
      have hR {y : α} (hy : y ∈ parts) : R x y := (h.mem_iff hx hunfold).1 hy
      have hlist {y m} (hy : y ∈ parts)
          (hm : preorderWithin unfold endless depth y = .ok m) {z : α} :
          z ∈ m ↔ ReflTransGen R y z :=
        mem_of_preorderWithin h (h.closed hx (hR hy)) hm
      -- the item is not below itself, and its parts have nothing below them in common
      refine List.nodup_cons.2 ⟨fun hxmem => ?_, List.nodup_flatten.2 ⟨fun m hm => ?_, ?_⟩⟩
      · exact hforest.acyclic x (transGen_of_mem_flatten h hx hunfold hbelow hxmem)
      · obtain ⟨y, hy, hym⟩ := hright m hm
        exact ih (h.closed hx (hR hy)) hym
      · refine pairwise_of_map_eq_map_ok hbelow ((hparts hx hunfold).imp_of_mem ?_)
        intro y y' hy hy' hne m m' hm hm' z hz hz'
        exact hforest.disjoint_of_ne (hR hy) (hR hy') hne ((hlist hy hm).1 hz)
          ((hlist hy' hm').1 hz')

/-- A listing read through `f` is the listing that starts from the image, if unfolding
goes through `f`. -/
theorem map_preorderWithin {f : α → β} {unfold' : β → Except ε (List β)} {endless' : β → ε}
    (hunfold : ∀ x, unfold' (f x) = (unfold x).map (List.map f))
    (hendless : ∀ x, endless' (f x) = endless x) (x : α) :
    preorderWithin unfold' endless' depth (f x) =
      (preorderWithin unfold endless depth x).map (List.map f) := by
  induction depth generalizing x with
  | zero => exact congrArg Except.error (hendless x)
  | succ depth ih =>
      rw [preorderWithin_succ, preorderWithin_succ, hunfold]
      cases unfold x with
      | error e => rfl
      | ok parts =>
          have hparts : (parts.map f).mapM (preorderWithin unfold' endless' depth) =
              (parts.mapM (preorderWithin unfold endless depth)).map
                (List.map (List.map f)) := by
            induction parts with
            | nil => rfl
            | cons y parts ihparts =>
                rw [List.map_cons, List.mapM_cons, List.mapM_cons, ih, ihparts]
                cases preorderWithin unfold endless depth y with
                | error e => rfl
                | ok m =>
                    cases parts.mapM (preorderWithin unfold endless depth) with
                    | error e => rfl
                    | ok below => rfl
          simp only [Except.map, bind, Except.bind, hparts]
          cases parts.mapM (preorderWithin unfold endless depth) with
          | error e => rfl
          | ok below => simp [pure, Except.pure, List.map_flatten]

section Order

open scoped List

theorem pair_sublist_append {s t : List α} (hx : x ∈ s) (hy : y ∈ t) : [x, y] <+ s ++ t :=
  (List.singleton_sublist.2 hx).append (List.singleton_sublist.2 hy)

theorem pair_sublist_flatten {L : List (List α)} {s t : List α} (hst : [s, t] <+ L) (hx : x ∈ s)
    (hy : y ∈ t) : [x, y] <+ L.flatten := by
  have hflatten := hst.flatten
  rw [List.flatten_cons, List.flatten_cons, List.flatten_nil, List.append_nil] at hflatten
  exact (pair_sublist_append hx hy).trans hflatten

theorem pair_sublist_filter {keep : α → Bool} (h : [x, y] <+ l) (hx : x ∈ l.filter keep)
    (hy : y ∈ l.filter keep) : [x, y] <+ l.filter keep := by
  have hpair := h.filter keep
  rwa [List.filter_cons_of_pos (List.mem_filter.1 hx).2,
    List.filter_cons_of_pos (List.mem_filter.1 hy).2, List.filter_nil] at hpair

/-- The listing of what is reached is one piece of the listing. -/
theorem exists_preorderWithin_infix (h : UnfoldsOn unfold D R) (hx : D x)
    (hl : preorderWithin unfold endless depth x = .ok l) (hxy : ReflTransGen R x y) :
    ∃ depth' m, preorderWithin unfold endless depth' y = .ok m ∧ m <:+: l := by
  induction depth generalizing x l with
  | zero => cases hl
  | succ depth ih =>
      rcases hxy.cases_head with rfl | ⟨z, hxz, hzy⟩
      · exact ⟨depth + 1, l, hl, List.infix_rfl⟩
      · obtain ⟨parts, hparts, below, hbelow, rfl⟩ := preorderWithin_succ_eq_ok_iff.1 hl
        have hz := (h.mem_iff hx hparts).2 hxz
        obtain ⟨k, hk, hzk⟩ := (exists_of_map_eq_map_ok hbelow).1 z hz
        obtain ⟨depth', m, hm, hmk⟩ := ih (h.closed hx hxz) hzk hzy
        exact ⟨depth', m, hm, List.infix_cons (hmk.trans (List.infix_of_mem_flatten hk))⟩

theorem UnfoldsOn.of_reach (h : UnfoldsOn unfold D R) (hx : D x) (hxy : ReflTransGen R x y) :
    D y := by
  induction hxy with
  | refl => exact hx
  | tail _ hyz ih => exact h.closed ih hyz

theorem pair_sublist_of_above (h : UnfoldsOn unfold D R) (hacyclic : ∀ x, ¬ TransGen R x x)
    (hx : D x) (hl : preorderWithin unfold endless depth x = .ok l) {u v : α}
    (hxu : ReflTransGen R x u) (huv : TransGen R u v) : [u, v] <+ l := by
  obtain ⟨depth', m, hm, hpiece⟩ := exists_preorderWithin_infix h hx hl hxu
  have hml := hpiece.sublist
  have hv := (mem_of_preorderWithin h (h.of_reach hx hxu) hm).2 huv.to_reflTransGen
  cases depth' with
  | zero => cases hm
  | succ depth' =>
      obtain ⟨parts, -, below, -, rfl⟩ := preorderWithin_succ_eq_ok_iff.1 hm
      rcases List.mem_cons.1 hv with rfl | hv
      · exact absurd huv (hacyclic v)
      · exact ((List.singleton_sublist.2 hv).cons_cons u).trans hml

/-- Everything at and below a part stands before everything at and below a later part. -/
theorem pair_sublist_of_parts (h : UnfoldsOn unfold D R) (hx : D x)
    (hl : preorderWithin unfold endless depth x = .ok l) {p c d u v : α} {parts : List α}
    (hxp : ReflTransGen R x p) (hparts : unfold p = .ok parts) (hcd : [c, d] <+ parts)
    (hcu : ReflTransGen R c u) (hdv : ReflTransGen R d v) : [u, v] <+ l := by
  obtain ⟨depth', m, hm, hpiece⟩ := exists_preorderWithin_infix h hx hl hxp
  have hml := hpiece.sublist
  have hp := h.of_reach hx hxp
  cases depth' with
  | zero => cases hm
  | succ depth' =>
      obtain ⟨parts', hparts', below, hbelow, rfl⟩ := preorderWithin_succ_eq_ok_iff.1 hm
      obtain rfl : parts = parts' := Except.ok.inj (hparts.symm.trans hparts')
      obtain ⟨s, t, hs, ht, hst⟩ := exists_pair_of_map_eq_map_ok hbelow hcd
      have hc : c ∈ parts := hcd.subset List.mem_cons_self
      have hd : d ∈ parts := hcd.subset (List.mem_cons_of_mem c List.mem_cons_self)
      have hcD := h.closed hp ((h.mem_iff hp hparts).1 hc)
      have hdD := h.closed hp ((h.mem_iff hp hparts).1 hd)
      have hu := (mem_of_preorderWithin h hcD hs).2 hcu
      have hv := (mem_of_preorderWithin h hdD ht).2 hdv
      exact ((pair_sublist_flatten hst hu hv).cons p).trans hml

end Order

section Stop

variable {stop keep : α → Bool}

def unfoldUnless (stop : α → Bool) (unfold : α → Except ε (List α)) (x : α) :
    Except ε (List α) :=
  if stop x then .ok [] else unfold x

theorem UnfoldsOn.unfoldUnless (h : UnfoldsOn unfold D R) (stop : α → Bool) :
    UnfoldsOn (unfoldUnless stop unfold) D fun x y => R x y ∧ stop x = false where
  exists_parts {x} hx := by
    obtain ⟨parts, hparts, hmem⟩ := h.exists_parts hx
    cases hstop : stop x with
    | true => exact ⟨[], by simp [TypedTree.unfoldUnless, hstop], by simp⟩
    | false => exact ⟨parts, by simp [TypedTree.unfoldUnless, hstop, hparts], by simp [hmem]⟩
  closed hx hxy := h.closed hx hxy.1

/-- On the way from `x` down to `z`, `stop` holds of nothing but perhaps of `z`. -/
def Unstopped (R : α → α → Prop) (stop : α → Bool) (x z : α) : Prop :=
  ∀ q, ReflTransGen R x q → TransGen R q z → stop q = false

theorem unstopped_self (hacyclic : ∀ x, ¬ TransGen R x x) : Unstopped R stop x x :=
  fun _ hxq hqx => absurd (hqx.trans_left hxq) (hacyclic _)

theorem not_unstopped_of_stop (hstop : stop x = true) {z : α} (hxz : TransGen R x z) :
    ¬ Unstopped R stop x z := by
  intro h
  have hfalse := h x .refl hxz
  rw [hstop] at hfalse
  cases hfalse

/-- What stops on the way from an item is the item or stops on the way from its part. -/
theorem unstopped_iff_of_part (hforest : Forest R) (hxy : R x y) (hstop : stop x = false) {z : α}
    (hyz : ReflTransGen R y z) : Unstopped R stop x z ↔ Unstopped R stop y z := by
  constructor
  · exact fun h q hyq hqz => h q (.head hxy hyq) hqz
  · intro h q hxq hqz
    rcases hxq.cases_head with rfl | ⟨y', hxy', hy'q⟩
    · exact hstop
    · have heq : y' = y := by
        by_contra hne
        exact hforest.disjoint_of_ne hxy' hxy hne (hy'q.trans hqz.to_reflTransGen) hyz
      exact h q (heq ▸ hy'q) hqz

/-- A listing that unfolds some items no further is the full listing without what is below
them. -/
theorem preorderWithin_unfoldUnless (h : UnfoldsOn unfold D R) (hforest : Forest R) (hx : D x)
    (hkeep : ∀ z, ReflTransGen R x z → (keep z = true ↔ Unstopped R stop x z))
    (hl : preorderWithin unfold endless depth x = .ok l) :
    preorderWithin (unfoldUnless stop unfold) endless depth x = .ok (l.filter keep) := by
  induction depth generalizing x l with
  | zero => cases hl
  | succ depth ih =>
      obtain ⟨parts, hunfold, below, hbelow, rfl⟩ := preorderWithin_succ_eq_ok_iff.1 hl
      have hself : keep x = true := (hkeep x .refl).2 (unstopped_self hforest.acyclic)
      rw [List.filter_cons_of_pos hself]
      refine preorderWithin_succ_eq_ok_iff.2 ?_
      cases hstop : stop x with
      | true =>
          have hnone : below.flatten.filter keep = [] := by
            refine List.filter_eq_nil_iff.2 fun z hz hkz => ?_
            have hxz := transGen_of_mem_flatten h hx hunfold hbelow hz
            exact not_unstopped_of_stop hstop hxz ((hkeep z hxz.to_reflTransGen).1 hkz)
          exact ⟨[], by rw [unfoldUnless, if_pos hstop], [], rfl, by rw [hnone]; rfl⟩
      | false =>
          have hunstopped : unfoldUnless stop unfold x = .ok parts := by
            rw [unfoldUnless, hstop, if_neg Bool.false_ne_true, hunfold]
          have hpart : ∀ y ∈ parts, preorderWithin (unfoldUnless stop unfold) endless depth y =
              (preorderWithin unfold endless depth y).map (List.filter keep) := by
            intro y hy
            have hxy := (h.mem_iff hx hunfold).1 hy
            obtain ⟨m, -, hm⟩ := (exists_of_map_eq_map_ok hbelow).1 y hy
            rw [hm, ih (h.closed hx hxy) (fun z hyz => ?_) hm]
            · rfl
            · exact (hkeep z (.head hxy hyz)).trans
                (unstopped_iff_of_part hforest hxy hstop hyz)
          refine ⟨parts, hunstopped, below.map (List.filter keep), ?_, by rw [List.filter_flatten]⟩
          rw [List.map_congr_left hpart]
          exact map_of_map_eq_map_ok hbelow _

end Stop

end TypedTree
