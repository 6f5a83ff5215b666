import Mathlib.Data.List.Basic
import Mathlib.Data.List.Perm.Basic
import Mathlib.Logic.Relation

/-! # Merging runs

A merge sort from the bottom up: passes over the list, each of which merges its runs two by two.
It arranges a list for any relation, and sorts it, ties in their old order, for a total preorder. -/

namespace MergeRuns

variable {α : Type*} {le : α → α → Bool} {w : ℕ} {l m xs ys : List α}

/-- `le` orders the elements of `l`. -/
structure PreorderOn (le : α → α → Bool) (l : List α) : Prop where
  total : ∀ a ∈ l, ∀ b ∈ l, le a b = true ∨ le b a = true
  trans : ∀ a ∈ l, ∀ b ∈ l, ∀ c ∈ l, le a b = true → le b c = true → le a c = true

theorem PreorderOn.mono (h : PreorderOn le l) (hml : m ⊆ l) : PreorderOn le m :=
  ⟨fun a ha b hb => h.total a (hml ha) b (hml hb),
    fun a ha b hb c hc => h.trans a (hml ha) b (hml hb) c (hml hc)⟩

/-- Neither goes before the other. -/
def ties (le : α → α → Bool) (a b : α) : Bool := le a b && le b a

/-- `out` is `l` in ascending order, with what ties in the order of `l`. -/
structure StableSort (le : α → α → Bool) (l out : List α) : Prop where
  perm : out.Perm l
  ascending : out.Pairwise fun a b => le a b = true
  stable : ∀ a ∈ l, out.filter (ties le a) = l.filter (ties le a)

section Congr

variable {le' : α → α → Bool} {out : List α}

theorem PreorderOn.congr (h : PreorderOn le l) (hle : ∀ a ∈ l, ∀ b ∈ l, le a b = le' a b) :
    PreorderOn le' l where
  total a ha b hb := by
    rw [← hle a ha b hb, ← hle b hb a ha]
    exact h.total a ha b hb
  trans a ha b hb c hc := by
    rw [← hle a ha b hb, ← hle b hb c hc, ← hle a ha c hc]
    exact h.trans a ha b hb c hc

/-- Only the order of the list's elements matters. -/
theorem StableSort.congr (h : StableSort le l out) (hle : ∀ a ∈ l, ∀ b ∈ l, le a b = le' a b) :
    StableSort le' l out where
  perm := h.perm
  ascending := h.ascending.imp_of_mem fun {a b} ha hb hab => by
    rw [← hle a (h.perm.mem_iff.mp ha) b (h.perm.mem_iff.mp hb)]
    exact hab
  stable a ha := by
    have hties : ∀ b ∈ l, ties le a b = ties le' a b := fun b hb => by
      rw [ties, ties, hle a ha b hb, hle b hb a ha]
    rw [← List.filter_congr hties, ← h.stable a ha]
    exact List.filter_congr fun b hb => (hties b (h.perm.mem_iff.mp hb)).symm

end Congr

/-- A list of fewer than two elements is sorted. -/
theorem stableSort_short (hl : l.length < 2) : StableSort le l l := by
  refine ⟨.refl l, ?_, fun _ _ => rfl⟩
  match l, hl with
  | [], _ => exact .nil
  | [a], _ => exact List.pairwise_singleton _ a

/-! ## One merge -/

theorem merge_pairwise (h : PreorderOn le l) (hxl : xs ⊆ l) (hyl : ys ⊆ l)
    (hx : xs.Pairwise fun a b => le a b = true) (hy : ys.Pairwise fun a b => le a b = true) :
    (xs.merge ys le).Pairwise fun a b => le a b = true := by
  induction xs generalizing ys with
  | nil => simpa using hy
  | cons x xs ihx =>
      induction ys with
      | nil => simpa using hx
      | cons y ys ihy =>
          have hxmem := hxl List.mem_cons_self
          have hymem := hyl List.mem_cons_self
          rw [List.cons_merge_cons]
          split
          · rename_i hxy
            refine (ihx (fun a ha => hxl (List.mem_cons_of_mem x ha)) hyl hx.tail hy).cons fun a ha => ?_
            rcases List.mem_merge.mp ha with ha | ha
            · exact List.rel_of_pairwise_cons hx ha
            · rcases List.mem_cons.mp ha with rfl | hay
              · exact hxy
              · exact h.trans x hxmem y hymem a (hyl ha) hxy (List.rel_of_pairwise_cons hy hay)
          · rename_i hxy
            have hyx := (h.total x hxmem y hymem).resolve_left hxy
            refine (ihy (fun a ha => hyl (List.mem_cons_of_mem y ha)) hy.tail).cons fun a ha => ?_
            rcases List.mem_merge.mp ha with ha | ha
            · rcases List.mem_cons.mp ha with rfl | hax
              · exact hyx
              · exact h.trans y hymem x hxmem a (hxl ha) hyx (List.rel_of_pairwise_cons hx hax)
            · exact List.rel_of_pairwise_cons hy ha

/-- What ties with one element comes out of a merge in order, the left run's first. -/
theorem merge_filter (h : PreorderOn le l) (hxl : xs ⊆ l) (hyl : ys ⊆ l)
    (hx : xs.Pairwise fun a b => le a b = true) {k : α} (hk : k ∈ l) :
    (xs.merge ys le).filter (ties le k) = xs.filter (ties le k) ++ ys.filter (ties le k) := by
  induction xs generalizing ys with
  | nil => simp
  | cons x xs ihx =>
      induction ys with
      | nil => simp
      | cons y ys ihy =>
          have hxmem := hxl List.mem_cons_self
          have hymem := hyl List.mem_cons_self
          rw [List.cons_merge_cons]
          split
          · rw [List.filter_cons, ihx (fun a ha => hxl (List.mem_cons_of_mem x ha)) hyl hx.tail,
              List.filter_cons (x := x)]
            split <;> rfl
          · rename_i hxy
            rw [List.filter_cons, ihy fun a ha => hyl (List.mem_cons_of_mem y ha), List.filter_cons (x := y)]
            split
            · -- nothing of the left run ties with an element that the right run gives first
              rename_i hyk
              have hnone : (x :: xs).filter (ties le k) = [] := by
                rw [List.filter_eq_nil_iff]
                intro a ha hak
                simp only [ties, Bool.and_eq_true] at hak hyk
                have hay := h.trans a (hxl ha) k hk y hymem hak.2 hyk.1
                rcases List.mem_cons.mp ha with rfl | hax
                · exact hxy hay
                · exact hxy (h.trans x hxmem a (hxl ha) y hymem (List.rel_of_pairwise_cons hx hax) hay)
              rw [hnone]
              rfl
            · rfl

/-! ## A pass -/

/-- The runs of `w` elements merged two by two. -/
def pass (le : α → α → Bool) (w : ℕ) (l : List α) : List α :=
  if _h : 0 < w ∧ l ≠ [] then
    (l.take w).merge ((l.drop w).take w) le ++ pass le w (l.drop (2 * w))
  else l
  termination_by l.length
  decreasing_by
    have := List.length_pos_of_ne_nil _h.2
    rw [List.length_drop]
    omega

@[simp] theorem pass_nil : pass le w ([] : List α) = [] := by
  rw [pass, dif_neg (by simp)]

theorem pass_of_ne_nil (hw : 0 < w) (hl : l ≠ []) :
    pass le w l = (l.take w).merge ((l.drop w).take w) le ++ pass le w (l.drop (2 * w)) := by
  rw [pass, dif_pos ⟨hw, hl⟩]

/-- The first two runs and what follows them. -/
theorem take_append_take (w : ℕ) (l : List α) :
    l.take w ++ ((l.drop w).take w ++ l.drop (2 * w)) = l := by
  rw [Nat.two_mul, ← List.drop_drop, List.take_append_drop, List.take_append_drop]

theorem pass_perm (le : α → α → Bool) (w : ℕ) (l : List α) : (pass le w l).Perm l := by
  induction l using pass.induct w with
  | case1 l h ih =>
      rw [pass_of_ne_nil h.1 h.2]
      refine (List.Perm.append (List.merge_perm_append ..) ih).trans ?_
      rw [List.append_assoc, take_append_take]
  | case2 l h => rw [pass, dif_neg h]

@[simp] theorem length_pass (le : α → α → Bool) (w : ℕ) (l : List α) : (pass le w l).length = l.length :=
  (pass_perm le w l).length_eq

/-- Every run of `w` elements is in order. -/
def Ascending (le : α → α → Bool) (w : ℕ) (l : List α) : Prop :=
  ∀ i, ((l.drop (w * i)).take w).Pairwise fun a b => le a b = true

theorem ascending_one (le : α → α → Bool) (l : List α) : Ascending le 1 l := by
  intro i
  rw [Nat.one_mul]
  cases l.drop i with
  | nil => exact .nil
  | cons a l => exact List.pairwise_singleton _ a

theorem Ascending.pairwise (h : Ascending le w l) (hl : l.length ≤ w) :
    l.Pairwise fun a b => le a b = true := by
  have h0 := h 0
  rwa [Nat.mul_zero, List.drop_zero, List.take_of_length_le hl] at h0

theorem Ascending.drop_two (h : Ascending le w l) : Ascending le w (l.drop (2 * w)) := by
  intro i
  have hi := h (i + 2)
  rwa [Nat.mul_add, Nat.mul_comm w 2, Nat.add_comm, ← List.drop_drop] at hi

theorem Ascending.second (h : Ascending le w l) :
    ((l.drop w).take w).Pairwise fun a b => le a b = true := by
  have h1 := h 1
  rwa [Nat.mul_one] at h1

theorem Ascending.first (h : Ascending le w l) : (l.take w).Pairwise fun a b => le a b = true := by
  have h0 := h 0
  rwa [Nat.mul_zero, List.drop_zero] at h0

theorem ascending_append {xs ys : List α} (hx : xs.Pairwise fun a b => le a b = true)
    (hlen : xs.length = w ∨ xs.length ≤ w ∧ ys = []) (hy : Ascending le w ys) :
    Ascending le w (xs ++ ys) := by
  intro i
  rcases hlen with hlen | ⟨hlen, rfl⟩
  · cases i with
    | zero =>
        rw [Nat.mul_zero, List.drop_zero, List.take_left' hlen]
        exact hx
    | succ i =>
        rw [Nat.mul_succ, Nat.add_comm, ← List.drop_drop, List.drop_left' hlen]
        exact hy i
  · rw [List.append_nil]
    exact (hx.drop).take

/-- A pass doubles the runs. -/
theorem pass_ascending (h : PreorderOn le m) (hml : l ⊆ m) (ha : Ascending le w l) :
    Ascending le (2 * w) (pass le w l) := by
  induction l using pass.induct w with
  | case1 l hpos ih =>
      rw [pass_of_ne_nil hpos.1 hpos.2]
      have hrest : l.drop (2 * w) ⊆ m := fun a hax => hml (List.mem_of_mem_drop hax)
      refine ascending_append (merge_pairwise h (fun a hax => hml (List.mem_of_mem_take hax))
        (fun a hax => hml (List.mem_of_mem_drop (List.mem_of_mem_take hax))) ha.first ha.second) ?_
        (ih hrest ha.drop_two)
      rw [List.length_merge, List.length_take, List.length_take, List.length_drop]
      by_cases hlen : 2 * w ≤ l.length
      · left
        omega
      · right
        rw [List.drop_of_length_le (by omega), pass_nil]
        exact ⟨by omega, rfl⟩
  | case2 l hpos =>
      rw [pass, dif_neg hpos]
      rcases Nat.eq_zero_or_pos w with rfl | hw
      · simpa using ha
      · have hnil : l = [] := by
          by_contra hne
          exact hpos ⟨hw, hne⟩
        subst hnil
        intro i
        simp

theorem pass_filter (h : PreorderOn le m) (hml : l ⊆ m) (ha : Ascending le w l) {k : α} (hk : k ∈ m) :
    (pass le w l).filter (ties le k) = l.filter (ties le k) := by
  induction l using pass.induct w with
  | case1 l hpos ih =>
      rw [pass_of_ne_nil hpos.1 hpos.2, List.filter_append,
        merge_filter h (fun a hax => hml (List.mem_of_mem_take hax))
          (fun a hax => hml (List.mem_of_mem_drop (List.mem_of_mem_take hax))) ha.first hk,
        ih (fun a hax => hml (List.mem_of_mem_drop hax)) ha.drop_two, List.append_assoc,
        ← List.filter_append, ← List.filter_append, take_append_take]
  | case2 l hpos => rw [pass, dif_neg hpos]

/-! ## The passes -/

/-- Passes over runs of `w`, `2 * w`, `4 * w` elements until one run is the list. -/
def sort (le : α → α → Bool) (w : ℕ) (l : List α) : List α :=
  if _h : 0 < w ∧ w < l.length then sort le (2 * w) (pass le w l) else l
  termination_by l.length - w
  decreasing_by
    rw [length_pass]
    omega

theorem sort_of_le (hw : l.length ≤ w) : sort le w l = l := by
  rw [sort, dif_neg (by omega)]

theorem sort_of_lt (h0 : 0 < w) (hw : w < l.length) : sort le w l = sort le (2 * w) (pass le w l) := by
  rw [sort, dif_pos ⟨h0, hw⟩]

theorem sort_stableSort (h : PreorderOn le m) (hml : l ⊆ m) (hw : 0 < w) (ha : Ascending le w l) :
    StableSort le l (sort le w l) := by
  induction w, l using sort.induct le with
  | case1 w l hlt ih =>
      have hsub : pass le w l ⊆ m := fun a hax => hml ((pass_perm le w l).mem_iff.mp hax)
      obtain ⟨hperm, hasc, hstable⟩ := ih hsub (by omega) (pass_ascending h hml ha)
      rw [sort_of_lt hlt.1 hlt.2]
      refine ⟨hperm.trans (pass_perm le w l), hasc, fun a hax => ?_⟩
      rw [hstable a ((pass_perm le w l).mem_iff.mpr hax), pass_filter h hml ha (hml hax)]
  | case2 w l hge =>
      have hlen : l.length ≤ w := by omega
      rw [sort_of_le hlen]
      exact ⟨.refl l, ha.pairwise hlen, fun _ _ => rfl⟩

/-- The whole sort. -/
theorem stableSort (h : PreorderOn le l) : StableSort le l (sort le 1 l) :=
  sort_stableSort h (fun _ ha => ha) Nat.one_pos (ascending_one le l)

/-! ## A merge sort compare by compare -/

/-- Where a pass is: the runs it laid out, what it has yet of the two it merges, and the rest. -/
structure Merging (α : Type*) where
  w : ℕ
  out : List α
  left : List α
  right : List α
  rest : List α

namespace Merging

/-- A pass over runs of `w` elements. -/
def start (w : ℕ) (l : List α) : Merging α := ⟨w, [], l.take w, (l.drop w).take w, l.drop (2 * w)⟩

/-- Every element. -/
def elems (t : Merging α) : List α := t.out ++ (t.left ++ (t.right ++ t.rest))

/-- What the sort comes to if `le` answers every compare. -/
def result (le : α → α → Bool) (t : Merging α) : List α :=
  sort le (2 * t.w) (t.out ++ (t.left.merge t.right le ++ pass le t.w t.rest))

/-- A run is used up, and the other follows it; then come the next two, or the next pass. -/
inductive Move : Merging α → Merging α → Prop
  | runs {t : Merging α} (h : t.left = [] ∨ t.right = []) (hrest : t.rest ≠ []) :
      Move t ⟨t.w, t.out ++ (t.left ++ t.right), t.rest.take t.w, (t.rest.drop t.w).take t.w,
        t.rest.drop (2 * t.w)⟩
  | pass {t : Merging α} (h : t.left = [] ∨ t.right = []) (hrest : t.rest = [])
      (hlen : 2 * t.w < t.elems.length) :
      Move t (start (2 * t.w) (t.out ++ (t.left ++ t.right)))

theorem merge_of_nil (h : xs = [] ∨ ys = []) : xs.merge ys le = xs ++ ys := by
  rcases h with rfl | rfl <;> simp

variable {t t' : Merging α}

theorem elems_start (w : ℕ) (l : List α) : (start w l).elems = l := take_append_take w l

theorem Move.elems (h : Move t t') : t'.elems = t.elems := by
  cases h with
  | runs _ _ =>
      simp only [Merging.elems, List.append_assoc]
      rw [take_append_take]
  | pass _ hrest _ =>
      rw [elems_start, Merging.elems, hrest, List.append_nil]

theorem result_start (hw : 0 < w) (hlen : w < l.length) : (start w l).result le = sort le w l := by
  have hne : l ≠ [] := List.ne_nil_of_length_pos (by omega)
  rw [sort_of_lt hw hlen, pass_of_ne_nil hw hne]
  rfl

theorem Move.result (hw : 0 < t.w) (h : Move t t') : t'.result le = t.result le := by
  cases h with
  | runs hnil hrest =>
      rw [Merging.result, Merging.result, pass_of_ne_nil hw hrest, merge_of_nil hnil]
      simp only [List.append_assoc]
  | pass hnil hrest hlen =>
      have hout : t.elems = t.out ++ (t.left ++ t.right) := by
        rw [Merging.elems, hrest, List.append_nil]
      rw [← hout, result_start (by omega) hlen, Merging.result, merge_of_nil hnil, hrest, pass_nil,
        List.append_nil, hout]

/-- Moves from one merging to another. -/
abbrev Moves : Merging α → Merging α → Prop := Relation.ReflTransGen Move

theorem Moves.keep (h : Moves t t') (hw : 0 < t.w) :
    0 < t'.w ∧ t'.elems = t.elems ∧ ∀ le, t'.result le = t.result le := by
  induction h with
  | refl => exact ⟨hw, rfl, fun _ => rfl⟩
  | tail _ hmove ih =>
      obtain ⟨hw', helems, hresult⟩ := ih
      refine ⟨?_, hmove.elems.trans helems, fun le => (hmove.result hw').trans (hresult le)⟩
      cases hmove with
      | runs _ _ => exact hw'
      | pass _ _ _ => exact Nat.mul_pos Nat.two_pos hw'

/-- The last two runs are laid out, and one run is the list. -/
structure Ended (t : Merging α) : Prop where
  used : t.left = [] ∨ t.right = []
  rest : t.rest = []
  width : t.elems.length ≤ 2 * t.w

theorem Ended.result (h : Ended t) (le : α → α → Bool) : t.result le = t.elems := by
  have helems : t.elems = t.out ++ (t.left ++ t.right) := by rw [elems, h.rest, List.append_nil]
  rw [Merging.result, merge_of_nil h.used, h.rest, pass_nil, List.append_nil, ← helems, sort_of_le h.width]

/-- A compare answered. -/
def answer (t : Merging α) (left : Bool) : Merging α :=
  if left then { t with out := t.out ++ t.left.take 1, left := t.left.tail }
  else { t with out := t.out ++ t.right.take 1, right := t.right.tail }

theorem answer_perm (t : Merging α) (left : Bool) : (t.answer left).elems.Perm t.elems := by
  obtain ⟨w, out, xs, ys, rest⟩ := t
  cases left with
  | true =>
      cases xs with
      | nil => simp [answer, elems]
      | cons x xs => simp [answer, elems]
  | false =>
      cases ys with
      | nil => simp [answer, elems]
      | cons y ys =>
          simp only [answer, elems, Bool.false_eq_true, if_false, List.take_succ_cons, List.take_zero,
            List.tail_cons, List.append_assoc, List.singleton_append]
          exact (List.perm_middle.symm).append_left out

theorem answer_result {x y : α} {xs ys : List α} (hx : t.left = x :: xs) (hy : t.right = y :: ys) :
    (t.answer (le x y)).result le = t.result le := by
  obtain ⟨w, out, left, right, rest⟩ := t
  subst hx hy
  simp only [result, answer, List.cons_merge_cons]
  cases hle : le x y <;> simp

end Merging

end MergeRuns
