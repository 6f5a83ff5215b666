import Mathlib.Order.Bounds.Basic
import Mathlib.Data.Int.Order.Basic
import Mathlib.Data.Int.Init
import Mathlib.Data.List.Forall2

/-! # Edit graphs

The paths that turn one list into another: a step right takes an element away, a step down puts one in,
and a diagonal keeps a pair that matches. Steps right and down go on past the ends of the lists. The
points that paths of a number of edits reach are found from the furthest of them on each diagonal. -/

namespace EditGraph

variable {m : ℤ → ℤ → Prop} {d : ℕ} {k x y z : ℤ}

/-- `d` edits lead to a point. -/
inductive Reach (m : ℤ → ℤ → Prop) : ℕ → ℤ → ℤ → Prop
  | origin : Reach m 0 0 0
  | right {d : ℕ} {x y : ℤ} : Reach m d x y → Reach m (d + 1) (x + 1) y
  | down {d : ℕ} {x y : ℤ} : Reach m d x y → Reach m (d + 1) x (y + 1)
  | diag {d : ℕ} {x y : ℤ} : m x y → Reach m d x y → Reach m d (x + 1) (y + 1)

/-- From one point of the diagonal `k` on to another, matches only. -/
def Snake (m : ℤ → ℤ → Prop) (k x z : ℤ) : Prop := x ≤ z ∧ ∀ i, x ≤ i → i < z → m i (i - k)

/-- Where a snake must end. -/
def Stops (m : ℤ → ℤ → Prop) (k x z : ℤ) : Prop := Snake m k x z ∧ ¬m z (z - k)

/-- The furthest point on the diagonal `k` that `d` edits lead to. -/
def Furthest (m : ℤ → ℤ → Prop) (d : ℕ) (k x : ℤ) : Prop := IsGreatest {x | Reach m d x (x - k)} x

namespace Reach

theorem bounds (h : Reach m d x y) : 0 ≤ x ∧ 0 ≤ y ∧ x - y ≤ d ∧ y - x ≤ d ∧ 2 ∣ x - y - d := by
  induction h with
  | origin => simp
  | right _ ih => omega
  | down _ ih => omega
  | diag _ _ ih => omega

theorem snake (h : Reach m d x (x - k)) (hs : Snake m k x z) : Reach m d z (z - k) := by
  obtain ⟨hle, hm⟩ := hs
  induction z, hle using Int.leInduction with
  | base => exact h
  | succ z hz ih =>
      have hd := (ih fun i hi hlt => hm i hi (by omega)).diag (hm z hz (by omega))
      rwa [show z + 1 - k = z - k + 1 by omega]

/-- A path's last edit, and the snake behind it. -/
theorem last_edit (h : Reach m (d + 1) x y) : ∃ z, Snake m (x - y) z x ∧
    (Reach m d (z - 1) (z - (x - y)) ∨ Reach m d z (z - (x - y) - 1)) := by
  generalize hn : d + 1 = n at h
  induction h with
  | origin => omega
  | @right d' x y h _ =>
      obtain rfl : d = d' := by omega
      refine ⟨x + 1, ⟨le_rfl, by omega⟩, .inl ?_⟩
      rwa [show x + 1 - 1 = x by omega, show x + 1 - (x + 1 - y) = y by omega]
  | @down d' x y h _ =>
      obtain rfl : d = d' := by omega
      refine ⟨x, ⟨le_rfl, by omega⟩, .inr ?_⟩
      rwa [show x - (x - (y + 1)) - 1 = y by omega]
  | @diag d' x y hm _ ih =>
      obtain ⟨z, ⟨hle, hz⟩, hd⟩ := ih hn
      rw [show x + 1 - (y + 1) = x - y by omega]
      refine ⟨z, ⟨by omega, fun i hi hlt => ?_⟩, hd⟩
      by_cases hx : i = x
      · rwa [hx, show x - (x - y) = y by omega]
      · exact hz i hi (by omega)

/-- All taken away, then all put in. -/
theorem all (x y : ℕ) : Reach m (x + y) x y := by
  induction y with
  | zero =>
      induction x with
      | zero => exact .origin
      | succ x ih =>
          have := ih.right
          push_cast at this ⊢
          rwa [show x + 1 + 0 = x + 0 + 1 by omega]
  | succ y ih =>
      have := ih.down
      push_cast
      exact this

end Reach

theorem Stops.slide {x' : ℤ} (h : Stops m k x' z) (hle : x ≤ x') {w : ℤ} (hs : Snake m k x w) : w ≤ z := by
  by_contra hlt
  exact h.2 (hs.2 z (hle.trans h.1.1) (by omega))

/-- The furthest point of no edits. -/
theorem furthest_zero (h : Stops m 0 0 z) : Furthest m 0 0 z := by
  constructor
  · have h0 : Reach m 0 0 (0 - 0) := .origin
    exact h0.snake h.1
  · intro x hx
    have aux {d : ℕ} {x y : ℤ} (hr : Reach m d x y) : d = 0 → x = y ∧ Snake m 0 0 x := by
      induction hr with
      | origin => exact fun _ => ⟨rfl, le_rfl, by omega⟩
      | right => omega
      | down => omega
      | @diag d x y hm _ ih =>
          intro hd
          obtain ⟨rfl, hle, hs⟩ := ih hd
          refine ⟨rfl, by omega, fun i hi hlt => ?_⟩
          by_cases hx : i = x
          · rwa [hx, show x - 0 = x by omega]
          · exact hs i hi (by omega)
    exact h.slide le_rfl (aux hx rfl).2

/-- The furthest point of a diagonal is a snake behind the further of its neighbours' steps. -/
theorem furthest_succ {x' : ℤ} (hx' : Reach m (d + 1) x' (x' - k)) (hs : Stops m k x' z)
    (hright : ∀ x, Reach m d x (x - (k - 1)) → x + 1 ≤ x')
    (hdown : ∀ x, Reach m d x (x - (k + 1)) → x ≤ x') : Furthest m (d + 1) k z := by
  refine ⟨hx'.snake hs.1, fun x hx => ?_⟩
  obtain ⟨w, hsnake, hw⟩ := Reach.last_edit hx
  rw [show x - (x - k) = k by omega] at hsnake hw
  refine hs.slide ?_ hsnake
  rcases hw with hw | hw
  · have := hright (w - 1) (by rwa [show w - 1 - (k - 1) = w - k by omega])
    omega
  · exact hdown w (by rwa [show w - (k + 1) = w - k - 1 by omega])

theorem Furthest.unique (h : Furthest m d k x) (h' : Furthest m d k z) : x = z := IsGreatest.unique h h'

/-! ## A rectangle -/

section

variable {w h : ℤ} (hm : ∀ x y, m x y → x < w ∧ y < h)

include hm

/-- Past the last row no diagonal is left, so the row itself is nearer. -/
theorem Reach.onto_row (hh : 0 ≤ h) (hr : Reach m d x y) (hy : h < y) : ∃ e < d, Reach m e x h := by
  induction hr with
  | origin => omega
  | right hr ih =>
      obtain ⟨e, he, hr'⟩ := ih hy
      exact ⟨e + 1, by omega, hr'.right⟩
  | @down d x y hr ih =>
      by_cases hyh : y = h
      · exact ⟨d, by omega, hyh ▸ hr⟩
      · obtain ⟨e, he, hr'⟩ := ih (by omega)
        exact ⟨e, by omega, hr'⟩
  | diag hxy =>
      have := hm _ _ hxy
      omega

/-- Past the last column, likewise. -/
theorem Reach.onto_column (hw : 0 ≤ w) (hr : Reach m d x y) (hx : w < x) : ∃ e < d, Reach m e w y := by
  induction hr with
  | origin => omega
  | @right d x y hr ih =>
      by_cases hxw : x = w
      · exact ⟨d, by omega, hxw ▸ hr⟩
      · obtain ⟨e, he, hr'⟩ := ih (by omega)
        exact ⟨e, by omega, hr'⟩
  | down hr ih =>
      obtain ⟨e, he, hr'⟩ := ih hx
      exact ⟨e + 1, by omega, hr'.down⟩
  | diag hxy =>
      have := hm _ _ hxy
      omega

/-- The paths of fewest edits that reach past the corner reach the corner. -/
theorem Reach.corner (hw : 0 ≤ w) (hh : 0 ≤ h) (hr : Reach m d x y) (hx : w ≤ x) (hy : h ≤ y)
    (hfirst : ∀ e < d, ∀ x y, Reach m e x y → w ≤ x → h ≤ y → False) : x = w ∧ y = h := by
  have hyh : ¬h < y := fun hlt => by
    obtain ⟨e, he, hr'⟩ := hr.onto_row hm hh hlt
    exact hfirst e he x h hr' hx le_rfl
  have hxw : ¬w < x := fun hlt => by
    obtain ⟨e, he, hr'⟩ := hr.onto_column hm hw hlt
    exact hfirst e he w y hr' le_rfl hy
  omega

end

/-! ## Scripts -/

inductive Op where
  | keep | del | add
  deriving DecidableEq, Repr

abbrev Script (α : Type*) := List (Op × α)

section

variable {α : Type*}

/-- What a script keeps or takes away. -/
def old (s : Script α) : List α := (s.filter fun o => o.1 ≠ .add).map Prod.snd

/-- What a script keeps or puts in. -/
def new (s : Script α) : List α := (s.filter fun o => o.1 ≠ .del).map Prod.snd

def edits (s : Script α) : ℕ := (s.filter fun o => o.1 ≠ .keep).length

def keeps (s : Script α) : ℕ := (s.filter fun o => o.1 = .keep).length

variable (e : α) (s t : Script α)

@[simp] theorem old_nil : old ([] : Script α) = [] := rfl
@[simp] theorem old_keep : old ((.keep, e) :: s) = e :: old s := rfl
@[simp] theorem old_del : old ((.del, e) :: s) = e :: old s := rfl
@[simp] theorem old_add : old ((.add, e) :: s) = old s := rfl
@[simp] theorem new_nil : new ([] : Script α) = [] := rfl
@[simp] theorem new_keep : new ((.keep, e) :: s) = e :: new s := rfl
@[simp] theorem new_del : new ((.del, e) :: s) = new s := rfl
@[simp] theorem new_add : new ((.add, e) :: s) = e :: new s := rfl
@[simp] theorem edits_nil : edits ([] : Script α) = 0 := rfl
@[simp] theorem edits_keep : edits ((.keep, e) :: s) = edits s := rfl
@[simp] theorem edits_del : edits ((.del, e) :: s) = edits s + 1 := rfl
@[simp] theorem edits_add : edits ((.add, e) :: s) = edits s + 1 := rfl
@[simp] theorem keeps_nil : keeps ([] : Script α) = 0 := rfl
@[simp] theorem keeps_keep : keeps ((.keep, e) :: s) = keeps s + 1 := rfl
@[simp] theorem keeps_del : keeps ((.del, e) :: s) = keeps s := rfl
@[simp] theorem keeps_add : keeps ((.add, e) :: s) = keeps s := rfl

@[simp] theorem old_append : old (s ++ t) = old s ++ old t := by simp [old]
@[simp] theorem new_append : new (s ++ t) = new s ++ new t := by simp [new]
@[simp] theorem edits_append : edits (s ++ t) = edits s + edits t := by simp [edits]

theorem edits_add_keeps : edits s + 2 * keeps s = (old s).length + (new s).length := by
  induction s with
  | nil => rfl
  | cons o s ih =>
      obtain ⟨_ | _ | _, e⟩ := o
      all_goals
        simp
        omega

variable [Setoid α] {a b : List α} {s t}

/-- A script from `a` to `b`: what it keeps is `a`'s, and as good as `b`'s. -/
structure Spells (a b : List α) (s : Script α) : Prop where
  old : old s = a
  new : List.Forall₂ (· ≈ ·) (new s) b

/-- Places whose elements are as good as each other. -/
def Matches (a b : List α) (x y : ℤ) : Prop :=
  ∃ (i j : ℕ) (u v : α), x = i ∧ y = j ∧ a[i]? = some u ∧ b[j]? = some v ∧ u ≈ v

/-- There is a common subsequence of `n` elements. -/
def Common (a b : List α) (n : ℕ) : Prop :=
  ∃ u v, u.Sublist a ∧ v.Sublist b ∧ List.Forall₂ (· ≈ ·) u v ∧ u.length = n

theorem Matches.bounds {x y : ℤ} (h : Matches a b x y) : x < a.length ∧ y < b.length := by
  obtain ⟨i, j, u, v, rfl, rfl, hu, hv, -⟩ := h
  have := (List.getElem?_eq_some_iff.mp hu).1
  have := (List.getElem?_eq_some_iff.mp hv).1
  omega

namespace Spells

theorem append {a' b' : List α} (h : Spells a b s) (h' : Spells a' b' t) :
    Spells (a ++ a') (b ++ b') (s ++ t) := by
  refine ⟨by simp [h.old, h'.old], ?_⟩
  rw [new_append]
  exact List.rel_append h.new h'.new

theorem reverse (h : Spells a b s) : Spells a.reverse b.reverse s.reverse := by
  constructor
  · rw [← h.old, EditGraph.old, EditGraph.old, List.filter_reverse, List.map_reverse]
  · have hnew : EditGraph.new s.reverse = (EditGraph.new s).reverse := by
      rw [EditGraph.new, EditGraph.new, List.filter_reverse, List.map_reverse]
    rw [hnew]
    exact List.rel_reverse h.new

theorem edits_eq (h : Spells a b s) : edits s + 2 * keeps s = a.length + b.length := by
  rw [edits_add_keeps, h.old, h.new.length_eq]

/-- A script's path through the graph. -/
theorem reach_from {x y d : ℕ} (hr : Reach (Matches a b) d x y) (hold : a.drop x = EditGraph.old s)
    (hnew : List.Forall₂ (· ≈ ·) (EditGraph.new s) (b.drop y)) (hx : x ≤ a.length) (hy : y ≤ b.length) :
    Reach (Matches a b) (d + edits s) a.length b.length := by
  induction s generalizing x y d with
  | nil =>
      have hxa : a.length ≤ x := List.drop_eq_nil_iff.mp hold
      have hyb : b.length ≤ y := by
        have := hnew.length_eq
        simp at this
        omega
      rw [show (a.length : ℤ) = x by omega, show (b.length : ℤ) = y by omega]
      exact hr
  | cons o s ih =>
      have hnext {l : List α} {i : ℕ} {u : α} {r : List α} (h : l.drop i = u :: r) :
          l[i]? = some u ∧ i < l.length ∧ l.drop (i + 1) = r := by
        have hlt : i < l.length := by
          by_contra hge
          rw [List.drop_eq_nil_of_le (by omega)] at h
          cases h
        rw [List.drop_eq_getElem_cons hlt] at h
        injection h with h1 h2
        exact ⟨by rw [List.getElem?_eq_getElem hlt, h1], hlt, h2⟩
      obtain ⟨_ | _ | _, e⟩ := o
      case keep =>
          obtain ⟨hu, hxl, hdrop⟩ := hnext hold
          rw [new_keep] at hnew
          obtain ⟨v, r, hv, hr', hb⟩ := List.forall₂_cons_left_iff.mp hnew
          obtain ⟨hv', hyl, hdrop'⟩ := hnext hb
          refine ih (x := x + 1) (y := y + 1) ?_ hdrop (hdrop' ▸ hr') hxl hyl
          exact_mod_cast hr.diag ⟨x, y, e, v, rfl, rfl, hu, hv', hv⟩
      case del =>
          obtain ⟨-, hxl, hdrop⟩ := hnext hold
          have := ih (x := x + 1) (d := d + 1) (by exact_mod_cast hr.right) hdrop hnew hxl hy
          rwa [show d + 1 + edits s = d + edits ((.del, e) :: s) by simp; omega] at this
      case add =>
          rw [new_add] at hnew
          obtain ⟨v, r, -, hr', hb⟩ := List.forall₂_cons_left_iff.mp hnew
          obtain ⟨-, hyl, hdrop'⟩ := hnext hb
          have := ih (y := y + 1) (d := d + 1) (by exact_mod_cast hr.down) hold (hdrop' ▸ hr') hx hyl
          rwa [show d + 1 + edits s = d + edits ((.add, e) :: s) by simp; omega] at this

theorem reach (h : Spells a b s) : Reach (Matches a b) (edits s) a.length b.length := by
  have := reach_from (x := 0) (y := 0) (d := 0) (s := s) .origin h.old.symm h.new (by simp) (by simp)
  rwa [Nat.zero_add] at this

/-- What a script keeps is a common subsequence. -/
theorem common (h : Spells a b s) : Common a b (keeps s) := by
  obtain ⟨hold, hnew⟩ := h
  induction s generalizing a b with
  | nil => exact ⟨[], [], List.nil_sublist a, List.nil_sublist b, .nil, rfl⟩
  | cons o s ih =>
      obtain ⟨_ | _ | _, e⟩ := o
      case keep =>
          rw [new_keep] at hnew
          obtain ⟨v, r, hv, hr, rfl⟩ := List.forall₂_cons_left_iff.mp hnew
          obtain ⟨u, w, hu, hw, huw, hlen⟩ := ih rfl hr
          exact ⟨e :: u, v :: w, hold ▸ hu.cons_cons e, hw.cons_cons v, .cons hv huw, by simp [hlen]⟩
      case del =>
          obtain ⟨u, w, hu, hw, huw, hlen⟩ := ih rfl hnew
          exact ⟨u, w, hold ▸ hu.cons e, hw, huw, hlen⟩
      case add =>
          rw [new_add] at hnew
          obtain ⟨v, r, -, hr, rfl⟩ := List.forall₂_cons_left_iff.mp hnew
          obtain ⟨u, w, hu, hw, huw, hlen⟩ := ih rfl hr
          exact ⟨u, w, hold ▸ hu, hw.cons v, huw, hlen⟩

theorem adds (b : List α) : Spells [] b (b.map fun v => (.add, v)) := by
  induction b with
  | nil => exact ⟨rfl, .nil⟩
  | cons v b ih => exact ⟨ih.old, .cons (Setoid.refl v) ih.new⟩

end Spells

/-- Every common subsequence is what some script keeps. -/
theorem Common.script {n : ℕ} (h : Common a b n) : ∃ s, Spells a b s ∧ keeps s = n := by
  obtain ⟨u, v, hu, hv, huv, rfl⟩ := h
  induction hu generalizing v b with
  | slnil =>
      refine ⟨_, .adds b, ?_⟩
      simp [keeps]
  | cons x hu ih =>
      obtain ⟨s, hs, hk⟩ := ih v hv huv
      exact ⟨(.del, x) :: s, ⟨by simp [hs.old], hs.new⟩, hk⟩
  | cons_cons x hu ih =>
      obtain ⟨y, v', hxy, huv', rfl⟩ := List.forall₂_cons_left_iff.mp huv
      generalize hw : y :: v' = w at hv
      induction hv with
      | slnil => cases hw
      | cons z hv ih' =>
          obtain ⟨s, hs, hk⟩ := ih' hw
          exact ⟨(.add, z) :: s, ⟨hs.old, .cons (Setoid.refl z) hs.new⟩, hk⟩
      | cons_cons z hv _ =>
          cases hw
          obtain ⟨s, hs, hk⟩ := ih v' hv huv'
          exact ⟨(.keep, x) :: s, ⟨by simp [hs.old], .cons hxy hs.new⟩, by simp [hk]⟩

/-- A script of as few edits as lead to the corner is a shortest one, and keeps a longest common
subsequence. -/
theorem Spells.shortest (h : Spells a b s)
    (hfirst : ∀ d, Reach (Matches a b) d a.length b.length → edits s ≤ d) :
    (∀ t, Spells a b t → edits s ≤ edits t) ∧ IsGreatest {n | Common a b n} (keeps s) := by
  have hmin t (ht : Spells a b t) : edits s ≤ edits t := hfirst _ ht.reach
  refine ⟨hmin, h.common, fun n hn => ?_⟩
  obtain ⟨t, ht, rfl⟩ := Common.script hn
  have := hmin t ht
  have := h.edits_eq
  have := ht.edits_eq
  omega

end

end EditGraph
