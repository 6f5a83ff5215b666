import Mathlib.Data.List.Perm.Basic
import Mathlib.Data.List.Sort
import Mathlib.Data.List.Forall2

/-! # Terms head first

A term is a head and the terms under it; the head alone says how many there are. Listed head
first, two terms compare as their lists do: heads from the left, and the first two that differ
decide. -/

namespace Listing

variable {H : Type*}

/-- `l` lists `n` terms, one after the other. -/
inductive Lists (arity : H → ℕ) : ℕ → List H → Prop
  | nil : Lists arity 0 []
  | cons {n : ℕ} {h : H} {l : List H} (hl : Lists arity (arity h + n) l) : Lists arity (n + 1) (h :: l)

variable {arity : H → ℕ} {cmp : H → H → Ordering} {n k : ℕ} {l m u v : List H}

theorem Lists.append (hl : Lists arity n l) (hm : Lists arity k m) : Lists arity (n + k) (l ++ m) := by
  induction hl with
  | nil => simpa using hm
  | @cons n h l _ ih =>
      rw [Nat.add_right_comm]
      exact .cons (by simpa [Nat.add_assoc] using ih)

/-- A listing says itself where it ends. -/
theorem Lists.append_inj (hl : Lists arity n l) (hm : Lists arity n m) (h : l ++ u = m ++ v) :
    l = m ∧ u = v := by
  induction hl generalizing m with
  | nil =>
      cases hm
      exact ⟨rfl, h⟩
  | cons _ ih =>
      cases hm with
      | cons hm =>
          rw [List.cons_append, List.cons_append, List.cons.injEq] at h
          obtain ⟨rfl, h⟩ := h
          obtain ⟨rfl, hv⟩ := ih hm h
          exact ⟨rfl, hv⟩

/-- What follows two listings decides only when they are alike. -/
theorem compareLex_append [Std.LawfulEqCmp cmp] (hl : Lists arity n l) (hm : Lists arity n m) :
    List.compareLex cmp (l ++ u) (m ++ v) =
      (List.compareLex cmp l m).then (List.compareLex cmp u v) := by
  induction hl generalizing m with
  | nil =>
      cases hm
      rfl
  | @cons n h l _ ih =>
      cases hm with
      | @cons _ h' m hm =>
          rw [List.cons_append, List.cons_append, List.compareLex_cons_cons, List.compareLex_cons_cons]
          cases hc : cmp h h' with
          | lt => rfl
          | gt => rfl
          | eq =>
              obtain rfl := Std.LawfulEqCmp.eq_of_compare hc
              exact ih hm

/-! ## Sorting by a key -/

section Sorting

variable {α κ : Type*} {cmp : κ → κ → Ordering} (key : α → κ)

/-- Two arrangements of one list, both in order, have the same keys at the same places. -/
theorem forall₂_of_sorted [Std.TransCmp cmp] [Std.LawfulEqCmp cmp] {l m : List α} (h : l.Perm m)
    (hl : l.Pairwise fun a b => (cmp (key a) (key b)).isLE = true)
    (hm : m.Pairwise fun a b => (cmp (key a) (key b)).isLE = true) :
    List.Forall₂ (fun a b => key a = key b) l m := by
  have hkeys : l.map key = m.map key := by
    have hle : (l.map key).Pairwise fun x y => (cmp x y).isLE = true := List.pairwise_map.mpr hl
    refine List.Perm.eq_of_pairwise ?_ hle (List.pairwise_map.mpr hm) (h.map key)
    intro x y _ _ hxy hyx
    exact Std.LawfulEqCmp.eq_of_compare (Std.OrientedCmp.isLE_antisymm hxy hyx)
  have hpairs : List.Forall₂ Eq (l.map key) (m.map key) := by
    rw [List.forall₂_eq_eq_eq]
    exact hkeys
  exact List.forall₂_map_right_iff.mp (List.forall₂_map_left_iff.mp hpairs)

end Sorting

end Listing
