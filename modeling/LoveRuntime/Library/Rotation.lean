import Mathlib.Data.List.Perm.Subperm
import Mathlib.Data.List.Sort
import Mathlib.Data.Finset.Card
import Mathlib.Data.Nat.ModEq
import Mathlib.Tactic.Ring
import Mathlib.Tactic.Linarith
import LoveRuntime.Library.CountingSort

/-! # Sorted rotations and their inverse

The rotations of a block over an alphabet below `B` are read as numerals of base `B`, so
that their order is the order of numbers. Sorting the last column of the sorted
rotations stably by its letters leads from each row to the row rotated by one, also
where rotations tie, and so the block is spelled again from the row it begins. -/

namespace Rotation

open CountingSort

/-- `m` letters of `c` from `i` on, as a numeral. -/
def numeral (B : ℕ) (c : ℕ → ℕ) : ℕ → ℕ → ℕ
  | 0, _ => 0
  | m + 1, i => numeral B c m i * B + c (i + m)

variable {B n : ℕ} {c : ℕ → ℕ}

theorem numeral_add (m k i : ℕ) :
    numeral B c (m + k) i = numeral B c m i * B ^ k + numeral B c k (i + m) := by
  induction k with
  | zero => simp [numeral]
  | succ k ih =>
      rw [← Nat.add_assoc, numeral, numeral, ih, pow_succ, Nat.add_assoc i m k]
      ring

theorem numeral_lt (hc : ∀ i, c i < B) (m i : ℕ) : numeral B c m i < B ^ m := by
  induction m with
  | zero => simp [numeral]
  | succ m ih =>
      rw [numeral, pow_succ]
      have := hc (i + m)
      nlinarith

theorem numeral_period (hp : ∀ i, c (i + n) = c i) (m i : ℕ) :
    numeral B c m (i + n) = numeral B c m i := by
  induction m with
  | zero => rfl
  | succ m ih => rw [numeral, numeral, ih, show i + n + m = i + m + n by omega, hp]

/-- Two numerals of one width compare by their heads, then by their tails. -/
theorem numeral_add_lt_iff (hc : ∀ i, c i < B) (m k i j : ℕ) :
    numeral B c (m + k) i < numeral B c (m + k) j ↔
      numeral B c m i < numeral B c m j ∨
        numeral B c m i = numeral B c m j ∧ numeral B c k (i + m) < numeral B c k (j + m) := by
  rw [numeral_add, numeral_add]
  have hi := numeral_lt hc k (i + m)
  have hj := numeral_lt hc k (j + m)
  rcases lt_trichotomy (numeral B c m i) (numeral B c m j) with h | h | h
  · refine ⟨fun _ => .inl h, fun _ => ?_⟩
    nlinarith
  · simp [h]
  · refine ⟨fun hlt => ?_, fun hor => ?_⟩
    · nlinarith
    · omega

theorem numeral_eq_iff (hc : ∀ i, c i < B) (m i j : ℕ) :
    numeral B c m i = numeral B c m j ↔ ∀ t, t < m → c (i + t) = c (j + t) := by
  induction m with
  | zero => simp [numeral]
  | succ m ih =>
      have hi := hc (i + m)
      have hj := hc (j + m)
      refine ⟨fun h t ht => ?_, fun h => ?_⟩
      · rw [numeral, numeral] at h
        have hmod : c (i + m) = c (j + m) := by
          have := congrArg (· % B) h
          simpa [Nat.mul_add_mod_self_right, Nat.mod_eq_of_lt, hi, hj] using this
        have hdiv : numeral B c m i = numeral B c m j := by
          rw [hmod] at h
          exact Nat.eq_of_mul_eq_mul_right (by omega) (Nat.add_right_cancel h)
        rcases Nat.lt_or_eq_of_le (Nat.le_of_lt_succ ht) with hlt | rfl
        · exact ih.mp hdiv t hlt
        · exact hmod
      · rw [numeral, numeral, h m (Nat.lt_succ_self m),
          ih.mpr fun t ht => h t (Nat.lt_succ_of_lt ht)]

/-- Longer numerals in order have their heads in order. -/
theorem numeral_le_of_add_le (hc : ∀ i, c i < B) {m k i j : ℕ}
    (h : numeral B c (m + k) i ≤ numeral B c (m + k) j) : numeral B c m i ≤ numeral B c m j := by
  by_contra hlt
  have := (numeral_add_lt_iff hc m k j i).mpr (.inl (Nat.lt_of_not_le hlt))
  omega

/-- The rows of a block of `n` letters, in order. -/
structure Sorted (B : ℕ) (c : ℕ → ℕ) (n : ℕ) (sa : ℕ → ℕ) : Prop where
  lt : ∀ p, p < n → sa p < n
  inj : ∀ p q, p < n → q < n → sa p = sa q → p = q
  le : ∀ p q, p < q → q < n → numeral B c n (sa p) ≤ numeral B c n (sa q)

/-- The letter before a row's first, the last of its column. -/
def lastOf (c : ℕ → ℕ) (n : ℕ) (sa : ℕ → ℕ) (p : ℕ) : ℕ := c (sa p + (n - 1))

theorem map_perm_range {f : ℕ → ℕ} (hlt : ∀ p, p < n → f p < n)
    (hinj : ∀ p q, p < n → q < n → f p = f q → p = q) :
    ((List.range n).map f).Perm (List.range n) := by
  have hnodup : ((List.range n).map f).Nodup :=
    List.Nodup.map_on (fun p hp q hq h => hinj p q (List.mem_range.mp hp) (List.mem_range.mp hq) h)
      List.nodup_range
  have hsub : (List.range n).map f ⊆ List.range n := by
    intro x hx
    obtain ⟨p, hp, rfl⟩ := List.mem_map.mp hx
    exact List.mem_range.mpr (hlt p (List.mem_range.mp hp))
  exact (List.subperm_of_subset hnodup hsub).perm_of_length_le (by simp)

variable {sa next : ℕ → ℕ}

/-- The row rotated by one to the right, as a numeral. -/
private theorem numeral_rotate (hn : 0 < n) (hp : ∀ i, c (i + n) = c i) (i : ℕ) :
    numeral B c n (i + (n - 1)) = c (i + (n - 1)) * B ^ (n - 1) + numeral B c (n - 1) i := by
  have hsplit := numeral_add (B := B) (c := c) 1 (n - 1) (i + (n - 1))
  rw [show 1 + (n - 1) = n by omega, show i + (n - 1) + 1 = i + n by omega,
    numeral_period hp] at hsplit
  rw [hsplit]
  simp [numeral]

/-- The stable sort of the last column by its letters lists the rotated rows in order. -/
private theorem rotated_le (hc : ∀ i, c i < B) (hn : 0 < n) (hp : ∀ i, c (i + n) = c i)
    (hs : Sorted B c n sa)
    (hnext : ∀ p, p < n → next (place (lastOf c n sa) n p) = p) {q q' : ℕ} (hlt : q < q')
    (hq' : q' < n) :
    numeral B c n (sa (next q) + (n - 1)) ≤ numeral B c n (sa (next q') + (n - 1)) := by
  obtain ⟨i, hi, rfl⟩ := exists_place (lastOf c n sa) (hlt.trans hq')
  obtain ⟨j, hj, rfl⟩ := exists_place (lastOf c n sa) hq'
  rw [hnext i hi, hnext j hj, numeral_rotate hn hp, numeral_rotate hn hp]
  rcases order_of_place_lt hj hlt with hkey | ⟨hkey, hij⟩
  · have hlast : c (sa i + (n - 1)) < c (sa j + (n - 1)) := hkey
    have := numeral_lt hc (n - 1) (sa i)
    nlinarith
  · have hlast : c (sa i + (n - 1)) = c (sa j + (n - 1)) := hkey
    rw [hlast]
    have hrow := hs.le i j hij hj
    have hn1 : n = n - 1 + 1 := by omega
    rw [hn1] at hrow
    have := numeral_le_of_add_le hc hrow
    omega

/-- Each row is its next row rotated by one. -/
theorem row_eq (hc : ∀ i, c i < B) (hn : 0 < n) (hp : ∀ i, c (i + n) = c i)
    (hs : Sorted B c n sa)
    (hnext : ∀ p, p < n → next (place (lastOf c n sa) n p) = p) {q : ℕ} (hq : q < n) :
    numeral B c n (sa q) = numeral B c n (sa (next q) + (n - 1)) := by
  have hnext_lt : ∀ p, p < n → next p < n := by
    intro p hp'
    obtain ⟨i, hi, rfl⟩ := exists_place (lastOf c n sa) hp'
    rwa [hnext i hi]
  have hnext_inj : ∀ p q, p < n → q < n → next p = next q → p = q := by
    intro p q hp' hq' h
    obtain ⟨i, hi, rfl⟩ := exists_place (lastOf c n sa) hp'
    obtain ⟨j, hj, rfl⟩ := exists_place (lastOf c n sa) hq'
    rw [hnext i hi, hnext j hj] at h
    rw [h]
  have hmod : ∀ i, numeral B c n (i % n) = numeral B c n i := by
    intro i
    induction i using Nat.strong_induction_on with
    | _ i ih =>
        by_cases hlt : i < n
        · rw [Nat.mod_eq_of_lt hlt]
        · have hsub := ih (i - n) (by omega)
          rw [← Nat.mod_eq_sub_mod (Nat.le_of_not_lt hlt)] at hsub
          rw [hsub, ← numeral_period hp n (i - n), Nat.sub_add_cancel (Nat.le_of_not_lt hlt)]
  let rot := fun q => (sa (next q) + (n - 1)) % n
  have hrot_inj : ∀ p q, p < n → q < n → rot p = rot q → p = q := by
    intro p q hp' hq' h
    refine hnext_inj p q hp' hq' (hs.inj _ _ (hnext_lt p hp') (hnext_lt q hq') ?_)
    have h1 := hs.lt _ (hnext_lt p hp')
    have h2 := hs.lt _ (hnext_lt q hq')
    have hcong : Nat.ModEq n (sa (next p) + (n - 1)) (sa (next q) + (n - 1)) := h
    have := Nat.ModEq.add_right_cancel' (n - 1) hcong
    rwa [Nat.ModEq, Nat.mod_eq_of_lt h1, Nat.mod_eq_of_lt h2] at this
  have hperm₁ := (map_perm_range hs.lt hs.inj).map (numeral B c n)
  have hperm₂ := (map_perm_range (f := rot) (fun q _ => Nat.mod_lt _ hn) hrot_inj).map
    (numeral B c n)
  have hperm := hperm₁.trans hperm₂.symm
  rw [List.map_map, List.map_map] at hperm
  have hsorted : ∀ f : ℕ → ℕ, (∀ p q, p < q → q < n → f p ≤ f q) →
      ((List.range n).map f).Pairwise (· ≤ ·) := by
    intro f hf
    rw [List.pairwise_map]
    refine List.Pairwise.imp_of_mem (fun {a b} _ hb h => hf a b h (List.mem_range.mp hb))
      List.pairwise_lt_range
  have heq := hperm.eq_of_pairwise' (r := (· ≤ ·))
    (hsorted _ fun p q h hq => hs.le p q h hq)
    (hsorted _ fun p q h hq => by
      simp only [Function.comp, rot, hmod]
      exact rotated_le hc hn hp hs hnext h hq)
  have hat := congrArg (fun l : List ℕ => l[q]?) heq
  simpa [hq, rot, hmod] using hat

/-- From the row the block begins, the next rows spell the block by their last letters. -/
theorem spell (hc : ∀ i, c i < B) (hn : 0 < n) (hp : ∀ i, c (i + n) = c i)
    (hs : Sorted B c n sa)
    (hnext : ∀ p, p < n → next (place (lastOf c n sa) n p) = p) {orig : ℕ} (ho : orig < n)
    (hsa : sa orig = 0) (t : ℕ) :
    next^[t] orig < n ∧ numeral B c n (sa (next^[t] orig)) = numeral B c n t := by
  have hnext_lt : ∀ p, p < n → next p < n := by
    intro p hp'
    obtain ⟨i, hi, rfl⟩ := exists_place (lastOf c n sa) hp'
    rwa [hnext i hi]
  induction t with
  | zero => exact ⟨ho, by rw [Function.iterate_zero, id, hsa]⟩
  | succ t ih =>
      obtain ⟨hlt, hrow⟩ := ih
      rw [Function.iterate_succ_apply']
      refine ⟨hnext_lt _ hlt, ?_⟩
      have hstep := row_eq hc hn hp hs hnext hlt
      rw [hrow, numeral_eq_iff hc] at hstep
      rw [numeral_eq_iff hc]
      intro u hu
      by_cases hlast : u + 1 < n
      · have hu' := hstep (u + 1) hlast
        rw [show t + 1 + u = t + (u + 1) by omega, hu',
          show sa (next (next^[t] orig)) + (n - 1) + (u + 1) =
            sa (next (next^[t] orig)) + u + n by omega, hp]
      · have hu' := hstep 0 hn
        rw [show sa (next (next^[t] orig)) + u = sa (next (next^[t] orig)) + (n - 1) + 0 by omega,
          ← hu', show t + 1 + u = t + 0 + n by omega, hp]

/-- The letters so spelled. -/
theorem letter (hc : ∀ i, c i < B) (hn : 0 < n) (hp : ∀ i, c (i + n) = c i)
    (hs : Sorted B c n sa)
    (hnext : ∀ p, p < n → next (place (lastOf c n sa) n p) = p) {orig : ℕ} (ho : orig < n)
    (hsa : sa orig = 0) (t : ℕ) : lastOf c n sa (next^[t + 1] orig) = c t := by
  obtain ⟨hlt, hrow⟩ := spell hc hn hp hs hnext ho hsa t
  have hstep := row_eq hc hn hp hs hnext hlt
  rw [hrow, numeral_eq_iff hc] at hstep
  rw [Function.iterate_succ_apply', lastOf]
  have := hstep 0 hn
  simpa using this.symm

end Rotation
