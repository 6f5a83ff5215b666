import Mathlib.Order.Basic
import Mathlib.Data.Nat.Notation

/-! Sequences compared over their first terms: how many agree, and the lexicographic order cut off
there. What stands between two that agree with a third agrees with it as far. -/

namespace PrefixOrder

variable {α : Type*}

/-- The first `k` terms are the same. -/
def AgreeTo (k : ℕ) (f g : ℕ → α) : Prop := ∀ i < k, f i = g i

theorem AgreeTo.refl (k : ℕ) (f : ℕ → α) : AgreeTo k f f := fun _ _ => rfl

theorem agree_zero (f g : ℕ → α) : AgreeTo 0 f g := fun i hi => (Nat.not_lt_zero i hi).elim

theorem AgreeTo.symm {k : ℕ} {f g : ℕ → α} (h : AgreeTo k f g) : AgreeTo k g f := fun i hi => (h i hi).symm

theorem AgreeTo.trans {k : ℕ} {f g h : ℕ → α} (hf : AgreeTo k f g) (hg : AgreeTo k g h) : AgreeTo k f h :=
  fun i hi => (hf i hi).trans (hg i hi)

theorem AgreeTo.mono {k l : ℕ} {f g : ℕ → α} (h : AgreeTo l f g) (hkl : k ≤ l) : AgreeTo k f g :=
  fun i hi => h i (Nat.lt_of_lt_of_le hi hkl)

theorem AgreeTo.snoc {k : ℕ} {f g : ℕ → α} (h : AgreeTo k f g) (hk : f k = g k) : AgreeTo (k + 1) f g := by
  intro i hi
  rcases Nat.lt_or_eq_of_le (Nat.le_of_lt_succ hi) with hlt | rfl
  · exact h i hlt
  · exact hk

/-- Past `k` terms that agree, what follows them is compared. -/
theorem AgreeTo.append {k l : ℕ} {f g : ℕ → α} (h : AgreeTo k f g)
    (hl : AgreeTo l (fun i => f (k + i)) fun i => g (k + i)) : AgreeTo (k + l) f g := by
  intro i hi
  by_cases hik : i < k
  · exact h i hik
  · have hrest : f (k + (i - k)) = g (k + (i - k)) :=
      hl (i - k) (Nat.sub_lt_left_of_lt_add (Nat.le_of_not_lt hik) hi)
    rwa [Nat.add_sub_cancel' (Nat.le_of_not_lt hik)] at hrest

variable [PartialOrder α]

/-- Where the first `k` terms are not the same, the first that differ are in order. -/
def PrefixLe (k : ℕ) (f g : ℕ → α) : Prop := ∀ j < k, AgreeTo j f g → f j ≤ g j

theorem prefixLe_zero (f g : ℕ → α) : PrefixLe 0 f g := fun j hj => (Nat.not_lt_zero j hj).elim

theorem PrefixLe.mono {k l : ℕ} {f g : ℕ → α} (h : PrefixLe l f g) (hkl : k ≤ l) : PrefixLe k f g :=
  fun j hj => h j (Nat.lt_of_lt_of_le hj hkl)

theorem AgreeTo.prefixLe {k : ℕ} {f g : ℕ → α} (h : AgreeTo k f g) : PrefixLe k f g :=
  fun j hj _ => (h j hj).le

/-- One difference settles the order, however much is compared. -/
theorem AgreeTo.prefixLe_of_lt {j : ℕ} {f g : ℕ → α} (h : AgreeTo j f g) (hj : f j < g j) (k : ℕ) :
    PrefixLe k f g := by
  intro i _ hi
  rcases Nat.lt_trichotomy i j with hij | rfl | hij
  · exact (h i hij).le
  · exact hj.le
  · exact (hj.ne (hi j hij)).elim

theorem PrefixLe.trans {k : ℕ} {f g h : ℕ → α} (hf : PrefixLe k f g) (hg : PrefixLe k g h) :
    PrefixLe k f h := by
  intro j hj hagree
  have hfg : ∀ i, i ≤ j → AgreeTo i f g := by
    intro i
    induction i with
    | zero => exact fun _ => agree_zero f g
    | succ i ih =>
        intro hi
        have hi' := ih (Nat.le_of_succ_le hi)
        have hgh : AgreeTo i g h := hi'.symm.trans (hagree.mono (Nat.le_of_succ_le hi))
        have hik := Nat.lt_trans (Nat.lt_of_succ_le hi) hj
        refine hi'.snoc (le_antisymm (hf i hik hi') ?_)
        exact (hg i hik hgh).trans (hagree i (Nat.lt_of_succ_le hi)).ge
  have hgh : AgreeTo j g h := (hfg j (Nat.le_refl j)).symm.trans hagree
  exact (hf j hj (hfg j (Nat.le_refl j))).trans (hg j hj hgh)

theorem PrefixLe.antisymm {k : ℕ} {f g : ℕ → α} (h : PrefixLe k f g) (h' : PrefixLe k g f) : AgreeTo k f g := by
  induction k with
  | zero => exact agree_zero f g
  | succ k ih =>
      have hk := ih (h.mono (Nat.le_succ k)) (h'.mono (Nat.le_succ k))
      exact hk.snoc (le_antisymm (h k (Nat.lt_succ_self k) hk) (h' k (Nat.lt_succ_self k) hk.symm))

/-- What stands over one that agrees with `p` in `k` terms and under one that does in `l`. -/
theorem agree_between {k l : ℕ} {f p : ℕ → α} (hlow : PrefixLe k p f) (hhigh : PrefixLe l f p) :
    AgreeTo (min k l) p f :=
  (hlow.mono (Nat.min_le_left k l)).antisymm (hhigh.mono (Nat.min_le_right k l))

end PrefixOrder
