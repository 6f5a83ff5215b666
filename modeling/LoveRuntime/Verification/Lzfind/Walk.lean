import LoveRuntime.Library.SplitTree
import LoveRuntime.Verification.Lzfind.Lengths

/-! The walk over `son` is a split of the tree it holds. What a node agrees with the new root in is
found past what its place between the nodes on the way down vouches for. -/

namespace LoveRuntime.Lzfind

open PrefixOrder SplitTree

/-- The order of the tree, over `k` bytes. -/
def Under (s : List UInt8) (k x y : ℕ) : Prop := PrefixLe k (bytesFrom s x) (bytesFrom s y)

/-! ### The tree in its cells -/

/-- The entry `e` stands for the tree `t` to a walk from `P` or farther on: what is out of reach
there has no sides any more. -/
inductive Holds (reach wmask P : ℕ) (son : ℕ → ℕ) : ℕ → BinaryTree ℕ → Prop where
  | empty : Holds reach wmask P son 0 .nil
  | gone {e : ℕ} (h : e - 1 + reach < P) : Holds reach wmask P son e .nil
  | node {q : ℕ} {l r : BinaryTree ℕ} (hq : q < P) (hlive : P ≤ q + reach)
      (hl : Holds reach wmask P son (son (pair wmask q)) l)
      (hr : Holds reach wmask P son (son (pair wmask q + 1)) r) : Holds reach wmask P son (q + 1) (.node q l r)

variable {reach wmask P : ℕ} {son son' : ℕ → ℕ}

theorem Holds.mem {e : ℕ} {t : BinaryTree ℕ} (h : Holds reach wmask P son e t) :
    ∀ x ∈ toList t, x < P ∧ P ≤ x + reach := by
  induction h with
  | empty => intro x hx; cases hx
  | gone _ => intro x hx; cases hx
  | node hq hlive hl hr ihl ihr =>
      intro x hx
      simp only [toList_node, List.mem_cons, List.mem_append] at hx
      rcases hx with rfl | hx | hx
      · exact ⟨hq, hlive⟩
      · exact ihl x hx
      · exact ihr x hx

/-- Only the cells of its own nodes matter. -/
theorem Holds.frame {e : ℕ} {t : BinaryTree ℕ} (h : Holds reach wmask P son e t)
    (hson : ∀ x ∈ toList t, son' (pair wmask x) = son (pair wmask x) ∧
      son' (pair wmask x + 1) = son (pair wmask x + 1)) : Holds reach wmask P son' e t := by
  induction h with
  | empty => exact .empty
  | gone h => exact .gone h
  | node hq hlive hl hr ihl ihr =>
      obtain ⟨hlow, hhigh⟩ := hson _ List.mem_cons_self
      refine .node hq hlive ?_ ?_
      · rw [hlow]
        exact ihl fun x hx => hson x (List.mem_cons_of_mem _ (List.mem_append_left _ hx))
      · rw [hhigh]
        exact ihr fun x hx => hson x (List.mem_cons_of_mem _ (List.mem_append_right _ hx))

/-- A walk from farther on sees less. -/
theorem Holds.prune {P' e : ℕ} {t : BinaryTree ℕ} (h : Holds reach wmask P son e t) (hP : P ≤ P') :
    Holds reach wmask P' son e (prune (fun q => decide (q + reach < P')) t) := by
  induction h with
  | empty => exact .empty
  | gone h => exact .gone (Nat.lt_of_lt_of_le h hP)
  | @node q l r hq hlive hl hr ihl ihr =>
      rw [SplitTree.prune]
      by_cases hgone : q + reach < P'
      · rw [if_pos (decide_eq_true hgone)]
        exact .gone hgone
      · rw [if_neg (by simpa using hgone)]
        exact .node (Nat.lt_of_lt_of_le hq hP) (Nat.le_of_not_lt hgone) ihl ihr

/-- Positions less than a turn of the ring apart have cells of their own. -/
theorem pair_ne {k x y : ℕ} (hwmask : wmask = 2 ^ k - 1) (hxy : x < y) (hnear : y ≤ x + wmask) :
    pair wmask x ≠ pair wmask y := by
  intro h
  have hpos := Nat.two_pow_pos k
  rw [pair, pair, hwmask, Nat.and_two_pow_sub_one_eq_mod, Nat.and_two_pow_sub_one_eq_mod] at h
  have hmod : (y - x) % 2 ^ k = 0 := Nat.sub_mod_eq_zero_of_mod_eq (Nat.eq_of_mul_eq_mul_left Nat.two_pos h).symm
  rw [Nat.mod_eq_of_lt (by omega)] at hmod
  omega

/-! ### The walk -/

theorem Longest.unique {s : List UInt8} {a b lim m m' : ℕ} (h : Longest s a b lim m)
    (h' : Longest s a b lim m') : m = m' := by
  rcases Nat.lt_trichotomy m m' with hlt | rfl | hlt
  · exact (h.stop (Nat.lt_of_lt_of_le hlt h'.le) (h'.agree m hlt)).elim
  · rfl
  · exact (h'.stop (Nat.lt_of_lt_of_le hlt h.le) (h.agree m' hlt)).elim

/-- How far a node agrees with the new root. -/
def common (s : List UInt8) (p cut x : ℕ) : ℕ := lzfMlen false s x p cut

/-- The side of the new root a node is for. -/
def side (s : List UInt8) (p cut x : ℕ) : Ordering :=
  if cut ≤ common s p cut x then .eq
  else if byteAt s (x + common s p cut x) < byteAt s (p + common s p cut x) then .lt
  else .gt

theorem longest_common (s : List UInt8) (p cut x : ℕ) : Longest s x p cut (common s p cut x) :=
  lzfMlen_longest false s x p cut

theorem side_lt {s : List UInt8} {p cut x : ℕ} (h : side s p cut x = .lt) (k : ℕ) : Under s k x p := by
  rw [side] at h
  split at h
  · cases h
  · split at h
    next hlt => exact (longest_common s p cut x).agree.prefixLe_of_lt hlt k
    · cases h

theorem side_gt {s : List UInt8} {p cut x : ℕ} (h : side s p cut x = .gt) (k : ℕ) : Under s k p x := by
  rw [side] at h
  split at h
  · cases h
  next hcut =>
    split at h
    · cases h
    next hge =>
      have hne := (longest_common s p cut x).stop (Nat.lt_of_not_le hcut)
      exact (longest_common s p cut x).agree.symm.prefixLe_of_lt (by simp only [bytesFrom]; omega) k

theorem side_eq {s : List UInt8} {p cut x : ℕ} (h : side s p cut x = .eq) :
    AgreeTo cut (bytesFrom s x) (bytesFrom s p) := by
  rw [side] at h
  split at h
  next hcut => exact (longest_common s p cut x).agree.mono hcut
  · split at h <;> cases h

/-- What is known on the way down: `T` hangs from the open end, and stands between the two owners. -/
structure Descent (f : Lzf) (p cut : ℕ) (t : Walk) (T : BinaryTree ℕ) : Prop where
  holds : Holds f.reach f.wmask p t.son t.c T
  nodup : (toList T).Nodup
  ordered : Ordered (Under f.s cut) T
  llo_le : t.llo ≤ cut
  lhi_le : t.lhi ≤ cut
  above : ∀ x ∈ toList T, Under f.s t.llo p x
  below : ∀ x ∈ toList T, Under f.s t.lhi x p
  lo_ne_hi : t.lo ≠ t.hi
  lo_free : ∀ x ∈ toList T, t.lo ≠ pair f.wmask x ∧ t.lo ≠ pair f.wmask x + 1
  hi_free : ∀ x ∈ toList T, t.hi ≠ pair f.wmask x ∧ t.hi ≠ pair f.wmask x + 1

section Note

variable (f : Lzf) (want : Bool) (t : Walk) (l d : ℕ)

@[simp] theorem note_son : (t.note f want l d).son = t.son := by
  rw [Walk.note]
  split <;> rfl

@[simp] theorem note_c : (t.note f want l d).c = t.c := by
  rw [Walk.note]
  split <;> rfl

@[simp] theorem note_lo : (t.note f want l d).lo = t.lo := by
  rw [Walk.note]
  split <;> rfl

@[simp] theorem note_hi : (t.note f want l d).hi = t.hi := by
  rw [Walk.note]
  split <;> rfl

@[simp] theorem note_llo : (t.note f want l d).llo = t.llo := by
  rw [Walk.note]
  split <;> rfl

@[simp] theorem note_lhi : (t.note f want l d).lhi = t.lhi := by
  rw [Walk.note]
  split <;> rfl

end Note

variable {f : Lzf} {p cut : ℕ} {want wide : Bool} {t : Walk} {T l r : BinaryTree ℕ} {q : ℕ}

/-- The bytes skipped are those a node agrees in for where it stands. -/
theorem Descent.length_eq (h : Descent f p cut t (.node q l r)) :
    min t.llo t.lhi +
        lzfMlen wide f.s (q + min t.llo t.lhi) (p + min t.llo t.lhi) (cut - min t.llo t.lhi) =
      common f.s p cut q := by
  have hq : q ∈ toList (.node q l r) := List.mem_cons_self
  have hskip : AgreeTo (min t.llo t.lhi) (bytesFrom f.s q) (bytesFrom f.s p) :=
    (agree_between (h.above q hq) (h.below q hq)).symm
  have hle : min t.llo t.lhi ≤ cut := (Nat.min_le_left _ _).trans h.llo_le
  obtain ⟨hmle, hagree, hstop⟩ :=
    lzfMlen_longest wide f.s (q + min t.llo t.lhi) (p + min t.llo t.lhi) (cut - min t.llo t.lhi)
  have hlong : Longest f.s q p cut (min t.llo t.lhi +
      lzfMlen wide f.s (q + min t.llo t.lhi) (p + min t.llo t.lhi) (cut - min t.llo t.lhi)) := by
    refine ⟨by omega, hskip.append ?_, fun hlt => ?_⟩
    · intro i hi
      have := hagree i hi
      simpa only [bytesFrom, Nat.add_assoc] using this
    · rw [← Nat.add_assoc, ← Nat.add_assoc]
      exact hstop (by omega)
  exact hlong.unique (longest_common f.s p cut q)

/-- The cells of the node the walk is at. -/
theorem Descent.sides (h : Descent f p cut t (.node q l r)) :
    t.c = q + 1 ∧ (q < p ∧ p ≤ q + f.reach) ∧ Holds f.reach f.wmask p t.son (t.son (pair f.wmask q)) l ∧
      Holds f.reach f.wmask p t.son (t.son (pair f.wmask q + 1)) r := by
  generalize hc : t.c = c
  have hh := h.holds
  rw [hc] at hh
  cases hh with
  | node hq hlive hl hr => exact ⟨rfl, ⟨hq, hlive⟩, hl, hr⟩

theorem walk_nil (h : Descent f p cut t .nil) (n : ℕ) : lzfWalk wide f p cut want n t = t.close := by
  cases n with
  | zero => rfl
  | succ n =>
      rw [lzfWalk, if_pos]
      generalize hc : t.c = c
      have hh := h.holds
      rw [hc] at hh
      cases hh with
      | empty => exact .inl rfl
      | gone hgone => exact .inr (by omega)

theorem walk_node (h : Descent f p cut t (.node q l r)) (n : ℕ) :
    lzfWalk wide f p cut want (n + 1) t =
      match side f.s p cut q with
      | .eq => (t.note f want (common f.s p cut q) (p - q - 1)).adopt (pair f.wmask q)
      | .lt => lzfWalk wide f p cut want n
          ((t.note f want (common f.s p cut q) (p - q - 1)).goLow (pair f.wmask q) (common f.s p cut q))
      | .gt => lzfWalk wide f p cut want n
          ((t.note f want (common f.s p cut q) (p - q - 1)).goHigh (pair f.wmask q) (common f.s p cut q)) := by
  obtain ⟨hc, ⟨-, hlive⟩, -, -⟩ := h.sides
  rw [lzfWalk, if_neg (by omega)]
  simp only [hc, Nat.add_sub_cancel, h.length_eq, side]
  split
  · rfl
  · split <;> rfl

/-- The mask is of ones, 32 at most. -/
structure Lzf.Fits (f : Lzf) : Prop where
  mask : ∃ k ≤ 32, f.wmask = 2 ^ k - 1

theorem Lzf.reach_le (f : Lzf) : f.reach ≤ f.wmask := Nat.min_le_right _ _

theorem pair_ne_succ (wmask x y : ℕ) : pair wmask x ≠ pair wmask y + 1 := by
  rw [pair, pair]
  omega

/-- Two nodes of a walk's tree have cells of their own. -/
theorem Descent.cells_ne (h : Descent f p cut t T) (hf : f.Fits) {x y : ℕ} (hx : x ∈ toList T)
    (hy : y ∈ toList T) (hxy : x ≠ y) : pair f.wmask x ≠ pair f.wmask y := by
  obtain ⟨k, -, hk⟩ := hf.mask
  have hreach := f.reach_le
  have hx' := h.holds.mem x hx
  have hy' := h.holds.mem y hy
  rcases Nat.lt_or_gt_of_ne hxy with hlt | hlt
  · exact pair_ne hk hlt (by omega)
  · exact (pair_ne hk hlt (by omega)).symm

theorem side_ne_eq {s : List UInt8} (h : side s p cut q ≠ .eq) : common s p cut q < cut := by
  rw [side] at h
  split at h
  · exact (h rfl).elim
  next hcut => exact Nat.lt_of_not_le hcut

/-- Past a node that stands under the new root, its high side hangs from the open end. -/
theorem Descent.low (h : Descent f p cut t (.node q l r)) (hf : f.Fits) (hside : side f.s p cut q = .lt) :
    Descent f p cut
      ((t.note f want (common f.s p cut q) (p - q - 1)).goLow (pair f.wmask q) (common f.s p cut q)) r := by
  have hq : q ∈ toList (.node q l r) := List.mem_cons_self
  have hsub : ∀ x ∈ toList r, x ∈ toList (.node q l r) := by simp +contextual
  obtain ⟨hqnot, hnodup⟩ := List.nodup_cons.mp h.nodup
  obtain ⟨-, hover, -, hor⟩ := h.ordered
  obtain ⟨-, -, -, hholds⟩ := h.sides
  have hlt : common f.s p cut q < cut := side_ne_eq (by rw [hside]; simp)
  refine ⟨?_, ?_, hor, hlt.le, ?_, ?_, ?_, ?_, ?_, ?_⟩
  · simp only [Walk.goLow, note_son, note_lo, note_c]
    rw [Function.update_of_ne (h.lo_free q hq).2.symm]
    refine hholds.frame fun x hx => ?_
    obtain ⟨h0, h1⟩ := h.lo_free x (hsub x hx)
    exact ⟨Function.update_of_ne h0.symm _ _, Function.update_of_ne h1.symm _ _⟩
  · exact (List.nodup_append.mp hnodup).2.1
  · simpa only [Walk.goLow, note_lhi] using h.lhi_le
  · intro x hx
    exact (longest_common f.s p cut q).agree.symm.prefixLe.trans ((hover x hx).mono hlt.le)
  · intro x hx
    simpa only [Walk.goLow, note_lhi] using h.below x (hsub x hx)
  · simpa only [Walk.goLow, note_hi] using (h.hi_free q hq).2.symm
  · intro x hx
    have hne : q ≠ x := fun heq => hqnot (by simp [heq, hx])
    exact ⟨(pair_ne_succ _ _ _).symm, fun heq => h.cells_ne hf hq (hsub x hx) hne (Nat.succ.inj heq)⟩
  · intro x hx
    simpa only [Walk.goLow, note_hi] using h.hi_free x (hsub x hx)

theorem Descent.high (h : Descent f p cut t (.node q l r)) (hf : f.Fits) (hside : side f.s p cut q = .gt) :
    Descent f p cut
      ((t.note f want (common f.s p cut q) (p - q - 1)).goHigh (pair f.wmask q) (common f.s p cut q)) l := by
  have hq : q ∈ toList (.node q l r) := List.mem_cons_self
  have hsub : ∀ x ∈ toList l, x ∈ toList (.node q l r) := by simp +contextual
  obtain ⟨hqnot, hnodup⟩ := List.nodup_cons.mp h.nodup
  obtain ⟨hunder, -, hol, -⟩ := h.ordered
  obtain ⟨-, -, hholds, -⟩ := h.sides
  have hlt : common f.s p cut q < cut := side_ne_eq (by rw [hside]; simp)
  refine ⟨?_, ?_, hol, ?_, hlt.le, ?_, ?_, ?_, ?_, ?_⟩
  · simp only [Walk.goHigh, note_son, note_hi, note_c]
    rw [Function.update_of_ne (h.hi_free q hq).1.symm]
    refine hholds.frame fun x hx => ?_
    obtain ⟨h0, h1⟩ := h.hi_free x (hsub x hx)
    exact ⟨Function.update_of_ne h0.symm _ _, Function.update_of_ne h1.symm _ _⟩
  · exact (List.nodup_append.mp hnodup).1
  · simpa only [Walk.goHigh, note_llo] using h.llo_le
  · intro x hx
    simpa only [Walk.goHigh, note_llo] using h.above x (hsub x hx)
  · intro x hx
    exact ((hunder x hx).mono hlt.le).trans (longest_common f.s p cut q).agree.prefixLe
  · simpa only [Walk.goHigh, note_lo] using (h.lo_free q hq).1
  · intro x hx
    simpa only [Walk.goHigh, note_lo] using h.lo_free x (hsub x hx)
  · intro x hx
    have hne : q ≠ x := fun heq => hqnot (by simp [heq, hx])
    exact ⟨h.cells_ne hf hq (hsub x hx) hne, pair_ne_succ _ _ _⟩

/-- The cells that the walk may write. -/
def Spared (wmask : ℕ) (t : Walk) (T : BinaryTree ℕ) (cell : ℕ) : Prop :=
  cell ≠ t.lo ∧ cell ≠ t.hi ∧ ∀ x ∈ toList T, cell ≠ pair wmask x ∧ cell ≠ pair wmask x + 1

/-- Where the walk ends: the open ends hold the two parts of the tree, and no cell of another's is
touched. -/
structure Landed (f : Lzf) (p cut n : ℕ) (t : Walk) (T : BinaryTree ℕ) (son : ℕ → ℕ) : Prop where
  low : Holds f.reach f.wmask p son (son t.lo) (split (side f.s p cut) n T).1
  high : Holds f.reach f.wmask p son (son t.hi) (split (side f.s p cut) n T).2
  spared : ∀ cell, Spared f.wmask t T cell → son cell = t.son cell

theorem landed_close (h : Descent f p cut t T) {n : ℕ} (hsplit : split (side f.s p cut) n T = (.nil, .nil)) :
    Landed f p cut n t T t.close.son := by
  refine ⟨?_, ?_, ?_⟩
  · rw [hsplit]
    simpa only [Walk.close, Function.update_self] using .empty
  · rw [hsplit]
    simpa only [Walk.close, Function.update_of_ne h.lo_ne_hi.symm, Function.update_self] using .empty
  · rintro cell ⟨hlo, hhi, -⟩
    simp only [Walk.close, Function.update_of_ne hlo, Function.update_of_ne hhi]

theorem landed_adopt (h : Descent f p cut t (.node q l r)) {n : ℕ} (hside : side f.s p cut q = .eq) :
    Landed f p cut (n + 1) t (.node q l r) (t.adopt (pair f.wmask q)).son := by
  have hq : q ∈ toList (.node q l r) := List.mem_cons_self
  obtain ⟨-, -, hl, hr⟩ := h.sides
  have hsplit : split (side f.s p cut) (n + 1) (.node q l r) = (l, r) := by rw [split, hside]
  have hframe : ∀ x ∈ toList (.node q l r), ∀ u v,
      Function.update (Function.update t.son t.lo u) t.hi v (pair f.wmask x) = t.son (pair f.wmask x) ∧
        Function.update (Function.update t.son t.lo u) t.hi v (pair f.wmask x + 1) =
          t.son (pair f.wmask x + 1) := by
    intro x hx u v
    obtain ⟨hlo, hlo'⟩ := h.lo_free x hx
    obtain ⟨hhi, hhi'⟩ := h.hi_free x hx
    rw [Function.update_of_ne hhi.symm, Function.update_of_ne hlo.symm, Function.update_of_ne hhi'.symm,
      Function.update_of_ne hlo'.symm]
    exact ⟨rfl, rfl⟩
  refine ⟨?_, ?_, ?_⟩
  · rw [hsplit]
    simp only [Walk.adopt, Function.update_of_ne h.lo_ne_hi, Function.update_self]
    exact hl.frame fun x hx => hframe x (by simp [hx]) _ _
  · rw [hsplit]
    simp only [Walk.adopt, Function.update_self]
    rw [Function.update_of_ne (h.lo_free q hq).2.symm]
    exact hr.frame fun x hx => hframe x (by simp [hx]) _ _
  · rintro cell ⟨hlo, hhi, -⟩
    simp only [Walk.adopt, Function.update_of_ne hlo, Function.update_of_ne hhi]

/-- The cells of a node are not those of others of the tree. -/
theorem Descent.apart (h : Descent f p cut t T) (hf : f.Fits) {x : ℕ} (hx : x ∈ toList T) (ys : List ℕ)
    (hys : ∀ y ∈ ys, y ∈ toList T ∧ x ≠ y) :
    (∀ y ∈ ys, pair f.wmask x ≠ pair f.wmask y ∧ pair f.wmask x ≠ pair f.wmask y + 1) ∧
      ∀ y ∈ ys, pair f.wmask x + 1 ≠ pair f.wmask y ∧ pair f.wmask x + 1 ≠ pair f.wmask y + 1 := by
  have hne : ∀ y ∈ ys, pair f.wmask x ≠ pair f.wmask y := fun y hy =>
    h.cells_ne hf hx (hys y hy).1 (hys y hy).2
  exact ⟨fun y hy => ⟨hne y hy, pair_ne_succ _ _ _⟩,
    fun y hy => ⟨(pair_ne_succ _ _ _).symm, fun heq => hne y hy (Nat.succ.inj heq)⟩⟩

theorem landed_low (h : Descent f p cut t (.node q l r)) (hf : f.Fits) {n k m d : ℕ}
    (hside : side f.s p cut q = .lt)
    (hl : Landed f p cut n ((t.note f want m d).goLow (pair f.wmask q) k) r son) :
    Landed f p cut (n + 1) t (.node q l r) son := by
  obtain ⟨hc, ⟨hqp, hlive⟩, hleft, -⟩ := h.sides
  have hq : q ∈ toList (.node q l r) := List.mem_cons_self
  have hsubl : ∀ x ∈ toList l, x ∈ toList (.node q l r) := by simp +contextual
  have hsubr : ∀ x ∈ toList r, x ∈ toList (.node q l r) := by simp +contextual
  obtain ⟨hqnot, hnodup⟩ := List.nodup_cons.mp h.nodup
  have hdisjoint := (List.nodup_append.mp hnodup).2.2
  obtain ⟨hlow, hhigh, hspared⟩ := hl
  simp only [Walk.goLow, note_son, note_lo, note_hi, note_c, hc, Spared] at hlow hhigh hspared
  have hsplit : split (side f.s p cut) (n + 1) (.node q l r) =
      (.node q l (split (side f.s p cut) n r).1, (split (side f.s p cut) n r).2) := by rw [split, hside]
  -- a cell of the tree's that is neither the open end nor the high side's is as it was
  have hkept : ∀ cell, cell ≠ t.lo → cell ≠ pair f.wmask q + 1 → cell ≠ t.hi →
      (∀ y ∈ toList r, cell ≠ pair f.wmask y ∧ cell ≠ pair f.wmask y + 1) → son cell = t.son cell := by
    intro cell hlo hq1 hhi hr
    rw [hspared cell ⟨hq1, hhi, hr⟩, Function.update_of_ne hlo]
  have hqr := h.apart hf hq (toList r) fun y hy => ⟨hsubr y hy, fun heq => hqnot (by simp [heq, hy])⟩
  refine ⟨?_, ?_, ?_⟩
  · rw [hsplit, hspared t.lo ⟨(h.lo_free q hq).2, h.lo_ne_hi, fun y hy => h.lo_free y (hsubr y hy)⟩,
      Function.update_self]
    refine .node hqp hlive ?_ hlow
    rw [hkept _ (h.lo_free q hq).1.symm (pair_ne_succ _ _ _) (h.hi_free q hq).1.symm hqr.1]
    refine hleft.frame fun x hx => ?_
    have hxr := h.apart hf (hsubl x hx) (toList r) fun y hy => ⟨hsubr y hy, hdisjoint x hx y hy⟩
    have hxq := h.apart hf (hsubl x hx) [q] fun y hy => by
      obtain rfl := List.mem_singleton.mp hy
      exact ⟨hq, fun heq => hqnot (by simp [← heq, hx])⟩
    obtain ⟨hlo, hlo'⟩ := h.lo_free x (hsubl x hx)
    obtain ⟨hhi, hhi'⟩ := h.hi_free x (hsubl x hx)
    exact ⟨hkept _ hlo.symm (pair_ne_succ _ _ _) hhi.symm hxr.1,
      hkept _ hlo'.symm (hxq.2 q List.mem_cons_self).2 hhi'.symm hxr.2⟩
  · rw [hsplit]
    exact hhigh
  · rintro cell ⟨hlo, hhi, hcell⟩
    exact hkept cell hlo (hcell q hq).2 hhi fun y hy => hcell y (hsubr y hy)

theorem landed_high (h : Descent f p cut t (.node q l r)) (hf : f.Fits) {n k m d : ℕ}
    (hside : side f.s p cut q = .gt)
    (hl : Landed f p cut n ((t.note f want m d).goHigh (pair f.wmask q) k) l son) :
    Landed f p cut (n + 1) t (.node q l r) son := by
  obtain ⟨hc, ⟨hqp, hlive⟩, -, hright⟩ := h.sides
  have hq : q ∈ toList (.node q l r) := List.mem_cons_self
  have hsubl : ∀ x ∈ toList l, x ∈ toList (.node q l r) := by simp +contextual
  have hsubr : ∀ x ∈ toList r, x ∈ toList (.node q l r) := by simp +contextual
  obtain ⟨hqnot, hnodup⟩ := List.nodup_cons.mp h.nodup
  have hdisjoint := (List.nodup_append.mp hnodup).2.2
  obtain ⟨hlow, hhigh, hspared⟩ := hl
  simp only [Walk.goHigh, note_son, note_lo, note_hi, note_c, hc, Spared] at hlow hhigh hspared
  have hsplit : split (side f.s p cut) (n + 1) (.node q l r) =
      ((split (side f.s p cut) n l).1, .node q (split (side f.s p cut) n l).2 r) := by rw [split, hside]
  have hkept : ∀ cell, cell ≠ t.hi → cell ≠ pair f.wmask q → cell ≠ t.lo →
      (∀ y ∈ toList l, cell ≠ pair f.wmask y ∧ cell ≠ pair f.wmask y + 1) → son cell = t.son cell := by
    intro cell hhi hq0 hlo hl
    rw [hspared cell ⟨hlo, hq0, hl⟩, Function.update_of_ne hhi]
  have hql := h.apart hf hq (toList l) fun y hy => ⟨hsubl y hy, fun heq => hqnot (by simp [heq, hy])⟩
  refine ⟨?_, ?_, ?_⟩
  · rw [hsplit]
    exact hlow
  · rw [hsplit, hspared t.hi ⟨h.lo_ne_hi.symm, (h.hi_free q hq).1, fun y hy => h.hi_free y (hsubl y hy)⟩,
      Function.update_self]
    refine .node hqp hlive hhigh ?_
    rw [hkept _ (h.hi_free q hq).2.symm (pair_ne_succ _ _ _).symm (h.lo_free q hq).2.symm hql.2]
    refine hright.frame fun x hx => ?_
    have hxl := h.apart hf (hsubr x hx) (toList l) fun y hy =>
      ⟨hsubl y hy, fun heq => hdisjoint y hy x hx heq.symm⟩
    have hxq := h.apart hf (hsubr x hx) [q] fun y hy => by
      obtain rfl := List.mem_singleton.mp hy
      exact ⟨hq, fun heq => hqnot (by simp [← heq, hx])⟩
    obtain ⟨hlo, hlo'⟩ := h.lo_free x (hsubr x hx)
    obtain ⟨hhi, hhi'⟩ := h.hi_free x (hsubr x hx)
    exact ⟨hkept _ hhi.symm (hxq.1 q List.mem_cons_self).1 hlo.symm hxl.1,
      hkept _ hhi'.symm (pair_ne_succ _ _ _).symm hlo'.symm hxl.2⟩
  · rintro cell ⟨hlo, hhi, hcell⟩
    exact hkept cell hhi (hcell q hq).1 hlo fun y hy => hcell y (hsubl y hy)

/-- The walk leaves the tree split around the new root. -/
theorem walk_lands (wide want : Bool) (hf : f.Fits) (h : Descent f p cut t T) (n : ℕ) :
    Landed f p cut n t T (lzfWalk wide f p cut want n t).son := by
  induction n generalizing t T with
  | zero => exact landed_close h (by cases T <;> rfl)
  | succ n ih =>
      cases T with
      | nil =>
          rw [walk_nil h]
          exact landed_close h rfl
      | node q l r =>
          rw [walk_node h]
          cases hside : side f.s p cut q with
          | eq =>
              have hson : ((t.note f want (common f.s p cut q) (p - q - 1)).adopt (pair f.wmask q)).son =
                  (t.adopt (pair f.wmask q)).son := by simp only [Walk.adopt, note_son, note_lo, note_hi]
              simp only [hson]
              exact landed_adopt h hside
          | lt => exact landed_low h hf hside (ih (h.low hf hside))
          | gt => exact landed_high h hf hside (ih (h.high hf hside))

/-! ### What it finds -/

/-- The bytes agree over the whole length, and are there; the distance, less one, keeps to the reach. -/
structure IsMatch (s : List UInt8) (reach p : ℕ) (m : ℕ × ℕ) : Prop where
  room : p + m.1 ≤ s.length
  back : m.2 < p
  reach_le : m.2 + 1 ≤ reach
  agree : AgreeTo m.1 (bytesFrom s (p - (m.2 + 1))) (bytesFrom s p)

/-- The matches at `p`, none longer than `best`. -/
structure Matches (s : List UInt8) (reach p best : ℕ) (ms : List (ℕ × ℕ)) : Prop where
  rising : ms.Pairwise fun m m' => m.1 < m'.1
  le_best : ∀ m ∈ ms, m.1 ≤ best
  isMatch : ∀ m ∈ ms, IsMatch s reach p m

theorem Matches.snoc {best l d : ℕ} {ms : List (ℕ × ℕ)} (h : Matches f.s f.reach p best ms) (hl : best < l)
    (hm : IsMatch f.s f.reach p (l, d)) : Matches f.s f.reach p l (ms ++ [(l, d)]) := by
  refine ⟨List.pairwise_append.mpr ⟨h.rising, List.pairwise_singleton _ _, ?_⟩, ?_, ?_⟩
  · intro m hm m' hm'
    obtain rfl := List.mem_singleton.mp hm'
    exact Nat.lt_of_le_of_lt (h.le_best m hm) hl
  · intro m hm
    rcases List.mem_append.mp hm with hm | hm
    · exact (h.le_best m hm).trans hl.le
    · rw [List.mem_singleton.mp hm]
  · intro m' hm'
    rcases List.mem_append.mp hm' with hm' | hm'
    · exact h.isMatch m' hm'
    · rwa [List.mem_singleton.mp hm']

theorem Matches.sublist {best : ℕ} {ms ms' : List (ℕ × ℕ)} (h : Matches f.s f.reach p best ms) (hs : ms'.Sublist ms) :
    Matches f.s f.reach p best ms' :=
  ⟨h.rising.sublist hs, fun m hm => h.le_best m (hs.subset hm), fun m hm => h.isMatch m (hs.subset hm)⟩

theorem Matches.note (want : Bool) (h : Matches f.s f.reach p t.best t.ms) {k d : ℕ} (hm : IsMatch f.s f.reach p (k, d)) :
    Matches f.s f.reach p (t.note f want k d).best (t.note f want k d).ms := by
  rw [Walk.note]
  split
  next hc =>
    refine Matches.snoc ?_ hc.1 hm
    split
    · exact h.sublist (List.dropLast_sublist _)
    · exact h
  · exact h

/-- Each node on the way down is a match as far as it agrees. -/
theorem Descent.isMatch (h : Descent f p cut t (.node q l r)) (hroom : p + cut ≤ f.s.length) :
    IsMatch f.s f.reach p (common f.s p cut q, p - q - 1) := by
  obtain ⟨-, ⟨hqp, hlive⟩, -, -⟩ := h.sides
  have hq : p - (p - q - 1 + 1) = q := by omega
  refine ⟨?_, by omega, by omega, ?_⟩
  · exact (Nat.add_le_add_left (longest_common f.s p cut q).le p).trans hroom
  · rw [hq]
    exact (longest_common f.s p cut q).agree

theorem walk_matches (wide want : Bool) (hf : f.Fits) (hroom : p + cut ≤ f.s.length) (h : Descent f p cut t T)
    (hm : Matches f.s f.reach p t.best t.ms) (n : ℕ) :
    Matches f.s f.reach p (lzfWalk wide f p cut want n t).best (lzfWalk wide f p cut want n t).ms := by
  induction n generalizing t T with
  | zero => exact hm
  | succ n ih =>
      cases T with
      | nil =>
          rw [walk_nil h]
          exact hm
      | node q l r =>
          rw [walk_node h]
          have hnote := hm.note want (h.isMatch hroom)
          cases hside : side f.s p cut q with
          | eq => exact hnote
          | lt => exact ih (h.low hf hside) hnote
          | gt => exact ih (h.high hf hside) hnote

end LoveRuntime.Lzfind
