import Mathlib.Order.Interval.Finset.Nat
import LoveRuntime.Library.JoinForest
import LoveRuntime.Model.Compress.PrefixCode

/-! # The merge through two queues

Each step takes two roots, whatever the weights, so the leaves make a full code; where
every leaf weighs one the queues are one, and no leaf is deep. -/

namespace LoveRuntime.PrefixCode

open Loop JoinForest Finset

/-- The parents as `pa` keeps them. -/
def parOf (pa : Cells ℕ) (i : ℕ) : Option ℕ := if pa i = 0 then none else some (pa i - 1)

/-- What both queues still hold. -/
def Merger.roots (nl top : ℕ) (e : Merger) : Finset ℕ := Ico e.li nl ∪ Ico e.ii top

theorem mem_roots {nl top x : ℕ} {e : Merger} :
    x ∈ e.roots nl top ↔ (e.li ≤ x ∧ x < nl) ∨ (e.ii ≤ x ∧ x < top) := by
  simp [Merger.roots]

/-- What a pick leaves: the head of one queue is gone and nothing else has changed. -/
structure Picks (nl top : ℕ) (e : Merger) (r : ℕ × Merger) : Prop where
  mem : r.1 ∈ e.roots nl top
  roots : r.2.roots nl top = (e.roots nl top).erase r.1
  w : r.2.w = e.w
  pa : r.2.pa = e.pa
  ii_ge : nl ≤ r.2.ii
  taken : r.2.li + r.2.ii = e.li + e.ii + 1
  queues : e.li ≤ nl ∧ e.ii ≤ top → r.2.li ≤ nl ∧ r.2.ii ≤ top

theorem pick_spec {nl top : ℕ} {e : Merger} (hii : nl ≤ e.ii) (hne : (e.roots nl top).Nonempty) :
    Picks nl top e (pick nl top e) := by
  unfold pick
  by_cases hp : pickLeaf nl top e = true
  case pos =>
      have hli : e.li < nl := by
        simp only [pickLeaf, Bool.and_eq_true, decide_eq_true_eq] at hp
        exact hp.1
      rw [if_pos hp]
      refine ⟨mem_roots.mpr (.inl ⟨Nat.le_refl _, hli⟩), ?_, rfl, rfl, hii, by dsimp only; omega,
        fun h => ⟨hli, h.2⟩⟩
      ext x
      rw [mem_erase, mem_roots, mem_roots]
      dsimp only
      omega
  case neg =>
      have hlt : e.ii < top := by
        obtain ⟨x, hx⟩ := hne
        rw [mem_roots] at hx
        simp only [pickLeaf, Bool.and_eq_true, decide_eq_true_eq, Bool.or_eq_true] at hp
        omega
      rw [if_neg hp]
      refine ⟨mem_roots.mpr (.inr ⟨Nat.le_refl _, hlt⟩), ?_, rfl, rfl, by dsimp only; omega,
        by dsimp only; omega, fun h => ⟨h.1, hlt⟩⟩
      ext x
      rw [mem_erase, mem_roots, mem_roots]
      dsimp only
      omega

theorem card_roots {nl top : ℕ} {e : Merger} (hii : nl ≤ e.ii) :
    #(e.roots nl top) = (nl - e.li) + (top - e.ii) := by
  rw [Merger.roots, card_union_of_disjoint, Nat.card_Ico, Nat.card_Ico]
  refine disjoint_left.mpr fun x hx hx' => ?_
  have := (mem_Ico.mp hx).2
  have := (mem_Ico.mp hx').1
  omega

theorem parOf_set (pa : Cells ℕ) {a b top : ℕ} (htop : pa top = 0) (ha : a < top) (hb : b < top) :
    parOf ((pa.set a (top + 1)).set b (top + 1)) = joined (parOf pa) a b top := by
  funext x
  by_cases hxb : x = b
  · rw [hxb, joined_right, parOf, Cells.set_self, if_neg (Nat.succ_ne_zero top), Nat.add_sub_cancel]
  by_cases hxa : x = a
  · rw [hxa, joined_left (hxa ▸ hxb), parOf, Cells.set_of_ne _ _ (hxa ▸ hxb), Cells.set_self,
      if_neg (Nat.succ_ne_zero top), Nat.add_sub_cancel]
  by_cases hxt : x = top
  · rw [hxt, joined_new (Nat.ne_of_gt ha) (Nat.ne_of_gt hb), parOf,
      Cells.set_of_ne _ _ (Nat.ne_of_gt hb), Cells.set_of_ne _ _ (Nat.ne_of_gt ha), htop, if_pos rfl]
  · rw [joined_of_ne hxt hxa hxb, parOf, parOf, Cells.set_of_ne _ _ hxb, Cells.set_of_ne _ _ hxa]

/-- The merger after `t` joins. -/
structure Merges (nl t : ℕ) (e : Merger) : Prop where
  ii_ge : nl ≤ e.ii
  taken : e.li + e.ii = 2 * t + nl
  queues : e.li ≤ nl ∧ e.ii ≤ nl + (t - 1)
  fresh : ∀ x, nl + t ≤ x → e.pa x = 0
  shape : ∃ D T, Shape nl (parOf e.pa) (e.roots nl (nl + t)) (nl + t) D T

theorem Merges.card {nl t : ℕ} {e : Merger} (h : Merges nl t e) (ht : t < nl) :
    #(e.roots nl (nl + t)) = nl - t := by
  have htaken := h.taken
  have hqueues := h.queues
  rw [card_roots h.ii_ge]
  omega

/-- What a join leaves of the two picks. -/
theorem mergeOnce_picks {nl t : ℕ} {e : Merger} (h : Merges nl t e) (ht : t + 1 < nl) :
    ∃ a e₁ b e₂, pick nl (nl + t) e = (a, e₁) ∧ pick nl (nl + t) e₁ = (b, e₂) ∧
      Picks nl (nl + t) e (a, e₁) ∧ Picks nl (nl + t) e₁ (b, e₂) := by
  have hcard := h.card (by omega)
  have hfst := pick_spec h.ii_ge (card_pos.mp (by omega : 0 < #(e.roots nl (nl + t))))
  rcases hp : pick nl (nl + t) e with ⟨a, e₁⟩
  rw [hp] at hfst
  have hcard' := card_erase_of_mem hfst.mem
  rw [← hfst.roots, hcard] at hcard'
  dsimp only at hcard'
  have hsnd := pick_spec hfst.ii_ge (card_pos.mp (by omega : 0 < #(e₁.roots nl (nl + t))))
  rcases hq : pick nl (nl + t) e₁ with ⟨b, e₂⟩
  rw [hq] at hsnd
  exact ⟨a, e₁, b, e₂, rfl, hq, hfst, hsnd⟩

theorem Merges.join {nl t : ℕ} {e : Merger} (h : Merges nl t e) (ht : t + 1 < nl) :
    Merges nl (t + 1) (mergeOnce nl (nl + t) e) := by
  obtain ⟨a, e₁, b, e₂, hp, hq, hfst, hsnd⟩ := mergeOnce_picks h ht
  have hle := h.queues
  have hqueues := hsnd.queues (hfst.queues ⟨hle.1, by omega⟩)
  have htaken := h.taken
  have hone := hfst.taken
  have htwo := hsnd.taken
  have hb := hsnd.mem
  rw [hfst.roots, mem_erase] at hb
  have heq : mergeOnce nl (nl + t) e =
      { e₂ with
        w := e₂.w.set (nl + t) (e₂.w a + e₂.w b)
        pa := (e₂.pa.set a (nl + t + 1)).set b (nl + t + 1) } := by
    simp only [mergeOnce, hp, hq]
  obtain ⟨D, T, hshape⟩ := h.shape
  have ha : a < nl + t := hshape.act_lt a hfst.mem
  have hb' : b < nl + t := hshape.act_lt b hb.2
  have hpa : e₂.pa = e.pa := hsnd.pa.trans hfst.pa
  have hroots : (mergeOnce nl (nl + t) e).roots nl (nl + (t + 1)) =
      insert (nl + t) (((e.roots nl (nl + t)).erase a).erase b) := by
    rw [← hfst.roots, ← hsnd.roots, heq]
    ext x
    rw [mem_insert, mem_roots, mem_roots]
    dsimp only
    dsimp only at hqueues
    omega
  have hpar : parOf (mergeOnce nl (nl + t) e).pa = joined (parOf e.pa) a b (nl + t) := by
    rw [heq]
    dsimp only
    rw [hpa]
    exact parOf_set e.pa (h.fresh _ (Nat.le_refl _)) ha hb'
  refine ⟨?_, ?_, ?_, ?_, _, _, hroots ▸ hpar ▸ hshape.join hfst.mem hb.2 hb.1.symm⟩
  · rw [heq]
    exact hsnd.ii_ge
  · rw [heq]
    dsimp only at hone htwo ⊢
    omega
  · rw [heq]
    exact hqueues
  · intro x hx
    rw [heq]
    dsimp only
    rw [hpa, Cells.set_of_ne _ _ (by omega), Cells.set_of_ne _ _ (by omega)]
    exact h.fresh x (by omega)

theorem Merges.start (nl : ℕ) (keys : Cells ℕ) :
    Merges nl 0 ⟨⟨2 * nl, fun i => keys i >>> 12⟩, Cells.fill (2 * nl) 0, 0, nl⟩ := by
  refine ⟨Nat.le_refl _, by simp, ⟨Nat.zero_le _, Nat.le_refl _⟩, fun _ _ => rfl,
    fun _ => 0, id, ?_⟩
  have hroots : Merger.roots nl (nl + 0)
      ⟨⟨2 * nl, fun i => keys i >>> 12⟩, Cells.fill (2 * nl) 0, 0, nl⟩ = range nl := by
    ext x
    rw [mem_roots, mem_range]
    dsimp only
    omega
  rw [hroots]
  exact Shape.start fun i _ => rfl

theorem mergeAll_merges {nl : ℕ} (keys : Cells ℕ) : Merges nl (nl - 1) (mergeAll nl keys) :=
  upto_invariant (fun t e => Merges nl t e) (.start nl keys) fun _ _ ht h => h.join (by omega)

/-- The leaves' depths under the last root. -/
theorem mergeAll_shape {nl : ℕ} (hnl : 1 ≤ nl) (keys : Cells ℕ) :
    ∃ D T, Shape nl (parOf (mergeAll nl keys).pa) {2 * nl - 2} (2 * nl - 1) D T := by
  have h := @mergeAll_merges nl keys
  obtain ⟨D, T, hshape⟩ := h.shape
  have hcard := h.card (by omega)
  have htaken := h.taken
  have hqueues := h.queues
  obtain ⟨r, hr⟩ := card_eq_one.mp (by omega : #((mergeAll nl keys).roots nl (nl + (nl - 1))) = 1)
  have hmem : 2 * nl - 2 ∈ (mergeAll nl keys).roots nl (nl + (nl - 1)) := by
    rw [mem_roots]
    omega
  have htop : nl + (nl - 1) = 2 * nl - 1 := by omega
  rw [hr, mem_singleton] at hmem
  rw [hr, ← hmem, htop] at hshape
  exact ⟨D, T, hshape⟩

theorem depthFrom_eq {pa : Cells ℕ} {i d r : ℕ} (h : Climbs (parOf pa) i d r) {fuel : ℕ}
    (hd : d ≤ fuel) : depthFrom pa fuel (pa i) = d := by
  induction h generalizing fuel with
  | @root r h =>
      have hz : pa r = 0 := by
        by_contra hne
        rw [parOf, if_neg hne] at h
        cases h
      cases fuel <;> simp [depthFrom, hz]
  | @step i p d r hp _ ih =>
      obtain ⟨fuel, rfl⟩ : ∃ f, fuel = f + 1 := ⟨fuel - 1, by omega⟩
      have hne : pa i ≠ 0 := by
        intro hz
        rw [parOf, if_pos hz] at hp
        cases hp
      rw [parOf, if_neg hne, Option.some.injEq] at hp
      rw [depthFrom, if_neg hne, hp, ih (by omega)]

/-! ## Leaves of one weight -/

/-- The two queues as one: a leaf while there is one, and the nodes taken in order. -/
structure Queue (nl t : ℕ) (e : Merger) : Prop where
  fifo : e.li < nl → e.ii = nl
  leaf : ∀ x < nl, e.w x = 1
  heavy : ∀ x < nl + t, 1 ≤ e.w x
  par : ∀ x < 2 * t, e.pa x = nl + x / 2 + 1

/-- From one queue the next node is picked. -/
theorem pick_queue {nl : ℕ} {e : Merger} (top : ℕ) (hfifo : e.li < nl → e.ii = nl)
    (hleaf : ∀ x < nl, e.w x = 1) (hheavy : ∀ x < top, 1 ≤ e.w x) (hli : e.li ≤ nl) :
    (pick nl top e).1 + nl = e.li + e.ii ∧
      ((pick nl top e).2.li < nl → (pick nl top e).2.ii = nl) := by
  unfold pick
  by_cases hlt : e.li < nl
  case pos =>
      have hfirst := hfifo hlt
      have hp : pickLeaf nl top e = true := by
        simp only [pickLeaf, Bool.and_eq_true, decide_eq_true_eq, Bool.or_eq_true]
        refine ⟨hlt, ?_⟩
        by_cases htop : top ≤ e.ii
        · exact .inl htop
        · rw [hleaf _ hlt]
          exact .inr (hheavy _ (Nat.lt_of_not_le htop))
      rw [if_pos hp]
      exact ⟨by dsimp only; omega, fun _ => hfirst⟩
  case neg =>
      have hp : ¬ pickLeaf nl top e = true := by
        simp only [pickLeaf, Bool.and_eq_true, decide_eq_true_eq]
        exact fun h => hlt h.1
      rw [if_neg hp]
      exact ⟨by dsimp only; omega, fun h => absurd h hlt⟩

theorem Queue.join {nl t : ℕ} {e : Merger} (h : Queue nl t e) (hm : Merges nl t e)
    (ht : t + 1 < nl) : Queue nl (t + 1) (mergeOnce nl (nl + t) e) := by
  obtain ⟨a, e₁, b, e₂, hp, hq, hfst, hsnd⟩ := mergeOnce_picks hm ht
  have hw : e₂.w = e.w := hsnd.w.trans hfst.w
  have hpa : e₂.pa = e.pa := hsnd.pa.trans hfst.pa
  have hone := hfst.taken
  have hle := hm.queues
  have hmid := hfst.queues ⟨hle.1, by omega⟩
  have htaken := hm.taken
  obtain ⟨ha, hfifo⟩ := pick_queue (nl + t) h.fifo h.leaf h.heavy hle.1
  rw [hp] at ha hfifo
  obtain ⟨hb, hfifo'⟩ := pick_queue (nl + t) hfifo (hfst.w ▸ h.leaf)
    (hfst.w ▸ h.heavy) hmid.1
  rw [hq] at hb hfifo'
  dsimp only at ha hb hone hfifo'
  have heq : mergeOnce nl (nl + t) e =
      { e₂ with
        w := e₂.w.set (nl + t) (e₂.w a + e₂.w b)
        pa := (e₂.pa.set a (nl + t + 1)).set b (nl + t + 1) } := by
    simp only [mergeOnce, hp, hq]
  rw [heq]
  obtain ⟨D, T, hshape⟩ := hm.shape
  have halt : a < nl + t := hshape.act_lt a hfst.mem
  refine ⟨hfifo', fun x hx => ?_, fun x hx => ?_, fun x hx => ?_⟩
  · dsimp only
    rw [hw, Cells.set_of_ne _ _ (by omega), h.leaf x hx]
  · dsimp only
    rw [hw]
    by_cases hxt : x = nl + t
    · rw [hxt, Cells.set_self]
      exact Nat.le_add_right_of_le (h.heavy a halt)
    · rw [Cells.set_of_ne _ _ hxt]
      exact h.heavy x (by omega)
  · dsimp only
    rw [hpa]
    by_cases hxb : x = b
    · rw [hxb, Cells.set_self]
      omega
    by_cases hxa : x = a
    · rw [Cells.set_of_ne _ _ hxb, hxa, Cells.set_self]
      omega
    · rw [Cells.set_of_ne _ _ hxb, Cells.set_of_ne _ _ hxa]
      exact h.par x (by omega)

theorem mergeAll_queue {nl : ℕ} {keys : Cells ℕ} (hkeys : ∀ k < nl, keys k >>> 12 = 1) :
    Queue nl (nl - 1) (mergeAll nl keys) := by
  have hstart : Queue nl 0 ⟨⟨2 * nl, fun i => keys i >>> 12⟩, Cells.fill (2 * nl) 0, 0, nl⟩ :=
    ⟨fun _ => rfl, hkeys, fun x hx => Nat.le_of_eq (hkeys x hx).symm,
      fun x hx => absurd hx (Nat.not_lt_zero x)⟩
  exact (upto_invariant (fun t e => Merges nl t e ∧ Queue nl t e) ⟨.start nl keys, hstart⟩
    fun _ _ ht h => ⟨h.1.join (by omega), h.2.join h.1 (by omega)⟩).2

/-- A node of one queue stands its own height from the end, halved at each step up. -/
theorem two_pow_le_of_queue {nl i d r : ℕ} {par : ℕ → Option ℕ} (h : Climbs par i d r)
    (hpar : ∀ x < 2 * nl - 2, par x = some (nl + x / 2)) (hlast : par (2 * nl - 2) = none)
    (hi : i < 2 * nl - 1) : 2 ^ d ≤ 2 * nl - 1 - i := by
  induction h with
  | root => omega
  | @step i p d r hp _ ih =>
      have hlt : i < 2 * nl - 2 := by
        rcases Nat.lt_or_eq_of_le (by omega : i ≤ 2 * nl - 2) with hlt | rfl
        · exact hlt
        · rw [hlast] at hp
          cases hp
      rw [hpar i hlt, Option.some.injEq] at hp
      have := ih (by omega)
      rw [pow_succ]
      omega

end LoveRuntime.PrefixCode
