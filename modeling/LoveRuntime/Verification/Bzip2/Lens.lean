import LoveRuntime.Library.CanonicalCode
import LoveRuntime.Library.JoinForest
import LoveRuntime.Model.Compress.Bzip2
import Mathlib.Data.Finset.Image
import Mathlib.Data.List.GetD
import Mathlib.Tactic.NormNum

/-! The code lengths: the joiner keeps a forest, so the lengths are complete, and
halving the counts brings them under the limit. -/

namespace LoveRuntime.Bzip2

open Loop Function JoinForest Finset

/-- The two lightest slots, in order. -/
structure Lightest (w act : ℕ → ℕ) (na : ℕ) (ab : ℕ × ℕ) : Prop where
  fst_lt : ab.1 < na
  snd_lt : ab.2 < na
  ne : ab.1 ≠ ab.2
  fst_le : ∀ i, i < na → w (act ab.1) ≤ w (act i)
  snd_le : ∀ i, i < na → i ≠ ab.1 → w (act ab.2) ≤ w (act i)

theorem lightest_spec (w act : ℕ → ℕ) {na : ℕ} (hna : 2 ≤ na) :
    Lightest w act na (lightest w act na) := by
  have hinv : ∀ m, m ≤ na - 2 → Lightest w act (m + 2) (upto m (fun i ab =>
      let i := i + 2
      if w (act i) < w (act ab.1) then (i, ab.1)
      else if w (act i) < w (act ab.2) then (ab.1, i)
      else ab) (if w (act 1) < w (act 0) then (1, 0) else (0, 1))) := by
    intro m hm
    induction m with
    | zero =>
        rw [upto_zero]
        have hcell : ∀ i, i < 0 + 2 → i = 0 ∨ i = 1 := by omega
        split
        next h =>
          refine ⟨by simp, by simp, by simp, fun i hi => ?_, fun i hi hne => ?_⟩
          · rcases hcell i hi with rfl | rfl <;> dsimp only <;> omega
          · rcases hcell i hi with rfl | rfl
            · exact Nat.le_refl _
            · exact absurd rfl hne
        next h =>
          refine ⟨by simp, by simp, by simp, fun i hi => ?_, fun i hi hne => ?_⟩
          · rcases hcell i hi with rfl | rfl <;> dsimp only <;> omega
          · rcases hcell i hi with rfl | rfl
            · exact absurd rfl hne
            · exact Nat.le_refl _
    | succ m ih =>
        have hm' := ih (by omega)
        rw [upto_succ]
        generalize upto m (fun i ab =>
          let i := i + 2
          if w (act i) < w (act ab.1) then (i, ab.1)
          else if w (act i) < w (act ab.2) then (ab.1, i)
          else ab) (if w (act 1) < w (act 0) then (1, 0) else (0, 1)) = ab at hm' ⊢
        obtain ⟨h1, h2, hne, hle, hle'⟩ := hm'
        dsimp only
        split
        next h =>
          refine ⟨by dsimp only; omega, by dsimp only; omega, by dsimp only; omega,
            fun i hi => ?_, fun i hi hi' => ?_⟩
          · rcases Nat.lt_or_eq_of_le (Nat.le_of_lt_succ hi) with hlt | rfl
            · have := hle i hlt
              dsimp only
              omega
            · exact Nat.le_refl _
          · exact hle i (by dsimp only at hi'; omega)
        next h =>
          split
          next h' =>
            refine ⟨by dsimp only; omega, by dsimp only; omega, by dsimp only; omega,
              fun i hi => ?_, fun i hi hi' => ?_⟩
            · rcases Nat.lt_or_eq_of_le (Nat.le_of_lt_succ hi) with hlt | rfl
              · exact hle i hlt
              · dsimp only
                omega
            · rcases Nat.lt_or_eq_of_le (Nat.le_of_lt_succ hi) with hlt | rfl
              · have := hle' i hlt hi'
                dsimp only
                omega
              · exact Nat.le_refl _
          next h' =>
            refine ⟨by omega, by omega, hne, fun i hi => ?_, fun i hi hi' => ?_⟩
            · rcases Nat.lt_or_eq_of_le (Nat.le_of_lt_succ hi) with hlt | rfl
              · exact hle i hlt
              · omega
            · rcases Nat.lt_or_eq_of_le (Nat.le_of_lt_succ hi) with hlt | rfl
              · exact hle' i hlt hi'
              · omega
  have := hinv (na - 2) (Nat.le_refl _)
  rwa [Nat.sub_add_cancel hna] at this

/-! ### The joiner -/

/-- The roots in the slots. -/
def Joiner.roots (e : Joiner) : Finset ℕ := (range e.na).image e.act

/-- The joiner's trees, over leaves of the weights `f`; a forest where no sum wraps. -/
structure Joins (n : ℕ) (f : ℕ → ℕ) (e : Joiner) : Prop where
  na_pos : 1 ≤ e.na
  inj : ∀ i j, i < e.na → j < e.na → e.act i = e.act j → i = j
  size : e.m + e.na = 2 * n
  shape : ∃ D T, Shape n e.par e.roots e.m D T ∧
    (∑ i ∈ range n, f i < 2 ^ 32 →
      Forest n e.w e.par e.roots e.m D T ∧ ∑ x ∈ e.roots, e.w x = ∑ i ∈ range n, f i)

theorem mem_roots {e : Joiner} {x : ℕ} : x ∈ e.roots ↔ ∃ i, i < e.na ∧ e.act i = x := by
  simp [Joiner.roots]

theorem roots_join {e : Joiner} (hna : 2 ≤ e.na)
    (hinj : ∀ i j, i < e.na → j < e.na → e.act i = e.act j → i = j) :
    (join e).roots = insert e.m ((e.roots.erase (e.act (lightest e.w e.act e.na).1)).erase
      (e.act (lightest e.w e.act e.na).2)) := by
  obtain ⟨ha, hb, hne, -, -⟩ := lightest_spec e.w e.act hna
  generalize hab : lightest e.w e.act e.na = ab at ha hb hne
  ext x
  rw [mem_roots, mem_insert, mem_erase, mem_erase, mem_roots]
  have hact : (join e).act = update (update e.act (max ab.1 ab.2) (e.act (e.na - 1)))
      (min ab.1 ab.2) e.m := by rw [← hab]; rfl
  have hna' : (join e).na = e.na - 1 := rfl
  rw [hact, hna']
  constructor
  · rintro ⟨j, hj, rfl⟩
    by_cases hlo : j = min ab.1 ab.2
    · exact Or.inl (by rw [hlo, update_self])
    by_cases hhi : j = max ab.1 ab.2
    · refine Or.inr ?_
      rw [update_of_ne hlo, hhi, update_self]
      refine ⟨fun h => ?_, fun h => ?_, e.na - 1, by omega, rfl⟩
      · have := hinj _ _ (by omega) hb h
        omega
      · have := hinj _ _ (by omega) ha h
        omega
    · refine Or.inr ?_
      rw [update_of_ne hlo, update_of_ne hhi]
      refine ⟨fun h => ?_, fun h => ?_, j, by omega, rfl⟩
      · have := hinj _ _ (by omega) hb h
        omega
      · have := hinj _ _ (by omega) ha h
        omega
  · rintro (rfl | ⟨hxb, hxa, j, hj, rfl⟩)
    · exact ⟨min ab.1 ab.2, by omega, by rw [update_self]⟩
    · have hja : j ≠ ab.1 := fun h => hxa (by rw [h])
      have hjb : j ≠ ab.2 := fun h => hxb (by rw [h])
      by_cases hlast : j = e.na - 1
      · refine ⟨max ab.1 ab.2, by omega, ?_⟩
        rw [update_of_ne (by omega), update_self, hlast]
      · refine ⟨j, by omega, ?_⟩
        rw [update_of_ne (by omega), update_of_ne (by omega)]

theorem Joins.join {n : ℕ} {f : ℕ → ℕ} {e : Joiner} (h : Joins n f e) (hna : 2 ≤ e.na) :
    Joins n f (join e) := by
  have hroots := roots_join hna h.inj
  obtain ⟨ha, hb, hne, hla, hlb⟩ := lightest_spec e.w e.act hna
  generalize hab : lightest e.w e.act e.na = ab at ha hb hne hla hlb hroots
  obtain ⟨D, T, hs, hf⟩ := h.shape
  have hact : (Bzip2.join e).act = update (update e.act (max ab.1 ab.2) (e.act (e.na - 1)))
      (min ab.1 ab.2) e.m := by rw [← hab]; rfl
  have hw : (Bzip2.join e).w = update e.w e.m ((e.w (e.act ab.1) + e.w (e.act ab.2)) % 2 ^ 32) := by
    rw [← hab]; rfl
  have hpar : (Bzip2.join e).par = joined e.par (e.act ab.1) (e.act ab.2) e.m := by
    rw [← hab]; rfl
  have hamem : e.act ab.1 ∈ e.roots := mem_roots.mpr ⟨_, ha, rfl⟩
  have hbmem : e.act ab.2 ∈ e.roots := mem_roots.mpr ⟨_, hb, rfl⟩
  have hneq : e.act ab.1 ≠ e.act ab.2 := fun heq => hne (h.inj _ _ ha hb heq)
  have hfresh : ∀ i, i < e.na → e.act i ≠ e.m := fun i hi =>
    Nat.ne_of_lt (hs.act_lt _ (mem_roots.mpr ⟨i, hi, rfl⟩))
  have hother : ∀ x, x ≠ e.m → (Bzip2.join e).w x = e.w x := fun x hx => by rw [hw, update_of_ne hx]
  have hsize := h.size
  refine ⟨by change 1 ≤ e.na - 1; omega, fun i j hi hj hij => ?_,
    by change e.m + 1 + (e.na - 1) = 2 * n; omega, ?_⟩
  · change i < e.na - 1 at hi
    change j < e.na - 1 at hj
    rw [hact] at hij
    by_cases hilo : i = min ab.1 ab.2 <;> by_cases hjlo : j = min ab.1 ab.2
    · omega
    · rw [hilo, update_self, update_of_ne hjlo] at hij
      by_cases hjhi : j = max ab.1 ab.2
      · rw [hjhi, update_self] at hij
        exact absurd hij.symm (hfresh _ (by omega))
      · rw [update_of_ne hjhi] at hij
        exact absurd hij.symm (hfresh _ (by omega))
    · rw [hjlo, update_self, update_of_ne hilo] at hij
      by_cases hihi : i = max ab.1 ab.2
      · rw [hihi, update_self] at hij
        exact absurd hij (hfresh _ (by omega))
      · rw [update_of_ne hihi] at hij
        exact absurd hij (hfresh _ (by omega))
    · rw [update_of_ne hilo, update_of_ne hjlo] at hij
      by_cases hihi : i = max ab.1 ab.2 <;> by_cases hjhi : j = max ab.1 ab.2
      · omega
      · rw [hihi, update_self, update_of_ne hjhi] at hij
        have := h.inj _ _ (by omega) (by omega) hij
        omega
      · rw [hjhi, update_self, update_of_ne hihi] at hij
        have := h.inj _ _ (by omega) (by omega) hij
        omega
      · rw [update_of_ne hihi, update_of_ne hjhi] at hij
        exact h.inj _ _ (by omega) (by omega) hij
  · have hjoin := hs.join hamem hbmem hneq
    rw [← hroots, ← hpar] at hjoin
    refine ⟨_, _, hjoin, fun hlt => ?_⟩
    obtain ⟨hforest, hweight⟩ := hf hlt
    have hleast : ∀ x ∈ e.roots, e.w (e.act ab.1) ≤ e.w x := fun x hx => by
      obtain ⟨i, hi, rfl⟩ := mem_roots.mp hx
      exact hla i hi
    have hnext : ∀ x ∈ e.roots, x ≠ e.act ab.1 → e.w (e.act ab.2) ≤ e.w x := fun x hx hxa => by
      obtain ⟨i, hi, rfl⟩ := mem_roots.mp hx
      exact hlb i hi fun hia => hxa (by rw [hia])
    have hpair : e.w (e.act ab.1) + e.w (e.act ab.2) ≤ ∑ x ∈ e.roots, e.w x := by
      rw [← sum_pair hneq]
      refine sum_le_sum_of_subset fun x hx => ?_
      rcases mem_insert.mp hx with rfl | hx
      · exact hamem
      · exact mem_singleton.mp hx ▸ hbmem
    have hnew : (Bzip2.join e).w e.m = e.w (e.act ab.1) + e.w (e.act ab.2) := by
      rw [hw, update_self, Nat.mod_eq_of_lt (Nat.lt_of_le_of_lt hpair (hweight ▸ hlt))]
    constructor
    · have hjoin' := hforest.join hamem hbmem hneq hleast hnext hother hnew
      rwa [← hroots, ← hpar] at hjoin'
    · rw [hroots, weight_join hamem hbmem hneq
        (fun hm => Nat.lt_irrefl _ (hs.act_lt _ hm)) hother hnew]
      exact hweight

theorem joinLoop_joins {n : ℕ} {f : ℕ → ℕ} (fuel : ℕ) {e : Joiner} (h : Joins n f e)
    (hfuel : e.na ≤ fuel + 1) : Joins n f (joinLoop fuel e) ∧ (joinLoop fuel e).na = 1 := by
  induction fuel generalizing e with
  | zero => exact ⟨h, Nat.le_antisymm hfuel h.na_pos⟩
  | succ fuel ih =>
      rw [joinLoop]
      split
      next hna =>
        refine ih (h.join hna) ?_
        change e.na - 1 ≤ fuel + 1
        omega
      next hna => exact ⟨h, Nat.le_antisymm (Nat.le_of_not_lt hna) h.na_pos⟩

theorem climb_eq {par : ℕ → Option ℕ} {i d r : ℕ} (h : Climbs par i d r) {fuel : ℕ} (hd : d ≤ fuel) :
    climb par fuel (par i) = d := by
  induction h generalizing fuel with
  | root h => cases fuel <;> simp [climb, h]
  | step hp _ ih =>
      cases fuel with
      | zero => omega
      | succ fuel => rw [hp, climb, ih (by omega)]

/-! ### The lengths -/

theorem le_foldl_max (ls : List ℕ) (a : ℕ) {l : ℕ} (h : l ≤ a ∨ l ∈ ls) : l ≤ ls.foldl max a := by
  induction ls generalizing a with
  | nil => simpa using h
  | cons x ls ih =>
      refine ih (max a x) ?_
      rcases h with h | h
      · exact Or.inl (Nat.le_trans h (Nat.le_max_left _ _))
      · rcases List.mem_cons.mp h with rfl | h
        · exact Or.inl (Nat.le_max_right _ _)
        · exact Or.inr h

theorem foldl_max_le (ls : List ℕ) {a b : ℕ} (ha : a ≤ b) (h : ∀ l ∈ ls, l ≤ b) :
    ls.foldl max a ≤ b := by
  induction ls generalizing a with
  | nil => exact ha
  | cons l ls ih =>
      exact ih (Nat.max_le.mpr ⟨ha, h l (List.mem_cons_self ..)⟩)
        fun l hl => h l (List.mem_cons_of_mem _ hl)

/-- Lengths that make a full code of `n` symbols. -/
structure Full (n : ℕ) (len : List ℕ) : Prop where
  length : len.length = n
  pos : ∀ l ∈ len, 1 ≤ l
  kraft : ∀ L, (∀ l ∈ len, l ≤ L) → CanonicalCode.kraft (fun i => len.getD i 0) n L = 2 ^ L

/-- One pass: a full code, no longer than Fibonacci's numbers allow. -/
theorem lensPass_spec {n : ℕ} (hn : 2 ≤ n) {f : ℕ → ℕ} (hf : ∀ i, i < n → 1 ≤ f i) :
    Full n (lensPass n f) ∧
      ∀ L, ∑ i ∈ range n, f i < Nat.fib (L + 3) → ∑ i ∈ range n, f i < 2 ^ 32 →
        ∀ l ∈ lensPass n f, l ≤ L := by
  have hstart : Joins n f { w := f, par := fun _ => none, act := fun i => i, m := n, na := n } := by
    have hroots : Joiner.roots { w := f, par := fun _ => none, act := fun i => i, m := n, na := n } =
        range n := by
      ext x
      simp [mem_roots]
    have hleaves : Forest n f (fun _ => none) (range n) n (fun _ => 0) id :=
      Forest.start hf fun _ _ => rfl
    rw [← hroots] at hleaves
    exact ⟨by change 1 ≤ n; omega, fun _ _ _ _ h => h, (Nat.two_mul n).symm, _, _,
      hleaves.toShape, fun _ => ⟨hleaves, by rw [hroots]⟩⟩
  obtain ⟨hj, hna⟩ := joinLoop_joins n hstart (Nat.le_succ n)
  let e := joinLoop n { w := f, par := fun _ => none, act := fun i => i, m := n, na := n }
  obtain ⟨D, T, hshape, hforest⟩ := hj.shape
  have hroot : e.roots = {e.act 0} := by
    ext x
    rw [mem_roots, show e.na = 1 from hna, mem_singleton]
    exact ⟨fun ⟨i, hi, h⟩ => by rw [← h, Nat.lt_one_iff.mp hi], fun h => ⟨0, by omega, h.symm⟩⟩
  have hone : Shape n e.par {e.act 0} e.m D T := hroot ▸ hshape
  have hm : e.m ≤ 2 * n := Nat.le.intro hj.size
  have hlen : ∀ i, i < n → (lensPass n f).getD i 0 = D i := by
    intro i hi
    have hdeep : D i ≤ 2 * n := by
      have := hone.deep i hi
      omega
    have hclimb := climb_eq (hone.climbs i hi) hdeep
    have hpos := hone.depth_pos hn hi
    have hget : (lensPass n f).getD i 0 =
        if climb e.par (2 * n) (e.par i) = 0 then 1 else climb e.par (2 * n) (e.par i) := by
      simp [lensPass, hi, e]
    rw [hget, hclimb, if_neg (by omega)]
  have hlength : (lensPass n f).length = n := by simp [lensPass]
  have hmem : ∀ l ∈ lensPass n f, ∃ i, i < n ∧ l = D i := by
    intro l hl
    obtain ⟨i, hi, rfl⟩ := List.mem_iff_getElem.mp hl
    rw [hlength] at hi
    refine ⟨i, hi, ?_⟩
    rw [← hlen i hi, List.getD_eq_getElem]
  refine ⟨⟨hlength, fun l hl => ?_, fun L hL => ?_⟩, fun L hL hlt l hl => ?_⟩
  · obtain ⟨i, hi, rfl⟩ := hmem l hl
    exact hone.depth_pos hn hi
  · have hle : ∀ i, i < n → D i ≤ L := fun i hi => by
      rw [← hlen i hi]
      exact hL _ (by rw [List.getD_eq_getElem _ _ (by omega)]; exact List.getElem_mem _)
    rw [← hone.kraft_pow hle, CanonicalCode.kraft]
    refine sum_congr rfl fun i hi => ?_
    have hi' := mem_range.mp hi
    rw [hlen i hi', if_pos ⟨hone.depth_pos hn hi', hle i hi'⟩]
  · obtain ⟨i, hi, rfl⟩ := hmem l hl
    obtain ⟨hheavy, hweight⟩ := hforest hlt
    rw [show (joinLoop n _).roots = {e.act 0} from hroot] at hheavy hweight
    rw [sum_singleton] at hweight
    exact hheavy.depth_le (hweight ▸ hL) hi

theorem lensLoop_spec {n lim : ℕ} (hn : 2 ≤ n) (hlim : n * 3 < Nat.fib (lim + 3))
    (hwrap : n * 3 < 2 ^ 32) (fuel : ℕ)
    {f : ℕ → ℕ} (hpos : ∀ i, i < n → 1 ≤ f i) (hf : ∀ i, i < n → f i ≤ 2 + 2 ^ fuel) :
    Full n (lensLoop n lim fuel f) ∧ ∀ l ∈ lensLoop n lim fuel f, l ≤ lim := by
  induction fuel generalizing f with
  | zero =>
      obtain ⟨hfull, hle⟩ := lensPass_spec hn hpos
      have hsum : ∑ i ∈ range n, f i ≤ n * 3 := by
        simpa using sum_le_sum fun i hi => hf i (mem_range.mp hi)
      exact ⟨hfull, hle lim (Nat.lt_of_le_of_lt hsum hlim) (Nat.lt_of_le_of_lt hsum hwrap)⟩
  | succ fuel ih =>
      obtain ⟨hfull, -⟩ := lensPass_spec hn hpos
      rw [lensLoop]
      split
      next hmax => exact ⟨hfull, fun l hl => Nat.le_trans (le_foldl_max _ 0 (Or.inr hl)) hmax⟩
      next hmax =>
        refine ih (fun i _ => Nat.le_add_right 1 _) fun i hi => ?_
        have := hf i hi
        rw [pow_succ] at this
        omega

/-- The passes taken: every one but the last is over the limit. -/
theorem lensLoop_passes (n lim fuel : ℕ) (f : ℕ → ℕ) :
    ∃ k ≤ fuel, lensLoop n lim fuel f = lensPass n ((fun f i => 1 + f i / 2)^[k] f) ∧
      ∀ j < k, ¬ (lensPass n ((fun f i => 1 + f i / 2)^[j] f)).foldl max 0 ≤ lim := by
  induction fuel generalizing f with
  | zero => exact ⟨0, Nat.le_refl 0, rfl, fun j hj => absurd hj (Nat.not_lt_zero j)⟩
  | succ fuel ih =>
      rw [lensLoop]
      split
      next => exact ⟨0, Nat.zero_le _, rfl, fun j hj => absurd hj (Nat.not_lt_zero j)⟩
      next hmax =>
        obtain ⟨k, hk, heq, hover⟩ := ih fun i => 1 + f i / 2
        refine ⟨k + 1, Nat.succ_le_succ hk, heq, fun j hj => ?_⟩
        cases j with
        | zero => exact hmax
        | succ j => exact hover j (Nat.lt_of_succ_lt_succ hj)

/-- `bz_lens` answers a full code within the limit. -/
theorem bzLens_spec {n lim : ℕ} (hn : 2 ≤ n) (hlim : n * 3 < Nat.fib (lim + 3))
    (hwrap : n * 3 < 2 ^ 32) {f0 : ℕ → ℕ} (hf : ∀ i, i < n → f0 i ≤ 2 ^ 40) :
    Full n (bzLens f0 n lim) ∧ ∀ l ∈ bzLens f0 n lim, l ≤ lim := by
  refine lensLoop_spec hn hlim hwrap 40 (fun i _ => ?_) fun i hi => ?_
  · split <;> omega
  · have := hf i hi
    split <;> omega

end LoveRuntime.Bzip2

/-! The refinement: whatever the tables are seeded with, every group gets one of the
tables and every table codes every symbol. -/

namespace LoveRuntime.Bzip2

open Loop

/-- Tables and selectors a block may be written with. -/
structure Refined (ng alpha groups : ℕ) (tb : List (List ℕ) × List ℕ) : Prop where
  tables : tb.1.length = ng
  full : ∀ t, t < ng → Full alpha (tb.1.getD t [])
  short : ∀ t, t < ng → ∀ l ∈ tb.1.getD t [], l ≤ maxLen
  groups : tb.2.length = groups
  named : ∀ t ∈ tb.2, t < ng

theorem tableCount_bounds (nm : ℕ) : 2 ≤ tableCount nm ∧ tableCount nm ≤ 6 := by
  unfold tableCount
  split <;> [omega; split <;> [omega; split <;> [omega; split <;> omega]]]

theorem length_seedLens (freq : ℕ → ℕ) (alpha ng np rem gs : ℕ) :
    (seedLens freq alpha ng np rem gs).length = np := by
  induction np generalizing rem gs with
  | zero => rfl
  | succ np ih =>
      rw [seedLens, List.length_append, ih]
      rfl

theorem bestTable_lt {lens : List (List ℕ)} (h : lens ≠ []) (grp : List ℕ) :
    bestTable lens grp < lens.length := by
  have hpos := List.length_pos_iff.mpr h
  refine upto_invariant (fun _ bt => bt < lens.length) hpos fun t bt ht hbt => ?_
  dsimp only
  split <;> omega

theorem length_groupOf_le (mv : List ℕ) (g : ℕ) : (groupOf mv g).length ≤ gsize := by
  rw [groupOf, List.length_take]
  exact Nat.min_le_left _ _

/-- The symbols one table codes, counted. -/
theorem count_coded_le (mv : List ℕ) (p : ℕ → Prop) [DecidablePred p] (groups v : ℕ) :
    ((List.range groups).flatMap fun g => if p g then groupOf mv g else []).count v ≤
      groups * gsize := by
  induction groups with
  | zero => simp
  | succ groups ih =>
      rw [List.range_succ, List.flatMap_append, List.count_append, Nat.succ_mul]
      refine Nat.add_le_add ih ?_
      rw [List.flatMap_singleton]
      split
      · exact Nat.le_trans List.count_le_length (length_groupOf_le mv groups)
      · simp

theorem refine_refined {mv : List ℕ} {alpha : ℕ} (ha : 2 ≤ alpha) (ha' : alpha ≤ 258)
    (hmv : groupCount mv.length * gsize ≤ 2 ^ 40) {lens : List (List ℕ)} (hl : lens ≠ []) :
    Refined lens.length alpha (groupCount mv.length) (refine mv alpha lens) := by
  have hfib : alpha * 3 < Nat.fib (maxLen + 3) := by
    have : Nat.fib (maxLen + 3) = 6765 := by decide
    omega
  have htable : ∀ t, t < lens.length → ∃ p : ℕ → Prop, ∃ _ : DecidablePred p,
      (refine mv alpha lens).1.getD t [] = bzLens (fun v =>
        ((List.range (groupCount mv.length)).flatMap fun g => if p g then groupOf mv g else []).count v)
        alpha maxLen := fun t ht => by
    refine ⟨fun g => ((List.range (groupCount mv.length)).map fun g =>
      bestTable lens (groupOf mv g)).getD g 0 = t, inferInstance, ?_⟩
    simp [refine, ht]
  refine ⟨by simp [refine], fun t ht => ?_, fun t ht => ?_, by simp [refine], fun t ht => ?_⟩
  · obtain ⟨p, hp, heq⟩ := htable t ht
    rw [heq]
    exact (bzLens_spec ha hfib (by omega) fun v _ => Nat.le_trans (count_coded_le mv p _ v) hmv).1
  · obtain ⟨p, hp, heq⟩ := htable t ht
    rw [heq]
    exact (bzLens_spec ha hfib (by omega) fun v _ => Nat.le_trans (count_coded_le mv p _ v) hmv).2
  · obtain ⟨g, -, rfl⟩ := List.mem_map.mp ht
    exact bestTable_lt hl _

/-- Four refinements. -/
theorem tables_refined {mv : List ℕ} {alpha : ℕ} (ha : 2 ≤ alpha) (ha' : alpha ≤ 258)
    (hmv : groupCount mv.length * gsize ≤ 2 ^ 40) :
    Refined (tableCount mv.length) alpha (groupCount mv.length) (tables mv alpha) := by
  have hng := (tableCount_bounds mv.length).1
  have hseed := length_seedLens (fun v => mv.count v) alpha (tableCount mv.length)
    (tableCount mv.length) mv.length 0
  have hstep : ∀ st : List (List ℕ) × List ℕ, st.1.length = tableCount mv.length →
      Refined (tableCount mv.length) alpha (groupCount mv.length) (refine mv alpha st.1) :=
    fun st hst => hst ▸ refine_refined ha ha' hmv (List.ne_nil_of_length_pos (by omega))
  exact hstep _ (hstep _ (hstep _ (hstep (_, []) hseed).tables).tables).tables

end LoveRuntime.Bzip2
