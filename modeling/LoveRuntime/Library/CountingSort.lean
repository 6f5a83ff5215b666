import Mathlib.Data.Nat.Count
import Mathlib.Data.Finset.Card
import Mathlib.Logic.Function.Basic
import LoveRuntime.Library.Loop

/-! # Counting sort

The loops a counting sort is made of, and where each element lands: after all the
elements of a smaller key and the earlier ones of its own. Dealing upward from the
starts of the keys and dealing downward from their ends agree. -/

namespace CountingSort

open Loop Function

/-- `cnt` over the keys of `n` elements, from its first `nc` cells cleared. -/
def tally (cnt : ℕ → ℕ) (nc n : ℕ) (key : ℕ → ℕ) : ℕ → ℕ :=
  upto n (fun i cnt => update cnt (key i) (cnt (key i) + 1)) (fun c => if c < nc then 0 else cnt c)

/-- Where each key's elements begin. -/
def starts (nc : ℕ) (cnt : ℕ → ℕ) : ℕ → ℕ :=
  (upto nc (fun c st => (update st.1 c st.2, st.2 + st.1 c)) (cnt, 0)).1

/-- Where each key's elements end. -/
def ends (nc : ℕ) (cnt : ℕ → ℕ) : ℕ → ℕ :=
  (upto nc (fun c st => (update st.1 c (st.2 + st.1 c), st.2 + st.1 c)) (cnt, 0)).1

/-- `a[j] = f(j)` for `j < n`. -/
def fill (n : ℕ) (f : ℕ → ℕ) (a : ℕ → ℕ) : ℕ → ℕ :=
  upto n (fun j a => update a j (f j)) a

/-- `out[cnt[key j]++] = x j`, upward. -/
def dealUp (n : ℕ) (key x : ℕ → ℕ) (cnt out : ℕ → ℕ) : ℕ → ℕ :=
  (upto n (fun j st => (update st.1 (key j) (st.1 (key j) + 1), update st.2 (st.1 (key j)) (x j)))
    (cnt, out)).2

/-- `out[--cnt[key j]] = x j`, downward. -/
def dealDown (n : ℕ) (key x : ℕ → ℕ) (cnt out : ℕ → ℕ) : ℕ → ℕ :=
  (downto n (fun j st => (update st.1 (key j) (st.1 (key j) - 1),
    update st.2 (st.1 (key j) - 1) (x j))) (cnt, out)).2

/-- How many of the first `n` keys are below `c`. -/
def below (key : ℕ → ℕ) (n c : ℕ) : ℕ := Nat.count (fun i => key i < c) n

/-- How many of the first `n` keys are `c`. -/
def equal (key : ℕ → ℕ) (n c : ℕ) : ℕ := Nat.count (fun i => key i = c) n

/-- Where the `j`-th of `n` elements lands. -/
def place (key : ℕ → ℕ) (n j : ℕ) : ℕ := below key n (key j) + equal key j (key j)

variable {key x cnt out : ℕ → ℕ} {n nc : ℕ}

theorem below_succ (key : ℕ → ℕ) (n c : ℕ) : below key n (c + 1) = below key n c + equal key n c := by
  induction n with
  | zero => simp [below, equal]
  | succ n ih =>
      simp only [below, equal, Nat.count_succ] at ih ⊢
      rw [ih]
      by_cases h : key n < c
      · simp [h, Nat.lt_succ_of_lt h, Nat.ne_of_lt h]
        omega
      · by_cases he : key n = c
        · simp [he]
          omega
        · simp [h, he, show ¬ key n < c + 1 by omega]

theorem place_congr {key' : ℕ → ℕ} (h : ∀ i, i < n → key i = key' i) {j : ℕ} (hj : j < n) :
    place key n j = place key' n j := by
  have hbelow : ∀ c m, m ≤ n → below key m c = below key' m c := by
    intro c m hm
    induction m with
    | zero => rfl
    | succ m ih =>
        have ih' := ih (by omega)
        simp only [below, Nat.count_succ] at ih' ⊢
        rw [ih', h m (by omega)]
  have hequal : ∀ c m, m ≤ n → equal key m c = equal key' m c := by
    intro c m hm
    induction m with
    | zero => rfl
    | succ m ih =>
        have ih' := ih (by omega)
        simp only [equal, Nat.count_succ] at ih' ⊢
        rw [ih', h m (by omega)]
  rw [place, place, h j hj, hbelow _ n (Nat.le_refl n), hequal _ j (Nat.le_of_lt hj)]

theorem below_zero (key : ℕ → ℕ) (n : ℕ) : below key n 0 = 0 := by
  simp [below]

theorem below_mono (key : ℕ → ℕ) (n : ℕ) {c d : ℕ} (h : c ≤ d) : below key n c ≤ below key n d :=
  Nat.count_mono_left fun _ _ hk => lt_of_lt_of_le hk h

theorem equal_zero (key : ℕ → ℕ) (c : ℕ) : equal key 0 c = 0 := by rw [equal, Nat.count_zero]

theorem equal_succ (key : ℕ → ℕ) (i c : ℕ) :
    equal key (i + 1) c = equal key i c + if key i = c then 1 else 0 := by
  rw [equal, Nat.count_succ]
  rfl

/-- The element of a key that so many of its kind come before. -/
theorem exists_of_lt_equal {k c : ℕ} (h : k < equal key n c) : ∃ i, i < n ∧ key i = c ∧ equal key i c = k := by
  induction n with
  | zero =>
      rw [equal_zero] at h
      omega
  | succ n ih =>
      by_cases hlt : k < equal key n c
      · obtain ⟨i, hi, hkey, hk⟩ := ih hlt
        exact ⟨i, Nat.lt_succ_of_lt hi, hkey, hk⟩
      · rw [equal_succ] at h
        by_cases hkey : key n = c
        · rw [if_pos hkey] at h
          exact ⟨n, Nat.lt_succ_self n, hkey, by omega⟩
        · rw [if_neg hkey] at h
          omega

theorem equal_succ_self (key : ℕ → ℕ) (j : ℕ) : equal key (j + 1) (key j) = equal key j (key j) + 1 := by
  simp [equal, Nat.count_succ]

theorem equal_mono (key : ℕ → ℕ) (c : ℕ) {i j : ℕ} (h : i ≤ j) : equal key i c ≤ equal key j c :=
  Nat.count_monotone _ h

/-- An element lands short of where its key ends. -/
theorem place_lt_below {j : ℕ} (hj : j < n) : place key n j < below key n (key j + 1) := by
  rw [below_succ, place]
  have hle := equal_mono key (key j) (Nat.succ_le_of_lt hj)
  rw [Nat.succ_eq_add_one, equal_succ_self] at hle
  omega

theorem place_lt {j : ℕ} (hj : j < n) : place key n j < n :=
  lt_of_lt_of_le (place_lt_below hj) (Nat.count_le _)

theorem place_lt_of_key_lt {i j : ℕ} (hi : i < n) (h : key i < key j) :
    place key n i < place key n j :=
  calc place key n i < below key n (key i + 1) := place_lt_below hi
    _ ≤ below key n (key j) := below_mono key n h
    _ ≤ place key n j := Nat.le_add_right _ _

theorem place_lt_of_key_eq {i j : ℕ} (h : key i = key j) (hij : i < j) :
    place key n i < place key n j := by
  have hle := equal_mono key (key i) (Nat.succ_le_of_lt hij)
  rw [Nat.succ_eq_add_one, equal_succ_self] at hle
  simp only [place, ← h]
  omega

/-- Of two places the later holds a larger key, or a later element of the same. -/
theorem order_of_place_lt {i j : ℕ} (hj : j < n) (h : place key n i < place key n j) :
    key i < key j ∨ key i = key j ∧ i < j := by
  rcases lt_trichotomy (key i) (key j) with hlt | heq | hgt
  · exact .inl hlt
  · refine .inr ⟨heq, ?_⟩
    by_contra hge
    rcases Nat.lt_or_eq_of_le (Nat.le_of_not_lt hge) with hlt | rfl
    · exact absurd (place_lt_of_key_eq (n := n) heq.symm hlt) (by omega)
    · omega
  · exact absurd (place_lt_of_key_lt hj hgt) (by omega)

theorem place_inj {i j : ℕ} (hi : i < n) (hj : j < n) (h : place key n i = place key n j) :
    i = j := by
  rcases lt_trichotomy (key i) (key j) with hlt | heq | hgt
  · exact absurd (place_lt_of_key_lt hi hlt) (by omega)
  · rcases lt_trichotomy i j with hlt | rfl | hgt
    · exact absurd (place_lt_of_key_eq (n := n) heq hlt) (by omega)
    · rfl
    · exact absurd (place_lt_of_key_eq (n := n) heq.symm hgt) (by omega)
  · exact absurd (place_lt_of_key_lt hj hgt) (by omega)

/-- Every place is some element's. -/
theorem exists_place (key : ℕ → ℕ) {p : ℕ} (hp : p < n) : ∃ j, j < n ∧ place key n j = p := by
  have hsub : (Finset.range n).image (place key n) ⊆ Finset.range n := by
    intro q hq
    obtain ⟨j, hj, rfl⟩ := Finset.mem_image.mp hq
    exact Finset.mem_range.mpr (place_lt (Finset.mem_range.mp hj))
  have hcard : ((Finset.range n).image (place key n)).card = n := by
    rw [Finset.card_image_of_injOn, Finset.card_range]
    intro i hi j hj h
    exact place_inj (Finset.mem_range.mp hi) (Finset.mem_range.mp hj) h
  have heq := Finset.eq_of_subset_of_card_le hsub (by rw [hcard, Finset.card_range])
  have hmem : p ∈ (Finset.range n).image (place key n) := by
    rw [heq]
    exact Finset.mem_range.mpr hp
  obtain ⟨j, hj, h⟩ := Finset.mem_image.mp hmem
  exact ⟨j, Finset.mem_range.mp hj, h⟩

/-- Of two cells of a dealt array the later holds a larger key, or a later element of the same. -/
theorem dealt_order (hout : ∀ j, j < n → out (place key n j) = x j) {p q : ℕ} (hpq : p < q)
    (hq : q < n) :
    ∃ i j, i < n ∧ j < n ∧ out p = x i ∧ out q = x j ∧ (key i < key j ∨ key i = key j ∧ i < j) := by
  obtain ⟨i, hi, rfl⟩ := exists_place key (hpq.trans hq)
  obtain ⟨j, hj, rfl⟩ := exists_place key hq
  exact ⟨i, j, hi, hj, hout i hi, hout j hj, order_of_place_lt hj hpq⟩

theorem dealt_lt (hout : ∀ j, j < n → out (place key n j) = x j) (hx : ∀ j, j < n → x j < n) {p : ℕ}
    (hp : p < n) : out p < n := by
  obtain ⟨i, hi, rfl⟩ := exists_place key hp
  rw [hout i hi]
  exact hx i hi

theorem dealt_inj (hout : ∀ j, j < n → out (place key n j) = x j)
    (hx : ∀ i j, i < n → j < n → x i = x j → i = j) {p q : ℕ} (hp : p < n) (hq : q < n)
    (h : out p = out q) : p = q := by
  obtain ⟨i, hi, rfl⟩ := exists_place key hp
  obtain ⟨j, hj, rfl⟩ := exists_place key hq
  rw [hout i hi, hout j hj] at h
  rw [hx i j hi hj h]

theorem fill_apply (n : ℕ) (f a : ℕ → ℕ) (j : ℕ) : fill n f a j = if j < n then f j else a j := by
  induction n with
  | zero => simp [fill]
  | succ n ih =>
      have hstep : fill (n + 1) f a = update (fill n f a) n (f n) := rfl
      rw [hstep, update_apply, ih]
      split
      next h => simp [h]
      next h =>
        by_cases hn : j < n
        · simp [hn, Nat.lt_succ_of_lt hn]
        · simp [hn, show ¬ j < n + 1 by omega]

theorem tally_apply (cnt : ℕ → ℕ) (nc n : ℕ) (key : ℕ → ℕ) {c : ℕ} (hc : c < nc) :
    tally cnt nc n key c = equal key n c := by
  induction n with
  | zero => simp [tally, equal, hc]
  | succ n ih =>
      have hstep : tally cnt nc (n + 1) key =
        update (tally cnt nc n key) (key n) (tally cnt nc n key (key n) + 1) := rfl
      rw [hstep, update_apply]
      simp only [equal, Nat.count_succ] at ih ⊢
      split
      next h =>
        subst h
        simp [ih]
      next h => simp [ih, Ne.symm h]

/-- The sums a pass over the counts keeps: cells behind it are replaced, cells ahead are not. -/
private theorem starts_loop (nc : ℕ) (hcnt : ∀ c, c < nc → cnt c = equal key n c) (m : ℕ)
    (hm : m ≤ nc) :
    let st := upto m (fun c st => (update st.1 c st.2, st.2 + st.1 c)) (cnt, 0)
    st.2 = below key n m ∧ (∀ c, c < m → st.1 c = below key n c) ∧ ∀ c, m ≤ c → st.1 c = cnt c := by
  induction m with
  | zero => simp [below_zero]
  | succ m ih =>
      obtain ⟨hsum, hlow, hhigh⟩ := ih (by omega)
      simp only [upto_succ]
      refine ⟨?_, fun c hc => ?_, fun c hc => ?_⟩
      · rw [hsum, hhigh m (Nat.le_refl m), hcnt m (by omega), below_succ]
      · rw [update_apply]
        split
        next h => rw [hsum, h]
        next h => exact hlow c (by omega)
      · rw [update_of_ne (by omega)]
        exact hhigh c (by omega)

theorem starts_apply (hcnt : ∀ c, c < nc → cnt c = equal key n c) {c : ℕ} (hc : c < nc) :
    starts nc cnt c = below key n c :=
  (starts_loop nc hcnt nc (Nat.le_refl nc)).2.1 c hc

private theorem ends_loop (nc : ℕ) (hcnt : ∀ c, c < nc → cnt c = equal key n c) (m : ℕ)
    (hm : m ≤ nc) :
    let st := upto m (fun c st => (update st.1 c (st.2 + st.1 c), st.2 + st.1 c)) (cnt, 0)
    st.2 = below key n m ∧ (∀ c, c < m → st.1 c = below key n (c + 1)) ∧
      ∀ c, m ≤ c → st.1 c = cnt c := by
  induction m with
  | zero => simp [below_zero]
  | succ m ih =>
      obtain ⟨hsum, hlow, hhigh⟩ := ih (by omega)
      have hnew := hhigh m (Nat.le_refl m)
      simp only [upto_succ]
      refine ⟨?_, fun c hc => ?_, fun c hc => ?_⟩
      · rw [hsum, hnew, hcnt m (by omega), below_succ]
      · rw [update_apply]
        split
        next h => rw [hsum, hnew, hcnt m (by omega), h, below_succ]
        next h => exact hlow c (by omega)
      · rw [update_of_ne (by omega)]
        exact hhigh c (by omega)

theorem ends_apply (hcnt : ∀ c, c < nc → cnt c = equal key n c) {c : ℕ} (hc : c < nc) :
    ends nc cnt c = below key n (c + 1) :=
  (ends_loop nc hcnt nc (Nat.le_refl nc)).2.1 c hc

private theorem dealUp_loop (hcnt : ∀ j, j < n → cnt (key j) = below key n (key j)) (m : ℕ)
    (hm : m ≤ n) :
    let st := upto m (fun j st => (update st.1 (key j) (st.1 (key j) + 1),
      update st.2 (st.1 (key j)) (x j))) (cnt, out)
    (∀ c, st.1 c = cnt c + equal key m c) ∧ ∀ i, i < m → st.2 (place key n i) = x i := by
  induction m with
  | zero => simp [equal]
  | succ m ih =>
      obtain ⟨hc, ho⟩ := ih (by omega)
      simp only [upto_succ]
      have hat := hc (key m)
      rw [hcnt m (by omega), ← place] at hat
      refine ⟨fun c => ?_, fun i hi => ?_⟩
      · rw [update_apply]
        simp only [equal, Nat.count_succ] at hc ⊢
        split
        next h => simp [hc, h, Nat.add_assoc]
        next h => simp [hc, Ne.symm h]
      · rw [hat, update_apply]
        split
        next h => rw [place_inj (by omega) (by omega) h]
        next h =>
          refine ho i ?_
          rcases Nat.lt_or_eq_of_le (Nat.le_of_lt_succ hi) with hlt | rfl
          · exact hlt
          · exact absurd rfl h

/-- Dealt upward from the starts, each element is at its place. -/
theorem dealUp_place (hcnt : ∀ j, j < n → cnt (key j) = below key n (key j)) {j : ℕ} (hj : j < n) :
    dealUp n key x cnt out (place key n j) = x j :=
  (dealUp_loop hcnt n (Nat.le_refl n)).2 j hj

private theorem dealDown_loop (m : ℕ) (hm : m ≤ n) (cnt out : ℕ → ℕ)
    (hc : ∀ j, j < m → cnt (key j) = below key n (key j) + equal key m (key j))
    (ho : ∀ i, m ≤ i → i < n → out (place key n i) = x i) (i : ℕ) (hi : i < n) :
    (downto m (fun j st => (update st.1 (key j) (st.1 (key j) - 1),
      update st.2 (st.1 (key j) - 1) (x j))) (cnt, out)).2 (place key n i) = x i := by
  induction m generalizing cnt out with
  | zero => exact ho i (Nat.zero_le i) hi
  | succ m ih =>
      have hat : cnt (key m) - 1 = place key n m := by
        rw [hc m (Nat.lt_succ_self m), equal_succ_self, place]
        omega
      rw [downto_succ]
      refine ih (by omega) _ _ (fun j hj => ?_) fun i hi hn => ?_
      · rw [update_apply]
        split
        next h => rw [hat, place, h]
        next h =>
          dsimp only
          rw [hc j (by omega)]
          simp [equal, Nat.count_succ, Ne.symm h]
      · dsimp only
        rw [hat, update_apply]
        split
        next h => rw [place_inj hn (by omega) h]
        next h =>
          refine ho i ?_ hn
          rcases Nat.lt_or_eq_of_le hi with hlt | rfl
          · exact hlt
          · exact absurd rfl h

/-- Dealt downward from the ends, each element is at its place. -/
theorem dealDown_place (hcnt : ∀ j, j < n → cnt (key j) = below key n (key j + 1)) {j : ℕ}
    (hj : j < n) : dealDown n key x cnt out (place key n j) = x j :=
  dealDown_loop n (Nat.le_refl n) cnt out (fun j hj => by rw [hcnt j hj, below_succ])
    (fun i hi hn => by omega) j hj

end CountingSort
