import LoveRuntime.Library.Rotation
import LoveRuntime.Model.Compress.Bzip2

/-! The block sort. After a round by `k` the ranks order the rotations by their
first `2k` letters, and the rows stand in the order of their ranks. -/

namespace LoveRuntime.Bzip2

open Loop Function CountingSort Rotation

/-- The letters of a block, round and round. -/
def letters (b : List UInt8) (i : ℕ) : ℕ := (b.getD (i % b.length) 0).toNat

theorem letters_lt (b : List UInt8) (i : ℕ) : letters b i < 256 :=
  (b.getD (i % b.length) 0).toNat_lt

theorem letters_period (b : List UInt8) (i : ℕ) : letters b (i + b.length) = letters b i := by
  simp [letters]

/-- Ranks by the first `k` letters, and the rows in the order of their ranks. -/
structure Stage (c : ℕ → ℕ) (n k : ℕ) (e : Sorter) : Prop where
  lt : ∀ p, p < n → e.sa p < n
  inj : ∀ p q, p < n → q < n → e.sa p = e.sa q → p = q
  rank : ∀ i j, i < n → j < n → (e.rk i < e.rk j ↔ numeral 256 c k i < numeral 256 c k j)
  ordered : ∀ p q, p < q → q < n → e.rk (e.sa p) ≤ e.rk (e.sa q)
  nc : ∀ i, i < n → e.rk i < e.nc

/-- Ranks that leave none out: each row's is the one before or the next. -/
structure Dense (n : ℕ) (e : Sorter) : Prop where
  first : e.rk (e.sa 0) = 0
  step : ∀ p, p + 1 < n → e.rk (e.sa (p + 1)) ≤ e.rk (e.sa p) + 1
  last : e.nc = e.rk (e.sa (n - 1)) + 1

section Round

variable {c : ℕ → ℕ} {n k : ℕ} {e : Sorter}

theorem Stage.rank_eq (h : Stage c n k e) {i j : ℕ} (hi : i < n) (hj : j < n) :
    e.rk i = e.rk j ↔ numeral 256 c k i = numeral 256 c k j := by
  have hij := h.rank i j hi hj
  have hji := h.rank j i hj hi
  omega

/-- The row `k` letters on. -/
def wrap (n k a : ℕ) : ℕ := if n ≤ a + k then a + k - n else a + k

/-- The row `k` letters back. -/
def unwrap (n k a : ℕ) : ℕ := if k ≤ a then a - k else a + n - k

theorem wrap_unwrap {a : ℕ} (hk : k < n) (ha : a < n) : wrap n k (unwrap n k a) = a := by
  unfold wrap unwrap
  split <;> split <;> omega

theorem unwrap_lt {a : ℕ} (hk : k < n) (ha : a < n) : unwrap n k a < n := by
  unfold unwrap
  split <;> omega

theorem wrap_lt {a : ℕ} (hk : k < n) (ha : a < n) : wrap n k a < n := by
  unfold wrap
  split <;> omega

theorem numeral_wrap (hp : ∀ i, c (i + n) = c i) (m a : ℕ) :
    numeral 256 c m (wrap n k a) = numeral 256 c m (a + k) := by
  unfold wrap
  split
  next h =>
    have := numeral_period (B := 256) hp m (a + k - n)
    rwa [Nat.sub_add_cancel h, eq_comm] at this
  next => rfl

/-- The two keys of a row as one number. -/
def pairKey (n k : ℕ) (e : Sorter) (a : ℕ) : ℕ := e.rk a * e.nc + e.rk (wrap n k a)

theorem Stage.pairKey_lt_iff (h : Stage c n k e) (hp : ∀ i, c (i + n) = c i)
    (hc : ∀ i, c i < 256) (hk : k < n) {i j : ℕ} (hi : i < n) (hj : j < n) :
    pairKey n k e i < pairKey n k e j ↔
      numeral 256 c (k + k) i < numeral 256 c (k + k) j := by
  have hwi := wrap_lt hk hi
  have hwj := wrap_lt hk hj
  have hni := h.nc _ hwi
  have hnj := h.nc _ hwj
  have h1 := h.rank i j hi hj
  have h2 := h.rank_eq hi hj
  have h3 := h.rank _ _ hwi hwj
  rw [numeral_wrap hp, numeral_wrap hp] at h3
  rw [numeral_add_lt_iff hc, ← h1, ← h2, ← h3]
  unfold pairKey
  rcases lt_trichotomy (e.rk i) (e.rk j) with hlt | heq | hgt
  · refine ⟨fun _ => .inl hlt, fun _ => ?_⟩
    nlinarith
  · simp [heq]
  · refine ⟨fun hlt => ?_, fun hor => ?_⟩
    · nlinarith
    · omega

/-- How many times a sequence has changed by its `p`-th term. -/
def changes (G : ℕ → ℕ) : ℕ → ℕ
  | 0 => 0
  | p + 1 => if G p ≠ G (p + 1) then changes G p + 1 else changes G p

theorem changes_lt_iff {G : ℕ → ℕ} (hG : ∀ p q, p < q → q < n → G p ≤ G q) {p q : ℕ} (hp : p < n)
    (hq : q < n) : changes G p < changes G q ↔ G p < G q := by
  -- in a sequence that only rises, a term differs from a later one iff it changed in between
  have key : ∀ d p, p + d < n → changes G p ≤ changes G (p + d) ∧
      (changes G p = changes G (p + d) ↔ G p = G (p + d)) := by
    intro d
    induction d with
    | zero => simp
    | succ d ih =>
        intro p hpd
        obtain ⟨hle, hiff⟩ := ih p (by omega)
        have h1 := hG (p + d) (p + d + 1) (by omega) (by omega)
        have h2 : G p ≤ G (p + d) := by
          rcases Nat.eq_zero_or_pos d with rfl | hd
          · exact Nat.le_refl _
          · exact hG p (p + d) (by omega) (by omega)
        rw [← Nat.add_assoc, changes]
        split <;> omega
  rcases lt_trichotomy p q with hlt | rfl | hgt
  · obtain ⟨hle, hiff⟩ := key (q - p) p (by omega)
    rw [show p + (q - p) = q by omega] at hle hiff
    have := hG p q hlt hq
    omega
  · simp
  · obtain ⟨hle, hiff⟩ := key (p - q) q (by omega)
    rw [show q + (p - q) = p by omega] at hle hiff
    have := hG q p hgt hp
    omega

theorem Stage.pairKey_ne_iff (h : Stage c n k e) (hk : k < n) {i j : ℕ} (hi : i < n) (hj : j < n) :
    (e.rk i ≠ e.rk j ∨ e.rk (wrap n k i) ≠ e.rk (wrap n k j)) ↔
      pairKey n k e i ≠ pairKey n k e j := by
  have hni := h.nc _ (wrap_lt hk hi)
  have hnj := h.nc _ (wrap_lt hk hj)
  unfold pairKey
  rcases lt_trichotomy (e.rk i) (e.rk j) with hlt | heq | hgt
  · refine ⟨fun _ => ?_, fun _ => .inl (by omega)⟩
    nlinarith
  · simp [heq]
  · refine ⟨fun _ => ?_, fun _ => .inl (by omega)⟩
    nlinarith

/-- The rows of one round, in the order of both keys. -/
theorem Stage.round_sa (h : Stage c n k e) (hk : k < n) :
    let tmp := fill n (fun j => unwrap n k (e.sa j)) e.tmp
    let key := fun j => e.rk (tmp j)
    ∀ j, j < n → (sortRound n k e).sa (place key n j) = tmp j := by
  intro tmp key j hj
  have htmp : ∀ j, j < n → tmp j < n := fun j hj => by
    simp only [tmp, fill_apply, if_pos hj]
    exact unwrap_lt hk (h.lt j hj)
  have hcnt : ∀ c, c < e.nc → tally e.cnt e.nc n key c = equal key n c :=
    fun c hc => tally_apply _ _ _ _ hc
  refine dealDown_place (fun j hj => ?_) hj
  exact ends_apply hcnt (h.nc _ (htmp j hj))

/-- The rank loop counts the changes of the pair of keys along the rows. -/
theorem ranks_loop {sa : ℕ → ℕ} (nr : ℕ → ℕ) (h : Stage c n k e) (hk : k < n)
    (hlt : ∀ p, p < n → sa p < n) (hinj : ∀ p q, p < n → q < n → sa p = sa q → p = q) (m : ℕ)
    (hm : m + 1 ≤ n) :
    let st := upto m (fun j (st : (ℕ → ℕ) × ℕ) =>
      let a := sa j
      let c := sa (j + 1)
      let r := if e.rk a ≠ e.rk c ∨ e.rk (wrap n k a) ≠ e.rk (wrap n k c) then st.2 + 1 else st.2
      (update st.1 c r, r)) (update nr (sa 0) 0, 0)
    st.2 = changes (fun p => pairKey n k e (sa p)) m ∧
      ∀ p, p ≤ m → st.1 (sa p) = changes (fun p => pairKey n k e (sa p)) p := by
  induction m with
  | zero =>
      refine ⟨rfl, fun p hp => ?_⟩
      have : p = 0 := by omega
      subst this
      simp [changes]
  | succ m ih =>
      obtain ⟨hr, hall⟩ := ih (by omega)
      have hiff := h.pairKey_ne_iff hk (hlt m (by omega)) (hlt (m + 1) (by omega))
      simp only [upto_succ, hr]
      have hnew : (if e.rk (sa m) ≠ e.rk (sa (m + 1)) ∨
            e.rk (wrap n k (sa m)) ≠ e.rk (wrap n k (sa (m + 1))) then
            changes (fun p => pairKey n k e (sa p)) m + 1
          else changes (fun p => pairKey n k e (sa p)) m) =
          changes (fun p => pairKey n k e (sa p)) (m + 1) := by
        simp only [hiff, changes]
      rw [hnew]
      refine ⟨rfl, fun p hp => ?_⟩
      rw [update_apply]
      split
      next heq => rw [hinj p (m + 1) (by omega) (by omega) heq]
      next hne =>
        refine hall p ?_
        rcases Nat.lt_or_eq_of_le hp with hlt' | rfl
        · omega
        · exact absurd rfl hne

theorem Stage.round (h : Stage c n k e) (hp : ∀ i, c (i + n) = c i) (hc : ∀ i, c i < 256)
    (hn : 0 < n) (hk : k < n) :
    Stage c n (k + k) (sortRound n k e) ∧ Dense n (sortRound n k e) := by
  let tmp := fill n (fun j => unwrap n k (e.sa j)) e.tmp
  let key := fun j => e.rk (tmp j)
  have hsa : ∀ j, j < n → (sortRound n k e).sa (place key n j) = tmp j := h.round_sa hk
  have htmp : ∀ j, j < n → tmp j = unwrap n k (e.sa j) := fun j hj => by
    simp only [tmp, fill_apply, if_pos hj]
  have htmp_lt : ∀ j, j < n → tmp j < n := fun j hj => by
    rw [htmp j hj]
    exact unwrap_lt hk (h.lt j hj)
  have htmp_inj : ∀ i j, i < n → j < n → tmp i = tmp j → i = j := fun i j hi hj hij => by
    rw [htmp i hi, htmp j hj] at hij
    have := congrArg (wrap n k) hij
    rw [wrap_unwrap hk (h.lt i hi), wrap_unwrap hk (h.lt j hj)] at this
    exact h.inj i j hi hj this
  have hlt : ∀ p, p < n → (sortRound n k e).sa p < n := fun p hp => dealt_lt hsa htmp_lt hp
  have hinj : ∀ p q, p < n → q < n → (sortRound n k e).sa p = (sortRound n k e).sa q → p = q :=
    fun p q hp hq => dealt_inj hsa htmp_inj hp hq
  let G := fun p => pairKey n k e ((sortRound n k e).sa p)
  have hG : ∀ p q, p < q → q < n → G p ≤ G q := by
    intro p q hpq hq
    obtain ⟨i, j, hi, hj, hpi, hqj, hkey⟩ := dealt_order hsa hpq hq
    simp only [G, hpi, hqj, pairKey, htmp i hi, htmp j hj, wrap_unwrap hk (h.lt i hi),
      wrap_unwrap hk (h.lt j hj)]
    simp only [key, htmp i hi, htmp j hj] at hkey
    have hni := h.nc _ (h.lt i hi)
    rcases hkey with hlt' | ⟨heq, hij⟩
    · nlinarith
    · rw [heq]
      have := h.ordered i j hij hj
      omega
  obtain ⟨hlast, hrk⟩ := ranks_loop tmp h hk hlt hinj (n - 1) (by omega)
  have hrank : ∀ p, p < n → (sortRound n k e).rk ((sortRound n k e).sa p) = changes G p :=
    fun p hp => hrk p (by omega)
  have hnc : (sortRound n k e).nc = changes G (n - 1) + 1 := congrArg (· + 1) hlast
  have hsurj : ∀ i, i < n → ∃ p, p < n ∧ (sortRound n k e).sa p = i := by
    intro i hi
    have hperm := map_perm_range hlt hinj
    have hmem : i ∈ (List.range n).map (sortRound n k e).sa :=
      hperm.mem_iff.mpr (List.mem_range.mpr hi)
    obtain ⟨p, hp, rfl⟩ := List.mem_map.mp hmem
    exact ⟨p, List.mem_range.mp hp, rfl⟩
  have hmono : ∀ p q, p ≤ q → q < n → changes G p ≤ changes G q := by
    intro p q hpq hq
    by_contra hgt
    have := (changes_lt_iff hG hq (lt_of_le_of_lt hpq hq)).mp (Nat.lt_of_not_le hgt)
    rcases Nat.lt_or_eq_of_le hpq with hlt' | rfl
    · exact absurd (hG p q hlt' hq) (by omega)
    · omega
  refine ⟨⟨hlt, hinj, ?_, ?_, ?_⟩, ⟨?_, ?_, ?_⟩⟩
  · intro i j hi hj
    obtain ⟨p, hp', rfl⟩ := hsurj i hi
    obtain ⟨q, hq', rfl⟩ := hsurj j hj
    rw [hrank p hp', hrank q hq', changes_lt_iff hG hp' hq']
    exact h.pairKey_lt_iff hp hc hk hi hj
  · intro p q hpq hq
    rw [hrank p (by omega), hrank q hq]
    exact hmono p q (by omega) hq
  · intro i hi
    obtain ⟨p, hp', rfl⟩ := hsurj i hi
    rw [hrank p hp', hnc]
    exact Nat.lt_succ_of_le (hmono p (n - 1) (by omega) (by omega))
  · rw [hrank 0 hn]
    rfl
  · intro p hp'
    rw [hrank (p + 1) hp', hrank p (by omega), changes]
    split <;> omega
  · rw [hrank (n - 1) (by omega), hnc]

/-- A stage past the block's length has it sorted. -/
theorem Stage.sorted_of_le (h : Stage c n k e) (hc : ∀ i, c i < 256) (hnk : n ≤ k) :
    Sorted 256 c n e.sa where
  lt := h.lt
  inj := h.inj
  le p q hpq hq := by
    have hle : numeral 256 c k (e.sa p) ≤ numeral 256 c k (e.sa q) := by
      by_contra hgt
      have := (h.rank _ _ (h.lt q hq) (h.lt p (by omega))).mpr (Nat.lt_of_not_le hgt)
      exact absurd (h.ordered p q hpq hq) (by omega)
    rw [show k = n + (k - n) by omega] at hle
    exact numeral_le_of_add_le hc hle

/-- Ranks that are all different leave nothing to sort. -/
theorem Stage.sorted_of_dense (h : Stage c n k e) (hd : Dense n e) (hc : ∀ i, c i < 256)
    (hnc : e.nc = n) : Sorted 256 c n e.sa where
  lt := h.lt
  inj := h.inj
  le p q hpq hq := by
    have hup : ∀ d p, p + d < n → e.rk (e.sa (p + d)) ≤ e.rk (e.sa p) + d := by
      intro d
      induction d with
      | zero => simp
      | succ d ih =>
          intro p hpd
          have h1 := ih p (by omega)
          have h2 := hd.step (p + d) (by omega)
          rw [← Nat.add_assoc]
          omega
    have hp0 := hup p 0 (by omega)
    rw [Nat.zero_add, hd.first] at hp0
    have hqn := hup (n - 1 - q) q (by omega)
    rw [show q + (n - 1 - q) = n - 1 by omega] at hqn
    have hlast := hd.last
    have hrk : e.rk (e.sa p) < e.rk (e.sa q) := by omega
    have hlt := (h.rank _ _ (h.lt p (by omega)) (h.lt q hq)).mp hrk
    by_cases hkn : k ≤ n
    · have := (numeral_add_lt_iff hc k (n - k) _ _).mpr (.inl hlt)
      rw [show k + (n - k) = n by omega] at this
      exact Nat.le_of_lt this
    · rw [show k = n + (k - n) by omega] at hlt
      exact numeral_le_of_add_le hc (Nat.le_of_lt hlt)

end Round

theorem sortLoop_sorted {c : ℕ → ℕ} {n : ℕ} (hp : ∀ i, c (i + n) = c i) (hc : ∀ i, c i < 256)
    (hn : 0 < n) (fuel : ℕ) {k : ℕ} {e : Sorter} (h : Stage c n k e) (hf : n ≤ k * 2 ^ fuel) :
    Sorted 256 c n (sortLoop n fuel k e).sa := by
  induction fuel generalizing k e with
  | zero => exact h.sorted_of_le hc (by simpa using hf)
  | succ fuel ih =>
      rw [sortLoop]
      split
      next hk =>
        obtain ⟨hround, hdense⟩ := h.round hp hc hn hk
        dsimp only
        split
        next hnc => exact hround.sorted_of_dense hdense hc hnc
        next hnc =>
          rw [Nat.shiftLeft_eq, pow_one, Nat.mul_two]
          refine ih hround ?_
          rw [pow_succ] at hf
          nlinarith
      next hk => exact h.sorted_of_le hc (by omega)

/-- `bz_sort` sorts the rotations of its block. -/
theorem bzSort_sorted (b : List UInt8) (hb : b ≠ []) :
    Sorted 256 (letters b) b.length (bzSort b) := by
  have hn : 0 < b.length := List.length_pos_iff.mpr hb
  let key := fun i => (b.getD i 0).toNat
  have hkey : ∀ i, i < b.length → key i = letters b i := fun i hi => by
    simp only [key, letters, Nat.mod_eq_of_lt hi]
  have hkey_lt : ∀ i, key i < 256 := fun i => (b.getD i 0).toNat_lt
  have hcnt : ∀ c, c < 256 → tally (fun _ => 0) 256 b.length key c = equal key b.length c :=
    fun c hc => tally_apply _ _ _ _ hc
  let sa := dealUp b.length key (fun i => i)
    (starts 256 (tally (fun _ => 0) 256 b.length key)) fun _ => 0
  have hsa : ∀ j, j < b.length → sa (place key b.length j) = j := fun j hj =>
    dealUp_place (fun j _ => starts_apply hcnt (hkey_lt j)) hj
  refine sortLoop_sorted (letters_period b) (letters_lt b) hn b.length ⟨?_, ?_, ?_, ?_, ?_⟩ ?_
  · exact fun p hp => dealt_lt hsa (fun _ h => h) hp
  · exact fun p q hp hq => dealt_inj hsa (fun _ _ _ _ h => h) hp hq
  · intro i j hi hj
    simp [fill_apply, hi, hj, numeral, ← hkey i hi, ← hkey j hj, key]
  · intro p q hpq hq
    obtain ⟨i, j, hi, hj, hpi, hqj, hkey'⟩ := dealt_order hsa hpq hq
    change fill b.length key (fun _ => 0) (sa p) ≤ fill b.length key (fun _ => 0) (sa q)
    rw [hpi, hqj, fill_apply, fill_apply, if_pos hi, if_pos hj]
    omega
  · intro i hi
    change fill b.length key (fun _ => 0) i < 256
    rw [fill_apply, if_pos hi]
    exact hkey_lt i
  · rw [Nat.one_mul]
    exact Nat.le_of_lt Nat.lt_two_pow_self

end LoveRuntime.Bzip2

/-! The last column read back: the links between its rows, and the block they
spell. -/

namespace LoveRuntime.Bzip2

open Loop Function CountingSort Rotation

/-- The last column of a sorted block, as bytes. -/
def column (b : List UInt8) (sa : ℕ → ℕ) : List ℕ :=
  (List.range b.length).map (lastOf (letters b) b.length sa)

@[simp] theorem length_column (b : List UInt8) (sa : ℕ → ℕ) : (column b sa).length = b.length := by
  simp [column]

theorem column_lt (b : List UInt8) (sa : ℕ → ℕ) : ∀ x ∈ column b sa, x < 256 := by
  intro x hx
  obtain ⟨p, -, rfl⟩ := List.mem_map.mp hx
  exact letters_lt b _

theorem count_eq_equal (tt : List ℕ) (c : ℕ) :
    tt.count c = equal (fun j => tt.getD j 0) tt.length c := by
  induction tt with
  | nil => simp [equal]
  | cons x tt ih =>
      rw [List.count_cons, ih]
      simp only [equal, List.length_cons, Nat.count_succ', List.getD_cons_succ, List.getD_cons_zero,
        beq_iff_eq]

/-- The loop that lays the links: the column stays in the low byte, and the
rows dealt so far are linked above it. -/
private theorem links_loop {tt : List ℕ} (htt : ∀ x ∈ tt, x < 256) (m : ℕ) (hm : m ≤ tt.length) :
    let key := fun j => tt.getD j 0
    let st := upto m (fun i (st : (ℕ → ℕ) × (ℕ → ℕ)) =>
      let c := st.2 i % 256
      (update st.1 c (st.1 c + 1), update st.2 (st.1 c) (st.2 (st.1 c) ||| i <<< 8)))
      (starts 256 fun c => tt.count c, key)
    (∀ c, c < 256 → st.1 c = below key tt.length c + equal key m c) ∧
      (∀ j, st.2 j % 256 = key j) ∧
      (∀ i, i < m → st.2 (place key tt.length i) >>> 8 = i) ∧
      ∀ j, (∀ i, i < m → place key tt.length i ≠ j) → st.2 j = key j := by
  intro key
  have hkey : ∀ j, key j < 256 := fun j => by
    simp only [key, List.getD_eq_getElem?_getD]
    cases hj : tt[j]? with
    | none => simp
    | some x => simpa using htt x (List.mem_of_getElem? hj)
  induction m with
  | zero =>
      refine ⟨fun c hc => ?_, fun j => Nat.mod_eq_of_lt (hkey j), fun i hi => by omega,
        fun j _ => rfl⟩
      have hst : starts 256 (fun c => tt.count c) c = below key tt.length c :=
        starts_apply (fun c _ => count_eq_equal tt c) hc
      change starts 256 (fun c => tt.count c) c = _
      rw [hst]
      simp [equal]
  | succ m ih =>
      obtain ⟨hcnt, hlow, hlink, hrest⟩ := ih (by omega)
      simp only [upto_succ]
      generalize upto m (fun i (st : (ℕ → ℕ) × (ℕ → ℕ)) =>
        let c := st.2 i % 256
        (update st.1 c (st.1 c + 1), update st.2 (st.1 c) (st.2 (st.1 c) ||| i <<< 8)))
        (starts 256 fun c => tt.count c, key) = st at hcnt hlow hlink hrest ⊢
      have hm' : m < tt.length := by omega
      have hat : st.1 (st.2 m % 256) = place key tt.length m := by
        rw [hlow, hcnt _ (hkey m), place]
      have hfree : st.2 (place key tt.length m) = key (place key tt.length m) :=
        hrest _ fun i hi h => by
          have := place_inj (by omega) hm' h
          omega
      have hor : st.2 (place key tt.length m) ||| m <<< 8 =
          m <<< 8 + key (place key tt.length m) := by
        rw [hfree, Nat.shiftLeft_add_eq_or_of_lt (hkey _), Nat.or_comm]
      rw [hat]
      refine ⟨fun c hc => ?_, fun j => ?_, fun i hi => ?_, fun j hj => ?_⟩
      · rw [update_apply, hlow]
        simp only [equal, Nat.count_succ] at hcnt ⊢
        split
        next h => rw [h, ← hat, hlow, hcnt _ (hkey m)]; simp [Nat.add_assoc]
        next h => rw [hcnt c hc]; simp [Ne.symm h]
      · rw [update_apply]
        split
        next h =>
          rw [h, hor, Nat.shiftLeft_eq]
          have := hkey (place key tt.length m)
          omega
        next => exact hlow j
      · rw [update_apply]
        split
        next h =>
          have := place_inj (by omega) hm' h
          subst this
          have := hkey (place key tt.length i)
          rw [hor, Nat.shiftLeft_eq, Nat.shiftRight_eq_div_pow]
          omega
        next h =>
          refine hlink i ?_
          rcases Nat.lt_or_eq_of_le (Nat.le_of_lt_succ hi) with hlt | rfl
          · exact hlt
          · exact absurd rfl h
      · rw [update_of_ne (Ne.symm (hj m (Nat.lt_succ_self m)))]
        exact hrest j fun i hi => hj i (by omega)

/-- The low byte of a link is its row's letter. -/
theorem links_low {tt : List ℕ} (htt : ∀ x ∈ tt, x < 256) (j : ℕ) :
    links tt j % 256 = tt.getD j 0 :=
  (links_loop htt tt.length (Nat.le_refl _)).2.1 j

/-- Above it stands the row the letter's place leads to. -/
theorem links_high {tt : List ℕ} (htt : ∀ x ∈ tt, x < 256) {i : ℕ} (hi : i < tt.length) :
    links tt (place (fun j => tt.getD j 0) tt.length i) >>> 8 = i :=
  (links_loop htt tt.length (Nat.le_refl _)).2.2.1 i hi

/-! ### The walk -/

@[simp] theorem walkByte_p (d : Walk) (c : UInt8) : (walkByte d c).p = d.p := by
  unfold walkByte
  split <;> [split <;> rfl; rfl]

theorem walkByte_setP (d : Walk) (q : ℕ) (c : UInt8) :
    walkByte { d with p := q } c = { walkByte d c with p := q } := by
  unfold walkByte
  dsimp only
  split <;> [split <;> rfl; rfl]

theorem foldl_walkByte_setP (b : List UInt8) (d : Walk) (q : ℕ) :
    b.foldl walkByte { d with p := q } = { b.foldl walkByte d with p := q } := by
  induction b generalizing d with
  | nil => rfl
  | cons c b ih => rw [List.foldl_cons, List.foldl_cons, walkByte_setP, ih]

/-- The walk over the links of a sorted block's column puts the block's bytes
through `walkByte`, one by one. -/
theorem walkOut_eq (b : List UInt8) (hb : b ≠ []) {sa : ℕ → ℕ}
    (hs : Sorted 256 (letters b) b.length sa) {orig : ℕ} (ho : orig < b.length) (hsa : sa orig = 0)
    (w : Sink) :
    ∃ q, walkOut (links (column b sa)) b.length orig w =
      { b.foldl walkByte ⟨0, none, 0, 0xffffffff, w⟩ with p := q } := by
  have hn : 0 < b.length := List.length_pos_iff.mpr hb
  have htt := column_lt b sa
  let T := links (column b sa)
  let next := fun j => T j >>> 8
  have hkey : ∀ j, j < b.length → (column b sa).getD j 0 = lastOf (letters b) b.length sa j := by
    intro j hj
    simp [column, hj]
  have hplace : ∀ p, p < b.length →
      place (lastOf (letters b) b.length sa) b.length p =
        place (fun j => (column b sa).getD j 0) b.length p := by
    intro p hp
    exact place_congr (fun i hi => (hkey i hi).symm) hp
  have hnext : ∀ p, p < b.length → next (place (lastOf (letters b) b.length sa) b.length p) = p := by
    intro p hp
    have := links_high htt (i := p) (by simpa using hp)
    rw [length_column] at this
    rw [hplace p hp]
    exact this
  have hlow : ∀ t, UInt8.ofNat (T (next^[t + 1] orig)) = b.getD (t % b.length) 0 := by
    intro t
    have hlt := (spell (letters_lt b) hn (letters_period b) hs hnext ho hsa (t + 1)).1
    have hletter := letter (letters_lt b) hn (letters_period b) hs hnext ho hsa t
    have hl := links_low htt (next^[t + 1] orig)
    rw [hkey _ hlt, hletter, letters] at hl
    apply UInt8.toNat_inj.mp
    rw [UInt8.toNat_ofNat']
    exact hl
  have hloop : ∀ m, m ≤ b.length →
      upto m (fun _ d => walkByte { d with p := T d.p >>> 8 } (UInt8.ofNat (T d.p)))
        ⟨next orig, none, 0, 0xffffffff, w⟩ =
      { (b.take m).foldl walkByte ⟨0, none, 0, 0xffffffff, w⟩ with p := next^[m + 1] orig } := by
    intro m hm
    induction m with
    | zero => rfl
    | succ m ih =>
        rw [upto_succ, ih (by omega)]
        dsimp only
        rw [hlow m, Nat.mod_eq_of_lt (by omega), List.take_add_one, List.foldl_append,
          walkByte_setP]
        have hget : b[m]? = some (b.getD m 0) := by
          simp [List.getElem?_eq_getElem (show m < b.length by omega)]
        rw [hget, Function.iterate_succ_apply' next (m + 1)]
        rfl
  refine ⟨next^[b.length + 1] orig, ?_⟩
  have hall := hloop b.length (Nat.le_refl _)
  rw [List.take_length] at hall
  exact hall

end LoveRuntime.Bzip2
