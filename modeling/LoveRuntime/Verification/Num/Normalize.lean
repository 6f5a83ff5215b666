import LoveRuntime.Library.Radix
import LoveRuntime.Model.Num.Division

/-! # Reasoning about the limb store

An access inside its array leaves no mark, so below the level of these lemmas a loop is a
pure function of the memory. -/

namespace LoveRuntime

open Radix

/-- The cells of two arrays are apart. -/
def Arr.Apart (p q : Arr) : Prop := p.base + p.len ≤ q.base ∨ q.base + q.len ≤ p.base

namespace Store

variable {σ : Store} {p : Arr} {i : ℕ} {x : ℕ}

@[simp] theorem get_nat : σ.get p (i : ℤ) = σ.mem (p.base + i) := by
  rw [get, addr, ← Nat.cast_add, Int.toNat_natCast]

@[simp] theorem get_zero : σ.get p 0 = σ.mem p.base := get_nat (i := 0)

@[simp] theorem get_succ : σ.get p ((i : ℤ) + 1) = σ.mem (p.base + (i + 1)) := by
  rw [← Nat.cast_succ, get_nat]

theorem get_pred (h : 1 ≤ i) : σ.get p ((i : ℤ) - 1) = σ.mem (p.base + (i - 1)) := by
  rw [← get_nat, Nat.cast_sub h, Nat.cast_one]

theorem note_eq (h : i < p.len) : σ.note p (i : ℤ) = σ := by
  have : (0 : ℤ) ≤ i ∧ (i : ℤ) < p.len := by omega
  simp [note, this]

theorem note_eq_of_int {k : ℤ} (h0 : 0 ≤ k) (h : k < p.len) : σ.note p k = σ := by
  simp [note, h0, h]

theorem note_stray {k : ℤ} (h : ¬ (0 ≤ k ∧ k < p.len)) : (σ.note p k).stray = true := by
  simp [note, h]

@[simp] theorem note_mem {k : ℤ} : (σ.note p k).mem = σ.mem := rfl

theorem stray_of_note {k : ℤ} (h : σ.stray = true) : (σ.note p k).stray = true := by
  simp [note, h]

theorem stray_of_put {k : ℤ} (h : σ.stray = true) : (σ.put p k x).stray = true := by
  simp [put, h]

theorem carve_eq {off len : ℕ} (h : off + len ≤ p.len) : σ.carve p off len = σ := by
  simp [carve, h]

/-- A write inside its array only updates the memory. -/
theorem put_eq (h : i < p.len) :
    σ.put p (i : ℤ) x = ⟨Function.update σ.mem (p.base + i) x, σ.stray⟩ := by
  have : (0 : ℤ) ≤ i ∧ (i : ℤ) < p.len := by omega
  rw [put, addr, ← Nat.cast_add, Int.toNat_natCast]
  simp [this]

theorem put_zero (h : 0 < p.len) :
    σ.put p 0 x = ⟨Function.update σ.mem p.base x, σ.stray⟩ := put_eq (i := 0) h

theorem put_succ (h : i + 1 < p.len) :
    σ.put p ((i : ℤ) + 1) x = ⟨Function.update σ.mem (p.base + (i + 1)) x, σ.stray⟩ := by
  rw [← Nat.cast_succ, put_eq h]

theorem put_eq_of_int {k : ℤ} (h0 : 0 ≤ k) (h : k < p.len) :
    σ.put p k x = ⟨Function.update σ.mem (p.base + k.toNat) x, σ.stray⟩ := by
  obtain ⟨i, rfl⟩ := Int.eq_ofNat_of_zero_le h0
  exact put_eq (by omega)

theorem ofDigits_limbs (B : ℕ) : Nat.ofDigits B (σ.limbs p) = value B σ.mem p.base p.len := by
  rw [limbs]
  induction p.len with
  | zero => simp
  | succ n ih =>
      rw [List.range_succ, List.map_append, Nat.ofDigits_append, ih, value_succ]
      simp [Nat.mul_comm]

theorem limbs_lt {B : ℕ} (h : Digits B σ.mem p.base p.len) : ∀ y ∈ σ.limbs p, y < B := by
  intro y hy
  obtain ⟨k, hk, rfl⟩ := List.mem_map.mp hy
  exact h k (List.mem_range.mp hk)

end Store

/-! ## Two machine facts -/

/-- A shifted number and a limb below it do not overlap. -/
theorem shl_or {L lo : ℕ} (hi : ℕ) (h : lo < 2 ^ L) : hi <<< L ||| lo = hi * 2 ^ L + lo := by
  rw [Nat.shiftLeft_eq, Nat.mul_comm, ← Nat.two_pow_add_eq_or_of_lt h]

/-- The limb that `shl_fill` writes, as the digit of a product with `2 ^ s`. -/
theorem shlFill_eq {L s lo : ℕ} (hi : ℕ) (hs : s < L) (hlo : lo < 2 ^ L) :
    shlFill L s hi lo = (hi * 2 ^ s) % 2 ^ L + lo * 2 ^ s / 2 ^ L := by
  have hL : 2 ^ L = 2 ^ s * 2 ^ (L - s) := by
    rw [← pow_add]
    congr 1
    omega
  have hdiv : lo * 2 ^ s / 2 ^ L = lo / 2 ^ (L - s) := by
    rw [hL, Nat.mul_comm lo, Nat.mul_div_mul_left _ _ (Nat.two_pow_pos s)]
  have hmod : (hi * 2 ^ s) % 2 ^ L = (hi % 2 ^ (L - s)) * 2 ^ s := by
    rw [hL, Nat.mul_comm (2 ^ s), Nat.mul_mod_mul_right]
  rw [shlFill, Nat.shiftLeft_eq, hmod, hdiv]
  by_cases h0 : s = 0
  · subst h0
    rw [if_pos rfl, Nat.or_zero, Nat.sub_zero, Nat.div_eq_of_lt hlo, Nat.add_zero]
  · have hlt : lo / 2 ^ (L - s) < 2 ^ s := by
      rw [Nat.div_lt_iff_lt_mul (Nat.two_pow_pos _), ← hL]
      exact hlo
    rw [if_neg h0, Nat.shiftRight_eq_div_pow, ← Nat.shiftLeft_eq, shl_or _ hlt, Nat.shiftLeft_eq]

/-- A digit string multiplied through, carries settled into the next digit. -/
theorem value_mulCarry (B : ℕ) (h : ℕ → ℕ) (n : ℕ) :
    value B (fun i => h i % B + if i = 0 then 0 else h (i - 1) / B) 0 (n + 1)
        + h n / B * B ^ (n + 1) = value B h 0 (n + 1) := by
  induction n with
  | zero =>
      simp only [value_succ, value_zero, Nat.zero_add, Nat.pow_zero, Nat.mul_one, if_pos, pow_one,
        Nat.add_zero]
      exact Nat.mod_add_div' _ _
  | succ n ih =>
      rw [value_succ (n := n + 1), value_succ (f := h) (n := n + 1), ← ih]
      simp only [Nat.zero_add, Nat.add_sub_cancel, Nat.succ_ne_zero, if_false]
      have := Nat.mod_add_div' (h (n + 1)) B
      generalize h (n + 1) % B = x at *
      generalize h (n + 1) / B = y at *
      rw [← this, pow_succ (n := n + 1)]
      ring

end LoveRuntime

/-! # Normalization

`mag_dnorm` multiplies both operands by one power of two and `mag_ddenorm` divides the
remainder by it again. -/

namespace LoveRuntime

open Radix

variable {L : ℕ}

/-- The digit string `src * 2 ^ s` that `shlInto` writes. -/
def shlDigit (L s : ℕ) (f : ℕ → ℕ) (i : ℕ) : ℕ :=
  (f i * 2 ^ s) % 2 ^ L + if i = 0 then 0 else f (i - 1) * 2 ^ s / 2 ^ L

theorem shlDigit_lt {s : ℕ} {f : ℕ → ℕ} {i : ℕ} (hs : s < L)
    (hf : ∀ k ≤ i, f k < 2 ^ L) : shlDigit L s f i < 2 ^ L := by
  have hL : 2 ^ L = 2 ^ s * 2 ^ (L - s) := by
    rw [← pow_add]
    congr 1
    omega
  have hpos := Nat.two_pow_pos (L - s)
  have hmod : (f i * 2 ^ s) % 2 ^ L = (f i % 2 ^ (L - s)) * 2 ^ s := by
    rw [hL, Nat.mul_comm (2 ^ s), Nat.mul_mod_mul_right]
  have hlow : f i % 2 ^ (L - s) + 1 ≤ 2 ^ (L - s) := Nat.mod_lt _ hpos
  have hcarry : (if i = 0 then 0 else f (i - 1) * 2 ^ s / 2 ^ L) < 2 ^ s := by
    split
    · exact Nat.two_pow_pos s
    · rw [Nat.div_lt_iff_lt_mul (Nat.two_pow_pos L), Nat.mul_comm]
      exact Nat.mul_lt_mul_of_pos_left (hf _ (by omega)) (Nat.two_pow_pos s)
  have htotal := Nat.mul_le_mul_right (2 ^ s) hlow
  rw [Nat.add_mul, Nat.one_mul, Nat.mul_comm (2 ^ (L - s)), ← hL] at htotal
  rw [shlDigit, hmod]
  omega

/-- One operand of `mag_dnorm`, cell by cell. -/
theorem shlInto_spec (dst src : Arr) {s n : ℕ} {σ : Store} (hs : s < L) (hn : 1 ≤ n)
    (hdst : n ≤ dst.len) (hsrc : n ≤ src.len) (hap : dst.Apart src)
    (hd : Digits (2 ^ L) σ.mem src.base n) :
    shlInto L s n dst src σ = ⟨patch σ.mem dst.base (dst.base + n)
      fun a => shlDigit L s (fun i => σ.mem (src.base + i)) (a - dst.base), σ.stray⟩ := by
  set g : ℕ → ℕ := fun a => shlDigit L s (fun i => σ.mem (src.base + i)) (a - dst.base) with hg
  have hsep : ∀ i lo, i < n → dst.base ≤ lo → ¬ (lo ≤ src.base + i ∧ src.base + i < dst.base + n) := by
    intro i lo hi hlo
    rcases hap with h | h <;> omega
  -- after the loop every cell but the lowest is written
  have hloop : Loop.downto (n - 1) (fun k σ =>
      let x := shlFill L s (σ.get src (k + 1)) (σ.get src k)
      ((σ.note src (k + 1)).note src k).put dst (k + 1) x) σ =
      ⟨patch σ.mem (dst.base + 0 + 1) (dst.base + n) g, σ.stray⟩ := by
    refine Loop.downto_invariant (fun k t => t =
      (⟨patch σ.mem (dst.base + k + 1) (dst.base + n) g, σ.stray⟩ : Store)) ?_ ?_
    · rw [show dst.base + (n - 1) + 1 = dst.base + n by omega, patch_empty]
    · rintro k t hk rfl
      have hfill := shlFill_eq (s := s) (σ.mem (src.base + (k + 1))) hs (hd k (by omega))
      have hgk : g (dst.base + (k + 1)) = σ.mem (src.base + (k + 1)) * 2 ^ s % 2 ^ L
          + σ.mem (src.base + k) * 2 ^ s / 2 ^ L := by
        rw [hg]
        simp only [shlDigit, Nat.add_sub_cancel_left, Nat.succ_ne_zero, if_false, Nat.add_sub_cancel]
      have hhi := hsep (k + 1) (dst.base + (k + 1) + 1) (by omega) (by omega)
      have hlo := hsep k (dst.base + (k + 1) + 1) (by omega) (by omega)
      simp only [Store.get_succ, Store.get_nat, patch_out hhi, patch_out hlo]
      rw [← Nat.cast_succ k, Store.note_eq (by omega), Store.note_eq (by omega),
        Store.put_eq (by omega), hfill, ← hgk]
      congr 1
      exact update_patch_bot (by omega)
  rw [shlInto, hloop]
  have hg0 : g dst.base = σ.mem src.base <<< s % 2 ^ L := by
    rw [hg]
    simp [shlDigit, Nat.shiftLeft_eq]
  have hsrc0 : ¬ (dst.base + 1 ≤ src.base ∧ src.base < dst.base + n) :=
    hsep 0 (dst.base + 1) (by omega) (by omega)
  simp only [Store.get_zero, Nat.add_zero, patch_out hsrc0]
  rw [show ∀ t : Store, t.note src 0 = t from fun t => Store.note_eq (i := 0) (by omega),
    Store.put_zero (by omega), ← hg0]
  congr 1
  exact update_patch_bot (by omega)

/-- The value that `shlInto` lays, with the bits it shifts out of the top. -/
theorem value_shlDigit (s : ℕ) (f : ℕ → ℕ) (n : ℕ) :
    value (2 ^ L) (shlDigit L s f) 0 (n + 1) + f n * 2 ^ s / 2 ^ L * (2 ^ L) ^ (n + 1)
      = value (2 ^ L) f 0 (n + 1) * 2 ^ s := by
  have h := value_mulCarry (2 ^ L) (fun i => f i * 2 ^ s) n
  have hmul : value (2 ^ L) (fun i => f i * 2 ^ s) 0 (n + 1) = value (2 ^ L) f 0 (n + 1) * 2 ^ s := by
    rw [value, value, Finset.sum_mul]
    exact Finset.sum_congr rfl fun i _ => by ring
  rw [hmul] at h
  exact h

theorem limbClz_spec {x : ℕ} (hx : x ≠ 0) (hlt : x < 2 ^ L) :
    limbClz L x < L ∧ x * 2 ^ limbClz L x < 2 ^ L := by
  have hlog : x.log2 < L := (Nat.log2_lt hx).mpr hlt
  refine ⟨by rw [limbClz]; omega, ?_⟩
  have hx2 : x < 2 ^ (x.log2 + 1) := Nat.lt_log2_self
  calc x * 2 ^ limbClz L x < 2 ^ (x.log2 + 1) * 2 ^ limbClz L x :=
        Nat.mul_lt_mul_of_pos_right hx2 (Nat.two_pow_pos _)
    _ = 2 ^ L := by
        rw [← pow_add, limbClz]
        congr 1
        omega

/-- The dividend `U` and the divisor `V`, shifted by `s` into their arrays. -/
structure Normalized (L : ℕ) (un vn : Arr) (m n U V s : ℕ) (μ : ℕ → ℕ) : Prop where
  shift_lt : s < L
  vn_value : value (2 ^ L) μ vn.base n = V * 2 ^ s
  un_value : value (2 ^ L) μ un.base (m + 1) = U * 2 ^ s
  vn_digits : Digits (2 ^ L) μ vn.base n
  un_digits : Digits (2 ^ L) μ un.base (m + 1)

theorem Normalized.congr {un vn : Arr} {m n U V s : ℕ} {μ ν : ℕ → ℕ}
    (h : Normalized L un vn m n U V s μ) (hun : ∀ i < m + 1, ν (un.base + i) = μ (un.base + i))
    (hvn : ∀ i < n, ν (vn.base + i) = μ (vn.base + i)) : Normalized L un vn m n U V s ν :=
  ⟨h.shift_lt, (value_congr hvn).trans h.vn_value, (value_congr hun).trans h.un_value,
    h.vn_digits.congr hvn, h.un_digits.congr hun⟩

/-- What `mag_dnorm` leaves: both operands times `2 ^ s`, and every other cell as it was. -/
structure DnormSpec (L : ℕ) (un vn u v : Arr) (m n : ℕ) (σ τ : Store) (s : ℕ) : Prop extends
    Normalized L un vn m n (value (2 ^ L) σ.mem u.base m) (value (2 ^ L) σ.mem v.base n) s τ.mem where
  stray : τ.stray = σ.stray
  frame : ∀ a, ¬ (vn.base ≤ a ∧ a < vn.base + n) → ¬ (un.base ≤ a ∧ a < un.base + (m + 1)) →
    τ.mem a = σ.mem a

theorem magDnorm_spec (un vn u v : Arr) {m n : ℕ} {σ : Store} (hm : 1 ≤ m) (hn : 1 ≤ n)
    (hun : un.len = m + 1) (hvn : vn.len = n) (hu : u.len = m) (hv : v.len = n)
    (h1 : vn.Apart v) (h2 : un.Apart u) (h3 : vn.Apart u) (h4 : un.Apart vn)
    (hud : Digits (2 ^ L) σ.mem u.base m) (hvd : Digits (2 ^ L) σ.mem v.base n)
    (htop : σ.mem (v.base + (n - 1)) ≠ 0) :
    DnormSpec L un vn u v m n σ (magDnorm L un vn u v m n σ).1 (magDnorm L un vn u v m n σ).2 := by
  obtain ⟨n, rfl⟩ := Nat.exists_eq_succ_of_ne_zero (show n ≠ 0 by omega)
  obtain ⟨m, rfl⟩ := Nat.exists_eq_succ_of_ne_zero (show m ≠ 0 by omega)
  simp only [Nat.succ_eq_add_one, Nat.add_sub_cancel] at *
  have hclz := limbClz_spec htop (hvd n n.lt_succ_self)
  set s := limbClz L (σ.mem (v.base + n)) with hsdef
  obtain ⟨hs, hfit⟩ := hclz
  -- the divisor first
  have hV := shlInto_spec vn v (σ := σ) hs (Nat.le_add_left 1 n) (le_of_eq hvn.symm) (le_of_eq hv.symm) h1 hvd
  set μ : ℕ → ℕ := patch σ.mem vn.base (vn.base + (n + 1))
    fun a => shlDigit L s (fun i => σ.mem (v.base + i)) (a - vn.base) with hμ
  have hμu : ∀ i < m + 1, μ (u.base + i) = σ.mem (u.base + i) := by
    intro i hi
    exact patch_out (by rcases h3 with h | h <;> omega)
  -- then the top cell of the dividend
  have htopval : (if s = 0 then 0 else σ.mem (u.base + m) >>> (L - s))
      = σ.mem (u.base + m) * 2 ^ s / 2 ^ L := by
    have h := shlFill_eq 0 hs (hud m m.lt_succ_self)
    rw [shlFill, Nat.zero_shiftLeft, Nat.zero_mod, Nat.zero_or, Nat.zero_mul, Nat.zero_mod,
      Nat.zero_add] at h
    exact h
  set top := σ.mem (u.base + m) * 2 ^ s / 2 ^ L with htopdef
  set ν : ℕ → ℕ := Function.update μ (un.base + (m + 1)) top with hν
  have hνu : ∀ i < m + 1, ν (u.base + i) = σ.mem (u.base + i) := by
    intro i hi
    rw [hν, Function.update_of_ne (by rcases h2 with h | h <;> omega), hμu i hi]
  have hU := shlInto_spec un u (σ := ⟨ν, σ.stray⟩) hs (Nat.le_add_left 1 m)
    (by omega) (by omega) h2 (hud.congr hνu)
  set ξ : ℕ → ℕ := patch ν un.base (un.base + (m + 1))
    fun a => shlDigit L s (fun i => ν (u.base + i)) (a - un.base) with hξ
  have hrun : magDnorm L un vn u v (m + 1) (n + 1) σ = (⟨ξ, σ.stray⟩, s) := by
    have hget : ∀ (τ : Store) (p : Arr) (k : ℕ),
        τ.get p (((k + 1 : ℕ) : ℤ) - 1) = τ.mem (p.base + k) := by
      intro τ p k
      rw [Nat.cast_succ, add_sub_cancel_right, Store.get_nat]
    have hnote : ∀ (τ : Store) (p : Arr) (k : ℕ), k < p.len →
        τ.note p (((k + 1 : ℕ) : ℤ) - 1) = τ := by
      intro τ p k hk
      rw [Nat.cast_succ, add_sub_cancel_right, Store.note_eq hk]
    simp only [magDnorm, hget, ← hsdef]
    rw [hnote σ v n (by omega), hV, hnote _ u m (by omega), Store.put_eq (by omega)]
    simp only [hμu m m.lt_succ_self, htopval, ← hν]
    rw [hU]
  have hunlow : ∀ i < m + 1, ξ (un.base + i) = shlDigit L s (fun k => σ.mem (u.base + k)) i := by
    intro i hi
    rw [hξ, patch_in (by omega), Nat.add_sub_cancel_left]
    simp only [shlDigit, hνu i hi]
    by_cases h0 : i = 0
    · simp only [h0, if_true]
    · simp only [h0, if_false, hνu (i - 1) (by omega)]
  have huntop : ξ (un.base + (m + 1)) = top := by
    rw [hξ, patch_out (by omega), hν, Function.update_self]
  have hvncell : ∀ i < n + 1, ξ (vn.base + i) = shlDigit L s (fun k => σ.mem (v.base + k)) i := by
    intro i hi
    rw [hξ, patch_out (by rcases h4 with h | h <;> omega), hν,
      Function.update_of_ne (by rcases h4 with h | h <;> omega), hμ, patch_in (by omega),
      Nat.add_sub_cancel_left]
  have hshift : ∀ (p : Arr) (k : ℕ), value (2 ^ L) (fun i => σ.mem (p.base + i)) 0 k
      = value (2 ^ L) σ.mem p.base k :=
    fun p k => value_congr fun i _ => by rw [Nat.zero_add]
  rw [hrun]
  refine ⟨⟨hs, ?_, ?_, ?_, ?_⟩, rfl, ?_⟩
  · have hval := value_shlDigit (L := L) s (fun k => σ.mem (v.base + k)) n
    rw [Nat.div_eq_of_lt hfit, Nat.zero_mul, Nat.add_zero, hshift] at hval
    rw [← hval]
    exact value_congr fun i hi => by rw [Nat.zero_add]; exact hvncell i hi
  · have hval := value_shlDigit (L := L) s (fun k => σ.mem (u.base + k)) m
    rw [hshift, ← htopdef] at hval
    change value (2 ^ L) ξ un.base (m + 1 + 1) = _
    rw [value_succ, huntop, ← hval]
    congr 1
    exact value_congr fun i hi => by rw [Nat.zero_add]; exact hunlow i hi
  · intro i hi
    simp only [hvncell i hi]
    exact shlDigit_lt hs fun k hk => hvd k (by omega)
  · intro i hi
    rcases Nat.lt_succ_iff_lt_or_eq.mp hi with hlt | rfl
    · simp only [hunlow i hlt]
      exact shlDigit_lt hs fun k hk => hud k (by omega)
    · simp only [huntop]
      rw [htopdef, Nat.div_lt_iff_lt_mul (Nat.two_pow_pos L)]
      exact Nat.mul_lt_mul'' (hud m m.lt_succ_self) (Nat.pow_lt_pow_right (by decide) hs)
  · intro a hav hau
    simp only [hξ]
    rw [patch_out (by omega), hν, Function.update_of_ne (by omega), hμ, patch_out hav]

/-! ## `mag_ddenorm` -/

/-- The limb that `mag_ddenorm` writes. -/
theorem denormLimb_eq {s lo : ℕ} (hi : ℕ) (hs : s < L) (hlo : lo < 2 ^ L) :
    (lo >>> s ||| hi <<< (L - s)) % 2 ^ L = lo / 2 ^ s + hi % 2 ^ s * 2 ^ (L - s) := by
  have hL : 2 ^ L = 2 ^ (L - s) * 2 ^ s := by
    rw [← pow_add]
    congr 1
    omega
  have hlow : lo / 2 ^ s < 2 ^ (L - s) := by
    rw [Nat.div_lt_iff_lt_mul (Nat.two_pow_pos _), ← hL]
    exact hlo
  rw [Nat.shiftRight_eq_div_pow, Nat.or_comm, shl_or _ hlow, hL, Nat.add_mod,
    Nat.mul_comm hi, Nat.mul_mod_mul_left, Nat.mul_comm (2 ^ (L - s)) (hi % 2 ^ s),
    Nat.mod_eq_of_lt (a := lo / 2 ^ s) (hlow.trans_le (Nat.le_mul_of_pos_right _ (Nat.two_pow_pos s))),
    Nat.mod_eq_of_lt, Nat.add_comm]
  have hhi : hi % 2 ^ s + 1 ≤ 2 ^ s := Nat.mod_lt _ (Nat.two_pow_pos s)
  have := Nat.mul_le_mul_right (2 ^ (L - s)) hhi
  rw [Nat.add_mul, Nat.one_mul, Nat.mul_comm (2 ^ s)] at this
  omega

/-- The digits `mag_ddenorm` writes spell the quotient by `2 ^ s`, up to the bits at both ends. -/
theorem value_denorm {s : ℕ} (f : ℕ → ℕ) (hs : s ≤ L) (n : ℕ) :
    value (2 ^ L) (fun i => f i / 2 ^ s + f (i + 1) % 2 ^ s * 2 ^ (L - s)) 0 n * 2 ^ s + f 0 % 2 ^ s
      = value (2 ^ L) f 0 n + f n % 2 ^ s * (2 ^ L) ^ n := by
  have hL : 2 ^ L = 2 ^ (L - s) * 2 ^ s := by
    rw [← pow_add]
    congr 1
    omega
  induction n with
  | zero => simp
  | succ n ih =>
      simp only [value_succ, Nat.zero_add]
      have hdiv := Nat.mod_add_div' (f n) (2 ^ s)
      have hpow : (2 ^ L) ^ (n + 1) = 2 ^ (L - s) * 2 ^ s * (2 ^ L) ^ n := by
        rw [pow_succ, Nat.mul_comm, ← hL]
      rw [hpow]
      generalize f n / 2 ^ s = x at *
      generalize f n % 2 ^ s = y at *
      generalize f (n + 1) % 2 ^ s = z at *
      rw [← hdiv]
      generalize value (2 ^ L) f 0 n = w at *
      generalize (2 ^ L) ^ n = p at *
      nlinarith

/-- What `mag_ddenorm` leaves in `r`, when `un` holds `2 ^ s` times a remainder of `n` limbs. -/
theorem magDdenorm_spec (r un : Arr) {s n rest : ℕ} {σ : Store} (hs : s < L) (hr : r.len = n)
    (hun : n < un.len) (hap : r.Apart un) (hd : Digits (2 ^ L) σ.mem un.base (n + 1))
    (hval : value (2 ^ L) σ.mem un.base (n + 1) = rest * 2 ^ s)
    (hrest : rest * 2 ^ s < (2 ^ L) ^ n) :
    (magDdenorm L s n r un σ).stray = σ.stray ∧
      value (2 ^ L) (magDdenorm L s n r un σ).mem r.base n = rest ∧
      Digits (2 ^ L) (magDdenorm L s n r un σ).mem r.base n ∧
      ∀ a, ¬ (r.base ≤ a ∧ a < r.base + n) → (magDdenorm L s n r un σ).mem a = σ.mem a := by
  set f : ℕ → ℕ := fun i => σ.mem (un.base + i) with hf
  set g : ℕ → ℕ := fun i => f i / 2 ^ s + f (i + 1) % 2 ^ s * 2 ^ (L - s) with hg
  have htop : f n = 0 := by
    by_contra h
    have hpow := pow_le_value (B := 2 ^ L) (f := σ.mem) (k := un.base) (n := n + 1) n.succ_pos
      (by simpa [hf] using h)
    rw [hval, Nat.add_sub_cancel] at hpow
    omega
  have hlow : value (2 ^ L) f 0 n = rest * 2 ^ s := by
    rw [← hval, value_succ, show σ.mem (un.base + n) = 0 from htop, Nat.zero_mul, Nat.add_zero]
    exact value_congr fun i _ => by simp [hf]
  -- the loop writes the digits of `g`
  have hrun : magDdenorm L s n r un σ =
      ⟨patch σ.mem r.base (r.base + n) fun a => g (a - r.base), σ.stray⟩ := by
    rw [magDdenorm]
    refine Loop.upto_invariant (fun k t => t =
      (⟨patch σ.mem r.base (r.base + k) fun a => g (a - r.base), σ.stray⟩ : Store)) (by simp) ?_
    rintro k t hk rfl
    have hget : ∀ i ≤ n, ¬ (r.base ≤ un.base + i ∧ un.base + i < r.base + k) := by
      intro i hi
      rcases hap with h | h <;> omega
    have hlimb : (if s = 0 then σ.mem (un.base + k)
        else (σ.mem (un.base + k) >>> s ||| σ.mem (un.base + (k + 1)) <<< (L - s)) % 2 ^ L)
        = g (r.base + k - r.base) := by
      rw [Nat.add_sub_cancel_left]
      by_cases h0 : s = 0
      · simp [h0, hg, hf, Nat.mod_one]
      · rw [if_neg h0, denormLimb_eq _ hs (hd k (by omega))]
    simp only [Store.get_nat, Store.get_succ, patch_out (hget k (by omega)),
      patch_out (hget (k + 1) (by omega))]
    rw [← Nat.cast_succ, Store.note_eq (by omega), Store.note_eq (by omega), Store.put_eq (by omega),
      Store.put_eq (by omega)]
    have hext := update_patch_top (f := σ.mem) (g := fun a => g (a - r.base)) (Nat.le_add_right r.base k)
    simp only [← hlimb] at hext
    rw [Nat.add_assoc] at hext
    rw [← hext]
    split <;> rfl
  have hcell : ∀ i < n, (magDdenorm L s n r un σ).mem (r.base + i) = g i := by
    intro i hi
    rw [hrun]
    simp only
    rw [patch_in (by omega), Nat.add_sub_cancel_left]
  refine ⟨by rw [hrun], ?_, ?_, ?_⟩
  · have hden := value_denorm f hs.le n
    rw [htop, Nat.zero_mod, Nat.zero_mul, Nat.add_zero, hlow] at hden
    have hbot : f 0 % 2 ^ s = 0 := by
      have := congrArg (· % 2 ^ s) hden
      simpa [Nat.add_mod, Nat.mul_mod_left] using this
    rw [hbot, Nat.add_zero] at hden
    rw [value_congr (g := g) (l := 0) (fun i hi => by rw [Nat.zero_add]; exact hcell i hi)]
    exact Nat.eq_of_mul_eq_mul_right (Nat.two_pow_pos s) hden
  · intro i hi
    rw [hcell i hi, hg]
    have hL : 2 ^ L = 2 ^ (L - s) * 2 ^ s := by
      rw [← pow_add]
      congr 1
      omega
    have h1 : f i / 2 ^ s < 2 ^ (L - s) := by
      rw [Nat.div_lt_iff_lt_mul (Nat.two_pow_pos _), ← hL]
      exact hd i (by omega)
    have h2 : f (i + 1) % 2 ^ s + 1 ≤ 2 ^ s := Nat.mod_lt _ (Nat.two_pow_pos s)
    have h3 := Nat.mul_le_mul_right (2 ^ (L - s)) h2
    rw [Nat.add_mul, Nat.one_mul, Nat.mul_comm (2 ^ s), ← hL] at h3
    simp only
    omega
  · intro a ha
    rw [hrun]
    simp only
    exact patch_out ha

end LoveRuntime
