import LoveRuntime.Library.Loop
import LoveRuntime.Library.Radix

/-! # Carry and borrow loops

Limb arithmetic writes one digit of a result at a time and hands a carry (or a borrow) on to
the next. `loop` is the adding shape, `borrow` the subtracting one; what is added or taken at
a digit is a function of the memory as the loop finds it, which lets the result overlap an
operand as long as no digit is read after it is written. -/

namespace Carry

open Radix Function

/-- `for (i = 0; i < n; i++) s = term(i) + c, r[i] = s % B, c = s / B`. -/
def loop (B r : ℕ) (term : (ℕ → ℕ) → ℕ → ℕ) (n : ℕ) (t : (ℕ → ℕ) × ℕ) : (ℕ → ℕ) × ℕ :=
  Loop.upto n (fun i t =>
    let s := term t.1 i + t.2
    (update t.1 (r + i) (s % B), s / B)) t

/-- `for (i = 0; i < n; i++) d = pos(i) - neg(i) - c, c = d < 0, r[i] = d + c * B`. -/
def borrow (B r : ℕ) (pos neg : (ℕ → ℕ) → ℕ → ℕ) (n : ℕ) (t : (ℕ → ℕ) × ℕ) : (ℕ → ℕ) × ℕ :=
  Loop.upto n (fun i t =>
    let d : ℤ := pos t.1 i - neg t.1 i - t.2
    if d < 0 then (update t.1 (r + i) (d + B).toNat, 1) else (update t.1 (r + i) d.toNat, 0)) t

/-- `term` at digit `i` is `x i` in every memory that agrees with `μ` except on the digits of
the result already written. -/
def Reads (μ : ℕ → ℕ) (r n : ℕ) (term : (ℕ → ℕ) → ℕ → ℕ) (x : ℕ → ℕ) : Prop :=
  ∀ i < n, ∀ ν : ℕ → ℕ, (∀ a, ¬ (r ≤ a ∧ a < r + i) → ν a = μ a) → term ν i = x i

/-- What an adding loop leaves of the carry `c` it starts with; no carry exceeds `K`. -/
structure LoopSpec (B r n : ℕ) (x : ℕ → ℕ) (K c : ℕ) (μ : ℕ → ℕ) (t : (ℕ → ℕ) × ℕ) : Prop where
  total : value B t.1 r n + t.2 * B ^ n = value B x 0 n + c
  digits : Digits B t.1 r n
  carry_le : t.2 ≤ K
  frame : ∀ a, ¬ (r ≤ a ∧ a < r + n) → t.1 a = μ a

/-- What a subtracting loop leaves. -/
structure BorrowSpec (B r n : ℕ) (x y : ℕ → ℕ) (c : ℕ) (μ : ℕ → ℕ) (t : (ℕ → ℕ) × ℕ) : Prop where
  total : value B t.1 r n + value B y 0 n + c = value B x 0 n + t.2 * B ^ n
  digits : Digits B t.1 r n
  borrow_le : t.2 ≤ 1
  frame : ∀ a, ¬ (r ≤ a ∧ a < r + n) → t.1 a = μ a

variable {B r n : ℕ} {μ : ℕ → ℕ} {x y : ℕ → ℕ}

/-- Writing the next digit up. -/
theorem value_update_top {f : ℕ → ℕ} {d : ℕ} :
    value B (update f (r + n) d) r (n + 1) = value B f r n + d * B ^ n := by
  rw [value_succ, update_self]
  congr 1
  exact value_congr fun i hi => update_of_ne (by omega) _ _

theorem digits_update_top {f : ℕ → ℕ} {d : ℕ} (h : Digits B f r n) (hd : d < B) :
    Digits B (update f (r + n) d) r (n + 1) := by
  intro i hi
  rcases Nat.lt_succ_iff_lt_or_eq.mp hi with hlt | rfl
  · rw [update_of_ne (by omega)]
    exact h i hlt
  · rw [update_self]
    exact hd

/-- One digit of an adding loop. -/
theorem LoopSpec.step (hB : 0 < B) {K c i : ℕ} {t : (ℕ → ℕ) × ℕ} (hK : x i + K < B * (K + 1))
    (h : LoopSpec B r i x K c μ t) :
    LoopSpec B r (i + 1) x K c μ (update t.1 (r + i) ((x i + t.2) % B), (x i + t.2) / B) := by
  have hle := h.carry_le
  refine ⟨?_, digits_update_top h.digits (Nat.mod_lt _ hB), ?_, ?_⟩
  · simp only
    rw [value_update_top, value_succ, Nat.zero_add, pow_succ]
    have hdm := Nat.mod_add_div (x i + t.2) B
    have htotal := h.total
    calc value B t.1 r i + (x i + t.2) % B * B ^ i + (x i + t.2) / B * (B ^ i * B)
        = value B t.1 r i + ((x i + t.2) % B + B * ((x i + t.2) / B)) * B ^ i := by ring
      _ = value B t.1 r i + t.2 * B ^ i + x i * B ^ i := by rw [hdm]; ring
      _ = value B x 0 i + x i * B ^ i + c := by rw [htotal]; ring
  · refine Nat.le_of_lt_succ ((Nat.div_lt_iff_lt_mul hB).mpr ?_)
    rw [Nat.mul_comm]
    exact lt_of_le_of_lt (Nat.add_le_add_left hle _) hK
  · intro a ha
    simp only
    rw [update_of_ne (by omega), h.frame a (by omega)]

theorem LoopSpec.zero {K c : ℕ} (hc : c ≤ K) : LoopSpec B r 0 x K c μ (μ, c) :=
  ⟨by simp, fun i hi => absurd hi i.not_lt_zero, hc, fun _ _ => rfl⟩

theorem loop_spec (hB : 0 < B) {term : (ℕ → ℕ) → ℕ → ℕ} (hterm : Reads μ r n term x) {K c : ℕ}
    (hK : ∀ i < n, x i + K < B * (K + 1)) (hc : c ≤ K) :
    LoopSpec B r n x K c μ (loop B r term n (μ, c)) := by
  refine Loop.upto_invariant (fun i t => LoopSpec B r i x K c μ t) (.zero hc) ?_
  intro i t hi h
  simp only
  rw [hterm i hi t.1 h.frame]
  exact h.step hB (hK i hi)

theorem borrow_spec {pos neg : (ℕ → ℕ) → ℕ → ℕ} (hpos : Reads μ r n pos x) (hneg : Reads μ r n neg y)
    (hx : ∀ i < n, x i < B) (hy : ∀ i < n, y i < B) {c : ℕ} (hc : c ≤ 1) :
    BorrowSpec B r n x y c μ (borrow B r pos neg n (μ, c)) := by
  refine Loop.upto_invariant (fun i t => BorrowSpec B r i x y c μ t)
    ⟨by simp, fun i hi => absurd hi i.not_lt_zero, hc, fun _ _ => rfl⟩ ?_
  intro i t hi h
  simp only
  rw [hpos i hi t.1 h.frame, hneg i hi t.1 h.frame]
  have hxi := hx i hi
  have hyi := hy i hi
  have hle := h.borrow_le
  have htotal := h.total
  -- the digit written and the borrow handed on settle the digit's account
  have hstep : ∀ d b : ℕ, d + y i + t.2 = x i + b * B → d < B → b ≤ 1 →
      BorrowSpec B r (i + 1) x y c μ (update t.1 (r + i) d, b) := by
    intro d b hd hlt hb
    refine ⟨?_, digits_update_top h.digits hlt, hb, ?_⟩
    · simp only
      rw [value_update_top, value_succ, value_succ, Nat.zero_add, pow_succ]
      calc value B t.1 r i + d * B ^ i + (value B y 0 i + y i * B ^ i) + c
          = value B t.1 r i + value B y 0 i + c + (d + y i) * B ^ i := by ring
        _ = value B x 0 i + (d + y i + t.2) * B ^ i := by rw [htotal]; ring
        _ = value B x 0 i + x i * B ^ i + b * (B ^ i * B) := by rw [hd]; ring
    · intro a ha
      simp only
      rw [update_of_ne (by omega), h.frame a (by omega)]
  split
  · exact hstep _ _ (by omega) (by omega) le_rfl
  · exact hstep _ _ (by omega) (by omega) (Nat.zero_le 1)

/-! ## One loop after another -/

section Append

variable {k : ℕ} {x' y' : ℕ → ℕ} {K c : ℕ} {t s : (ℕ → ℕ) × ℕ}

theorem value_append (h : ∀ a, ¬ (r + n ≤ a ∧ a < r + n + k) → s.1 a = t.1 a) :
    value B s.1 r (n + k) = value B t.1 r n + B ^ n * value B s.1 (r + n) k := by
  rw [value_add]
  congr 1
  exact value_congr fun i hi => h _ (by omega)

theorem digits_append (h : ∀ a, ¬ (r + n ≤ a ∧ a < r + n + k) → s.1 a = t.1 a)
    (h1 : Digits B t.1 r n) (h2 : Digits B s.1 (r + n) k) : Digits B s.1 r (n + k) := by
  intro i hi
  by_cases hin : i < n
  · rw [h _ (by omega)]
    exact h1 i hin
  · obtain ⟨j, rfl⟩ : ∃ j, i = n + j := ⟨i - n, by omega⟩
    rw [← Nat.add_assoc]
    exact h2 j (by omega)

theorem LoopSpec.append (h1 : LoopSpec B r n x K c μ t) (h2 : LoopSpec B (r + n) k x' K t.2 t.1 s) :
    value B s.1 r (n + k) + s.2 * B ^ (n + k) = value B x 0 n + B ^ n * value B x' 0 k + c ∧
      Digits B s.1 r (n + k) ∧ ∀ a, ¬ (r ≤ a ∧ a < r + (n + k)) → s.1 a = μ a := by
  refine ⟨?_, digits_append h2.frame h1.digits h2.digits, fun a ha => ?_⟩
  · have e1 := h1.total
    have e2 := h2.total
    rw [value_append h2.frame, pow_add]
    calc value B t.1 r n + B ^ n * value B s.1 (r + n) k + s.2 * (B ^ n * B ^ k)
        = value B t.1 r n + B ^ n * (value B s.1 (r + n) k + s.2 * B ^ k) := by ring
      _ = value B t.1 r n + t.2 * B ^ n + B ^ n * value B x' 0 k := by rw [e2]; ring
      _ = _ := by rw [e1]; ring
  · rw [h2.frame a (by omega), h1.frame a (by omega)]

theorem BorrowSpec.append (h1 : BorrowSpec B r n x y c μ t)
    (h2 : BorrowSpec B (r + n) k x' y' t.2 t.1 s) :
    value B s.1 r (n + k) + (value B y 0 n + B ^ n * value B y' 0 k) + c
        = value B x 0 n + B ^ n * value B x' 0 k + s.2 * B ^ (n + k) ∧
      Digits B s.1 r (n + k) ∧ ∀ a, ¬ (r ≤ a ∧ a < r + (n + k)) → s.1 a = μ a := by
  refine ⟨?_, digits_append h2.frame h1.digits h2.digits, fun a ha => ?_⟩
  · have e1 := h1.total
    have e2 := h2.total
    rw [value_append h2.frame, pow_add]
    calc value B t.1 r n + B ^ n * value B s.1 (r + n) k + (value B y 0 n + B ^ n * value B y' 0 k) + c
        = value B t.1 r n + value B y 0 n + c
          + B ^ n * (value B s.1 (r + n) k + value B y' 0 k) := by ring
      _ = value B x 0 n + B ^ n * (value B s.1 (r + n) k + value B y' 0 k + t.2) := by rw [e1]; ring
      _ = _ := by rw [e2]; ring
  · rw [h2.frame a (by omega), h1.frame a (by omega)]

end Append

/-! ## The sums that the loops add up -/

theorem value_zip (f g : ℕ → ℕ) (n : ℕ) :
    value B (fun i => f i + g i) 0 n = value B f 0 n + value B g 0 n := by
  induction n with
  | zero => simp
  | succ n ih =>
      simp only [value_succ, Nat.zero_add, ih]
      ring

theorem value_scale (k : ℕ) (f : ℕ → ℕ) (n : ℕ) :
    value B (fun i => k * f i) 0 n = k * value B f 0 n := by
  induction n with
  | zero => simp
  | succ n ih =>
      simp only [value_succ, Nat.zero_add, ih]
      ring

theorem value_shift (f : ℕ → ℕ) (k n : ℕ) : value B (fun i => f (k + i)) 0 n = value B f k n :=
  value_congr fun i _ => by rw [Nat.zero_add]

end Carry
