import Mathlib.Data.Nat.Basic
import Mathlib.Order.Basic

/-! # Counted loops

A C loop `for (i = 0; i < n; i++) body` is the fold `upto n body`; its mirror image
`for (i = n - 1; i >= 0; i--) body` is `downto n body`. Both come with one invariant
rule, which is how every loop of the models is reasoned about. -/

namespace Loop

variable {σ : Type*}

/-- Run `body 0`, `body 1`, …, `body (n - 1)` in this order. -/
def upto : ℕ → (ℕ → σ → σ) → σ → σ
  | 0, _, s => s
  | n + 1, body, s => body n (upto n body s)

/-- Run `body (n - 1)`, …, `body 1`, `body 0` in this order. -/
def downto : ℕ → (ℕ → σ → σ) → σ → σ
  | 0, _, s => s
  | n + 1, body, s => downto n body (body n s)

@[simp] theorem upto_zero (body : ℕ → σ → σ) (s : σ) : upto 0 body s = s := rfl

theorem upto_succ (n : ℕ) (body : ℕ → σ → σ) (s : σ) :
    upto (n + 1) body s = body n (upto n body s) := rfl

@[simp] theorem downto_zero (body : ℕ → σ → σ) (s : σ) : downto 0 body s = s := rfl

theorem downto_succ (n : ℕ) (body : ℕ → σ → σ) (s : σ) :
    downto (n + 1) body s = downto n body (body n s) := rfl

/-- The invariant rule of an upward loop. -/
theorem upto_invariant {n : ℕ} {body : ℕ → σ → σ} {s : σ} (P : ℕ → σ → Prop)
    (init : P 0 s) (step : ∀ i t, i < n → P i t → P (i + 1) (body i t)) :
    P n (upto n body s) := by
  induction n with
  | zero => exact init
  | succ n ih =>
      rw [upto_succ]
      exact step n _ n.lt_succ_self (ih fun i t hi => step i t (Nat.lt_succ_of_lt hi))

/-- The invariant rule of a downward loop: `P k` holds while `k` iterations remain. -/
theorem downto_invariant {n : ℕ} {body : ℕ → σ → σ} {s : σ} (P : ℕ → σ → Prop)
    (init : P n s) (step : ∀ i t, i < n → P (i + 1) t → P i (body i t)) :
    P 0 (downto n body s) := by
  induction n generalizing s with
  | zero => exact init
  | succ n ih =>
      rw [downto_succ]
      exact ih (step n s n.lt_succ_self init) fun i t hi => step i t (Nat.lt_succ_of_lt hi)

/-- An upward loop may be cut anywhere. -/
theorem upto_add (m n : ℕ) (body : ℕ → σ → σ) (s : σ) :
    upto (m + n) body s = upto n (fun i => body (m + i)) (upto m body s) := by
  induction n with
  | zero => rfl
  | succ n ih => rw [Nat.add_succ, upto_succ, ih, upto_succ]

end Loop
