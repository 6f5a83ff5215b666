import LoveRuntime.Library.PrefixOrder
import LoveRuntime.Model.Compress.Lzfind

/-! `lzf_mlen`, byte by byte or a word at a time, is how far two positions agree. -/

namespace LoveRuntime.Lzfind

open PrefixOrder

/-- What follows a position. -/
def bytesFrom (s : List UInt8) (p : ℕ) : ℕ → ℕ := fun i => byteAt s (p + i)

/-- `m` is how far `a` and `b` agree, of `lim` bytes. -/
structure Longest (s : List UInt8) (a b lim m : ℕ) : Prop where
  le : m ≤ lim
  agree : AgreeTo m (bytesFrom s a) (bytesFrom s b)
  stop : m < lim → byteAt s (a + m) ≠ byteAt s (b + m)

theorem mlenBytes_longest {s : List UInt8} {a b lim fuel k : ℕ} (hk : k ≤ lim) (hfuel : lim ≤ k + fuel)
    (h : AgreeTo k (bytesFrom s a) (bytesFrom s b)) : Longest s a b lim (mlenBytes s a b lim fuel k) := by
  induction fuel generalizing k with
  | zero => exact ⟨hk, h, fun hlt => absurd hlt (Nat.not_lt_of_le hfuel)⟩
  | succ fuel ih =>
      rw [mlenBytes]
      split
      next hc => exact ih hc.1 (by omega) (h.snoc hc.2)
      next hc => exact ⟨hk, h, fun hlt heq => hc ⟨hlt, heq⟩⟩

/-! ### Words -/

theorem byteAt_lt (s : List UInt8) (i : ℕ) : byteAt s i < 256 := (s.getD i 0).toNat_lt

theorem ctz_mul (j n x : ℕ) : ctz (j + n) (2 ^ j * x) = j + ctz n x := by
  induction j with
  | zero => simp
  | succ j ih =>
      have hhalf : 2 ^ (j + 1) * x / 2 = 2 ^ j * x := by
        rw [Nat.pow_succ, Nat.mul_right_comm, Nat.mul_div_cancel _ (Nat.succ_pos 1)]
      have heven : 2 ^ (j + 1) * x % 2 = 0 := by
        rw [Nat.pow_succ, Nat.mul_right_comm, Nat.mul_mod_left]
      rw [Nat.add_right_comm, ctz, if_neg (by omega), hhalf, ih, Nat.add_right_comm]

theorem ctz_lt {j n x : ℕ} (hx : x % 2 ^ j ≠ 0) (hjn : j ≤ n) : ctz n x < j := by
  induction j generalizing n x with
  | zero => simp [Nat.mod_one] at hx
  | succ j ih =>
      obtain ⟨n, rfl⟩ : ∃ m, n = m + 1 := ⟨n - 1, by omega⟩
      rw [ctz]
      split
      · exact Nat.succ_pos j
      next hodd =>
        refine Nat.succ_lt_succ (ih ?_ (Nat.le_of_succ_le_succ hjn))
        rw [Nat.pow_succ, Nat.mul_comm, Nat.mod_mul] at hx
        omega

theorem load_succ_xor (s : List UInt8) (n a b : ℕ) :
    (load s (n + 1) a ^^^ load s (n + 1) b) % 256 = byteAt s a ^^^ byteAt s b ∧
      (load s (n + 1) a ^^^ load s (n + 1) b) / 256 = load s n (a + 1) ^^^ load s n (b + 1) := by
  have ha := byteAt_lt s a
  have hb := byteAt_lt s b
  have hmod : ∀ x, (byteAt s a + 256 * x) % 2 ^ 8 = byteAt s a := fun x => by omega
  have hmod' : ∀ x, (byteAt s b + 256 * x) % 2 ^ 8 = byteAt s b := fun x => by omega
  have hdiv : ∀ x, (byteAt s a + 256 * x) / 2 ^ 8 = x := fun x => by omega
  have hdiv' : ∀ x, (byteAt s b + 256 * x) / 2 ^ 8 = x := fun x => by omega
  constructor
  · calc (load s (n + 1) a ^^^ load s (n + 1) b) % 2 ^ 8
        = load s (n + 1) a % 2 ^ 8 ^^^ load s (n + 1) b % 2 ^ 8 := Nat.xor_mod_two_pow
      _ = byteAt s a ^^^ byteAt s b := by rw [load, load, hmod, hmod']
  · calc (load s (n + 1) a ^^^ load s (n + 1) b) / 2 ^ 8
        = load s (n + 1) a / 2 ^ 8 ^^^ load s (n + 1) b / 2 ^ 8 := Nat.xor_div_two_pow
      _ = load s n (a + 1) ^^^ load s n (b + 1) := by rw [load, load, hdiv, hdiv']

theorem bytesFrom_succ (s : List UInt8) (p : ℕ) : (fun i => bytesFrom s p (1 + i)) = bytesFrom s (p + 1) := by
  funext i
  rw [bytesFrom, bytesFrom, Nat.add_assoc]

theorem agree_one {s : List UInt8} {a b : ℕ} (h : byteAt s a = byteAt s b) : AgreeTo 1 (bytesFrom s a) (bytesFrom s b) :=
  (agree_zero _ _).snoc h

theorem agree_cons {s : List UInt8} {n a b : ℕ} (h : byteAt s a = byteAt s b)
    (hrest : AgreeTo n (bytesFrom s (a + 1)) (bytesFrom s (b + 1))) : AgreeTo (1 + n) (bytesFrom s a) (bytesFrom s b) := by
  refine (agree_one h).append ?_
  rwa [bytesFrom_succ, bytesFrom_succ]

/-- The first byte that differs is the one that the lowest bit set stands in. -/
theorem load_xor (s : List UInt8) (n a b : ℕ) :
    (load s n a ^^^ load s n b = 0 → AgreeTo n (bytesFrom s a) (bytesFrom s b)) ∧
      (load s n a ^^^ load s n b ≠ 0 →
        ctz (8 * n) (load s n a ^^^ load s n b) >>> 3 < n ∧
          Longest s a b n (ctz (8 * n) (load s n a ^^^ load s n b) >>> 3)) := by
  induction n generalizing a b with
  | zero => exact ⟨fun _ => agree_zero _ _, fun h => (h (Nat.xor_self 0)).elim⟩
  | succ n ih =>
      obtain ⟨hmod, hdiv⟩ := load_succ_xor s n a b
      obtain ⟨ihz, ihnz⟩ := ih (a + 1) (b + 1)
      generalize load s (n + 1) a ^^^ load s (n + 1) b = z at hmod hdiv ⊢
      by_cases hbyte : byteAt s a = byteAt s b
      · rw [hbyte, Nat.xor_self] at hmod
        have hz : z = 2 ^ 8 * (load s n (a + 1) ^^^ load s n (b + 1)) := by omega
        constructor
        · intro hzero
          rw [Nat.add_comm]
          exact agree_cons hbyte (ihz (by omega))
        · intro hnz
          obtain ⟨hlt, hle, hagree, hstop⟩ := ihnz (by omega)
          have hctz : ctz (8 * (n + 1)) z >>> 3 = 1 + ctz (8 * n) (load s n (a + 1) ^^^ load s n (b + 1)) >>> 3 := by
            rw [hz, Nat.mul_succ, Nat.add_comm, ctz_mul, Nat.shiftRight_eq_div_pow, Nat.shiftRight_eq_div_pow]
            omega
          rw [hctz]
          refine ⟨by omega, by omega, agree_cons hbyte hagree, fun h => ?_⟩
          rw [← Nat.add_assoc, ← Nat.add_assoc]
          exact hstop (by omega)
      · have hnz : z % 2 ^ 8 ≠ 0 := by
          intro h
          exact hbyte (Nat.xor_eq_zero_iff.mp (hmod.symm.trans h))
        have hctz : ctz (8 * (n + 1)) z >>> 3 = 0 := by
          have := ctz_lt hnz (n := 8 * (n + 1)) (by omega)
          rw [Nat.shiftRight_eq_div_pow]
          omega
        constructor
        · rintro rfl
          exact (hnz rfl).elim
        · intro _
          rw [hctz]
          exact ⟨Nat.succ_pos n, Nat.zero_le _, agree_zero _ _, fun _ => hbyte⟩

theorem mlenWords_longest {s : List UInt8} {a b lim fuel k : ℕ} (hk : k ≤ lim) (hfuel : lim < k + fuel)
    (h : AgreeTo k (bytesFrom s a) (bytesFrom s b)) : Longest s a b lim (mlenWords s a b lim fuel k) := by
  induction fuel generalizing k with
  | zero => omega
  | succ fuel ih =>
      obtain ⟨hzero, hnz⟩ := load_xor s 8 (a + k) (b + k)
      rw [show 8 * 8 = 64 from rfl] at hnz
      have happend {l : ℕ} (hl : AgreeTo l (bytesFrom s (a + k)) (bytesFrom s (b + k))) :
          AgreeTo (k + l) (bytesFrom s a) (bytesFrom s b) := by
        refine h.append fun i hi => ?_
        have := hl i hi
        simpa only [bytesFrom, Nat.add_assoc] using this
      rw [mlenWords]
      split
      next hroom =>
        simp only
        split
        next hne =>
          obtain ⟨hlt, hle, hagree, hstop⟩ := hnz hne
          refine ⟨by omega, happend hagree, fun _ => ?_⟩
          rw [← Nat.add_assoc, ← Nat.add_assoc]
          exact hstop hlt
        next heq => exact ih hroom (by omega) (happend (hzero (not_not.mp heq)))
      next hroom => exact mlenBytes_longest hk (by omega) h

/-- Whatever the build. -/
theorem lzfMlen_longest (wide : Bool) (s : List UInt8) (a b lim : ℕ) :
    Longest s a b lim (lzfMlen wide s a b lim) := by
  rw [lzfMlen]
  split
  · exact mlenWords_longest (Nat.zero_le lim) (by omega) (agree_zero _ _)
  · exact mlenBytes_longest (Nat.zero_le lim) (by omega) (agree_zero _ _)

end LoveRuntime.Lzfind
