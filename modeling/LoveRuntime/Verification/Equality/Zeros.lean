import LoveRuntime.Verification.Equality.Hash
import Mathlib.Data.Nat.ModEq

/-! # Where the condition is exact

Two gems, or two twins, of opposite zeros are equal keys with two hashes. -/

namespace LoveRuntime

open LoveRuntime.Core

variable {g : Core}

/-! ## Bytes of words -/

/-- The bytes of one word, onto a hash. -/
def wordFold (r : Arch) (h w : ℕ) : ℕ :=
  (List.range r.bytes).foldl (fun h i => r.fold h ((w >>> (8 * i)) % 256)) h

theorem wordFold_cell (x j h : ℕ) :
    (List.range g.arch.bytes).foldl
      (fun h i => g.arch.fold h (g.byte x (j * g.arch.bytes + i))) h =
      wordFold g.arch h (g.cell x j) := by
  apply List.foldl_ext
  intro acc i hi
  have hi' := List.mem_range.mp hi
  have hpos := g.arch.bytes_pos
  rw [byte, Nat.mul_comm j, Nat.mul_add_div hpos, Nat.div_eq_of_lt hi', Nat.mul_add_mod,
    Nat.mod_eq_of_lt hi', Nat.add_zero]

theorem boxHash_one (x : ℕ) :
    g.boxHash x (2 * g.arch.bytes) = wordFold g.arch g.arch.mix (g.cell x 1) := by
  rw [← wordFold_cell, boxHash, bytesHash, Nat.one_mul,
    show 2 * g.arch.bytes - g.arch.bytes = g.arch.bytes by omega]

theorem boxHash_two (x : ℕ) :
    g.boxHash x (3 * g.arch.bytes) =
      wordFold g.arch (wordFold g.arch g.arch.mix (g.cell x 1)) (g.cell x 2) := by
  rw [← wordFold_cell x 1, ← wordFold_cell x 2, boxHash, bytesHash,
    show 3 * g.arch.bytes - g.arch.bytes = g.arch.bytes + g.arch.bytes by omega, List.range_add,
    List.foldl_append, List.foldl_map, Nat.one_mul, Nat.two_mul]
  simp only [Nat.add_assoc]

theorem Arch.fold_lt (r : Arch) (h t : ℕ) : r.fold h t < 2 ^ r.bits :=
  Nat.mod_lt _ (Nat.two_pow_pos _)

/-- A fold keeps apart what it is given. -/
theorem fold_xor_eq (r : Arch) {h h' t t' : ℕ} (hh : h < 2 ^ r.bits) (hh' : h' < 2 ^ r.bits)
    (ht : t < 2 ^ r.bits) (ht' : t' < 2 ^ r.bits) (heq : r.fold h t = r.fold h' t') :
    h ^^^ t = h' ^^^ t' := by
  have hcop : Nat.gcd (2 ^ r.bits) r.mix = 1 := by
    apply Nat.Coprime.pow_left
    cases r <;> decide
  have hmod : Nat.ModEq (2 ^ r.bits) (h ^^^ t) (h' ^^^ t') :=
    Nat.ModEq.cancel_right_of_coprime hcop heq
  exact Nat.ModEq.eq_of_lt_of_lt hmod (Nat.xor_lt_two_pow hh ht) (Nat.xor_lt_two_pow hh' ht')

theorem byte_lt (r : Arch) (n : ℕ) : n % 256 < 2 ^ r.bits := by
  have h : 256 ≤ 2 ^ r.bits := by
    cases r <;> decide
  exact lt_of_lt_of_le (Nat.mod_lt _ (by decide)) h

theorem foldl_fold_lt (r : Arch) {h : ℕ} (hh : h < 2 ^ r.bits) (w : ℕ) (l : List ℕ) :
    l.foldl (fun h i => r.fold h ((w >>> (8 * i)) % 256)) h < 2 ^ r.bits := by
  induction l generalizing h with
  | nil => exact hh
  | cons i l ih => exact ih (r.fold_lt _ _)

/-- The bytes of a word lose nothing of the hash before them. -/
theorem wordFold_injective (r : Arch) {h h' w : ℕ} (hh : h < 2 ^ r.bits)
    (hh' : h' < 2 ^ r.bits) (heq : wordFold r h w = wordFold r h' w) : h = h' := by
  unfold wordFold at heq
  generalize r.bytes = n at heq
  induction n generalizing h h' with
  | zero => exact heq
  | succ n ih =>
      rw [List.range_succ, List.foldl_append, List.foldl_append] at heq
      have hx := fold_xor_eq r (foldl_fold_lt r hh w _) (foldl_fold_lt r hh' w _) (byte_lt r _)
        (byte_lt r _) heq
      exact ih hh hh' (Nat.xor_left_injective hx)

/-- The sign of a zero is seen in the last byte. -/
theorem wordFold_sign (r : Arch) {h : ℕ} (hh : h < 2 ^ r.bits) :
    wordFold r h 0 ≠ wordFold r h (2 ^ (r.bits - 1)) := by
  intro heq
  obtain ⟨n, hn, hlast, hfirst⟩ : ∃ n, r.bytes = n + 1 ∧
      (2 ^ (r.bits - 1) >>> (8 * n)) % 256 = 128 ∧
      ∀ i ∈ List.range n, (2 ^ (r.bits - 1) >>> (8 * i)) % 256 = 0 := by
    cases r with
    | w32 => exact ⟨3, rfl, by decide, by decide⟩
    | w64 => exact ⟨7, rfl, by decide, by decide⟩
  have hsame : (List.range n).foldl (fun h i => r.fold h ((0 >>> (8 * i)) % 256)) h =
      (List.range n).foldl
        (fun h i => r.fold h ((2 ^ (r.bits - 1) >>> (8 * i)) % 256)) h := by
    apply List.foldl_ext
    intro acc i hi
    rw [hfirst i hi, Nat.zero_shiftRight]
  rw [wordFold, wordFold, hn, List.range_succ, List.foldl_append, List.foldl_append, hsame] at heq
  have hlt := foldl_fold_lt r hh (2 ^ (r.bits - 1)) (List.range n)
  have hx := fold_xor_eq r hlt hlt (byte_lt r _) (byte_lt r _) heq
  have := Nat.xor_right_injective hx
  rw [hlast, Nat.zero_shiftRight] at this
  simp at this

/-! ## Zeros -/

/-- Two zeros of two signs, as words. -/
theorem OppositeZeros.words {r : Arch} {u v : ℕ} (hu : u < 2 ^ r.bits) (hv : v < 2 ^ r.bits)
    (h : OppositeZeros r u v) :
    u = 0 ∧ v = 2 ^ (r.bits - 1) ∨ u = 2 ^ (r.bits - 1) ∧ v = 0 := by
  have hzero : ∀ w < 2 ^ r.bits, r.unsigned w = 0 → w = 0 ∨ w = 2 ^ (r.bits - 1) := by
    intro w hw h0
    have hdouble : 2 ^ r.bits = 2 ^ (r.bits - 1) + 2 ^ (r.bits - 1) := by
      cases r <;> decide
    obtain ⟨k, hk⟩ := Nat.dvd_of_mod_eq_zero h0
    rcases (show k = 0 ∨ k = 1 ∨ 2 ≤ k by omega) with rfl | rfl | h2
    · exact .inl (by simpa using hk)
    · exact .inr (by simpa using hk)
    · have := Nat.mul_le_mul_left (2 ^ (r.bits - 1)) h2
      omega
  obtain ⟨h1, h2, hne⟩ := h
  rcases hzero u hu h1 with hu | hu <;> rcases hzero v hv h2 with hv | hv
  · exact absurd (hu.trans hv.symm) hne
  · exact .inl ⟨hu, hv⟩
  · exact .inr ⟨hu, hv⟩
  · exact absurd (hu.trans hv.symm) hne

/-- One word of two signs, onto one hash. -/
theorem wordFold_opposite {r : Arch} {h u v : ℕ} (hh : h < 2 ^ r.bits) (hu : u < 2 ^ r.bits)
    (hv : v < 2 ^ r.bits) (ho : OppositeZeros r u v) : wordFold r h u ≠ wordFold r h v := by
  rcases ho.words hu hv with ⟨rfl, rfl⟩ | ⟨rfl, rfl⟩
  · exact wordFold_sign r hh
  · exact (wordFold_sign r hh).symm

/-- Both words of a twin of two signs. -/
theorem wordFold_opposites {r : Arch} {u v u' v' : ℕ} (hu : u < 2 ^ r.bits)
    (hv : v < 2 ^ r.bits) (hu' : u' < 2 ^ r.bits) (hv' : v' < 2 ^ r.bits)
    (ho : OppositeZeros r u v) (ho' : OppositeZeros r u' v') :
    wordFold r (wordFold r r.mix u) u' ≠ wordFold r (wordFold r r.mix v) v' := by
  rcases ho.words hu hv with ⟨rfl, rfl⟩ | ⟨rfl, rfl⟩ <;>
    rcases ho'.words hu' hv' with ⟨rfl, rfl⟩ | ⟨rfl, rfl⟩ <;>
    cases r <;> decide

theorem Arch.mix_lt (r : Arch) : r.mix < 2 ^ r.bits := by
  cases r <;> decide

/-- The hash of a box is its bytes'. -/
theorem hash_box {x : ℕ} {d : DataKind} (hx : charmp x = false) (hd : g.dat x = some d)
    (hchain : d ≠ .chain) (htray : d ≠ .tray) (fuel room : ℕ) :
    g.hash fuel room x = .ok (g.dataHash x d) := by
  have hc : g.chainp x = false := by
    by_contra hc
    simp only [chainp, Bool.not_eq_false, Bool.and_eq_true, beq_iff_eq] at hc
    simp only [dat, hc.2, Option.some.injEq] at hd
    exact hchain hd.symm
  have hbeq : (d == DataKind.tray) = false := by simp [htray]
  simp [Core.hash, hx, hc, hashLeaf, hd, hbeq, pure, Except.pure]

theorem hash_gem_iff {a b : ℕ} (ha : charmp a = false) (hb : charmp b = false)
    (hda : g.dat a = some .gem) (hdb : g.dat b = some .gem)
    (heq : g.arch.floEq (g.cell a 1) (g.cell b 1) = true) (fuel room : ℕ) :
    g.hash fuel room a = g.hash fuel room b ↔
      ¬ OppositeZeros g.arch (g.cell a 1) (g.cell b 1) := by
  rw [hash_box ha hda (by simp) (by simp), hash_box hb hdb (by simp) (by simp),
    Except.ok.injEq, dataHash, dataHash, boxHash_one, boxHash_one]
  constructor
  · intro h ho
    exact wordFold_opposite g.arch.mix_lt (g.words _) (g.words _) ho h
  · intro ho
    rw [floEq_bits heq ho]

theorem hash_twin_iff {a b : ℕ} (ha : charmp a = false) (hb : charmp b = false)
    (hda : g.dat a = some .twin) (hdb : g.dat b = some .twin)
    (hre : g.arch.floEq (g.cell a 1) (g.cell b 1) = true)
    (him : g.arch.floEq (g.cell a 2) (g.cell b 2) = true) (fuel room : ℕ) :
    g.hash fuel room a = g.hash fuel room b ↔
      ¬ OppositeZeros g.arch (g.cell a 1) (g.cell b 1) ∧
        ¬ OppositeZeros g.arch (g.cell a 2) (g.cell b 2) := by
  have hlt : ∀ w, wordFold g.arch g.arch.mix w < 2 ^ g.arch.bits := fun w =>
    foldl_fold_lt g.arch g.arch.mix_lt w _
  rw [hash_box ha hda (by simp) (by simp), hash_box hb hdb (by simp) (by simp),
    Except.ok.injEq, dataHash, dataHash, boxHash_two, boxHash_two]
  constructor
  · intro h
    by_cases hore : OppositeZeros g.arch (g.cell a 1) (g.cell b 1)
    · exfalso
      by_cases hoim : OppositeZeros g.arch (g.cell a 2) (g.cell b 2)
      · exact wordFold_opposites (g.words _) (g.words _) (g.words _) (g.words _) hore hoim h
      · rw [floEq_bits him hoim] at h
        exact wordFold_opposite g.arch.mix_lt (g.words _) (g.words _) hore
          (wordFold_injective g.arch (hlt _) (hlt _) h)
    · refine ⟨hore, fun hoim => ?_⟩
      rw [floEq_bits hre hore] at h
      exact wordFold_opposite (hlt _) (g.words _) (g.words _) hoim h
  · rintro ⟨hore, hoim⟩
    rw [floEq_bits hre hore, floEq_bits him hoim]

/-- **Hash and equality.** Equal keys hash alike when no pair that the hashes read side by side
is a zero of two signs or a word that points back into one of two threads; and of two equal
gems, or two equal twins, that is the only way. -/
theorem hash_respects_eqv {fuel room a b : ℕ} (hlaid : Laid g a b)
    (h : g.eqv fuel room a b = .ok true) :
    (Fair g a b → ∀ fuel' room', g.hash fuel' room' a = g.hash fuel' room' b) ∧
      (a ≠ b → g.dat a = some .gem → g.dat b = some .gem → charmp a = false → charmp b = false →
        ∀ fuel' room', g.hash fuel' room' a = g.hash fuel' room' b ↔
          ¬ OppositeZeros g.arch (g.cell a 1) (g.cell b 1)) ∧
      (a ≠ b → g.dat a = some .twin → g.dat b = some .twin → charmp a = false →
        charmp b = false → ∀ fuel' room', g.hash fuel' room' a = g.hash fuel' room' b ↔
          ¬ OppositeZeros g.arch (g.cell a 1) (g.cell b 1) ∧
            ¬ OppositeZeros g.arch (g.cell a 2) (g.cell b 2)) := by
  have hdata : ∀ d, a ≠ b → g.dat a = some d → g.dat b = some d → charmp a = false →
      charmp b = false → g.eqvLeaf a b = g.eqvData a b d := by
    intro d hab hda hdb ha hb
    have hcoin : ∀ z, g.dat z = some d → g.coinp z = false := by
      intro z hz
      by_contra hc
      rw [Bool.not_eq_false, coinp_iff] at hc
      simp [dat_of_coin hc.2] at hz
    simp [eqvLeaf, hab, hcoin a hda, hcoin b hdb, datp, hda, hdb, ha, hb]
  refine ⟨fun hfair => hash_eq_of_eqv hlaid hfair h, ?_, ?_⟩
  · intro hab hda hdb ha hb
    have hleaf := hdata .gem hab hda hdb ha hb
    apply hash_gem_iff ha hb hda hdb
    by_contra hno
    simp only [Core.eqv, hleaf, eqvData, if_neg hno] at h
    cases h
  · intro hab hda hdb ha hb
    have hleaf := hdata .twin hab hda hdb ha hb
    have hboth : (g.arch.floEq (g.cell a 1) (g.cell b 1) &&
        g.arch.floEq (g.cell a 2) (g.cell b 2)) = true := by
      by_contra hno
      simp only [Core.eqv, hleaf, eqvData, if_neg hno] at h
      cases h
    rw [Bool.and_eq_true] at hboth
    exact hash_twin_iff ha hb hda hdb hboth.1 hboth.2

/-! ## Two cores -/

/-- A core whose heap holds two gems, at 16 and 32, with the bits `u` and `v`. -/
def twoGems (u v : ℕ) : Core where
  arch := .w64
  limbBytes := 8
  mem p := (if p = 16 ∨ p = 32 then 8 else if p = 24 then u else if p = 40 then v else 0) % 2 ^ 64
  op x := if x = 8 then .data .gem else .other
  main := (16, 48)
  major := (48, 48)
  survivors := (48, 48)
  codeIn _ := false
  oopKey x := x
  steps := 8
  words p := Nat.mod_lt _ (Nat.two_pow_pos _)
  arena := by simp

/-- `0.0` and `-0.0` are equal keys with two hashes. -/
theorem not_hash_eq_of_eqv :
    ¬ ∀ (g : Core) (fuel room a b : ℕ), g.eqv fuel room a b = .ok true →
      g.hash fuel room a = g.hash fuel room b := by
  intro h
  have heqv : (twoGems 0 (2 ^ 63)).eqv 8 8 16 32 = .ok true := by decide
  have hne : (twoGems 0 (2 ^ 63)).hash 8 8 16 ≠ (twoGems 0 (2 ^ 63)).hash 8 8 32 := by
    decide
  exact hne (h _ 8 8 16 32 heqv)

/-- A core with two threads, at 16 and 40, whose second word is the address of the first. -/
def twoThreads : Core where
  arch := .w64
  limbBytes := 8
  mem p := if p = 16 ∨ p = 40 then 8 else if p = 24 ∨ p = 48 then 16 else if p = 32 then 18
    else if p = 56 then 42 else 0
  op _ := .other
  main := (16, 64)
  major := (64, 64)
  survivors := (64, 64)
  codeIn _ := false
  oopKey x := x
  steps := 8
  words p := by split_ifs <;> decide
  arena := by simp

-- the first thread points at itself, the second at the first
example : twoThreads.eqv 8 64 16 40 = .ok true ∧
    twoThreads.hash 8 64 16 ≠ twoThreads.hash 8 64 40 := by
  decide

/-- Of two gems the hashes read the gems alone. -/
theorem twoGems_read {u v x y : ℕ} {l : Level} (h : Read (twoGems u v) 16 32 l x y) :
    (l = .walk ∨ l = .leaf) ∧ x = 16 ∧ y = 32 := by
  have hchain : (twoGems u v).chainp 16 = false := rfl
  have hobj : (twoGems u v).objtrayp 16 = false := rfl
  have hdat : (twoGems u v).dat 16 = some .gem := rfl
  induction h with
  | start => exact ⟨.inl rfl, rfl, rfl⟩
  | car _ hx _ ih => simp [ih.2.1, hchain] at hx
  | cdr _ hx _ ih => simp [ih.2.1, hchain] at hx
  | elem _ hx _ _ ih => simp [ih.2.1, hobj] at hx
  | fn _ _ _ hdx _ ih => simp [ih.2.1, hdat] at hdx
  | leaf _ ih => exact ⟨.inr rfl, ih.2⟩
  | base _ _ _ ih => simp at ih
  | held _ _ _ _ _ _ _ _ _ ih => simp at ih
  | heldLeaf _ _ _ _ _ ih => simp at ih

theorem twoGems_laid (u v : ℕ) : Laid (twoGems u v) 16 32 where
  left l x y h hc := by
    obtain ⟨-, rfl, rfl⟩ := twoGems_read h
    cases hc
  right l x y h hc := by
    obtain ⟨-, rfl, rfl⟩ := twoGems_read h
    cases hc
  fns d x y h := by
    have := (twoGems_read h).1
    simp at this

theorem twoGems_fair {u v : ℕ} (h : ¬ OppositeZeros .w64 (u % 2 ^ 64) (v % 2 ^ 64)) : Fair (twoGems u v) 16 32 where
  gem x y hr _ _ := by
    obtain ⟨-, rfl, rfl⟩ := twoGems_read hr
    exact h
  twin x y hr hx _ := by
    obtain ⟨-, rfl, rfl⟩ := twoGems_read hr
    cases hx
  self d x y x' y' tx ty i hr := by
    have := (twoGems_read hr).1
    simp at this

/-- Two gems of `1.5`. -/
theorem hash_respects_eqv_gems :
    Laid (twoGems 0x3ff8000000000000 0x3ff8000000000000) 16 32 ∧
      (twoGems 0x3ff8000000000000 0x3ff8000000000000).eqv 8 8 16 32 = .ok true ∧
      (twoGems 0x3ff8000000000000 0x3ff8000000000000).hash 8 8 16 =
        (twoGems 0x3ff8000000000000 0x3ff8000000000000).hash 8 8 32 :=
  have hfair := twoGems_fair (u := 0x3ff8000000000000) (v := 0x3ff8000000000000) fun h => h.2.2 rfl
  have heqv : (twoGems 0x3ff8000000000000 0x3ff8000000000000).eqv 8 8 16 32 = .ok true := by
    decide
  ⟨twoGems_laid _ _, heqv, (hash_respects_eqv (twoGems_laid _ _) heqv).1 hfair 8 8⟩

end LoveRuntime
