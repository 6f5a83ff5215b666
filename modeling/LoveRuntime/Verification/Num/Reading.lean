import LoveRuntime.Verification.Num.Bmul
import LoveRuntime.Verification.Num.JoinDec
import LoveRuntime.Verification.Num.Shifts

/-! # Number tokens

Every lane of `big_read_radix` reads the numeral its digits spell. -/

namespace LoveRuntime

open Radix Function

variable {c : LimbConfig}

/-! ## Numerals -/

/-- The number a run of digits spells, the last digit the lowest. -/
def numeral (radix : ℕ) (digit : ℕ → ℕ) (ds : List ℕ) : ℕ :=
  Nat.ofDigits radix (ds.map digit).reverse

section Numeral

variable {radix : ℕ} {digit : ℕ → ℕ}

@[simp] theorem numeral_nil : numeral radix digit [] = 0 := rfl

theorem numeral_append (ds es : List ℕ) : numeral radix digit (ds ++ es) =
    numeral radix digit ds * radix ^ es.length + numeral radix digit es := by
  rw [numeral, List.map_append, List.reverse_append, Nat.ofDigits_append, List.length_reverse,
    List.length_map, Nat.add_comm, Nat.mul_comm]
  rfl

theorem numeral_concat (ds : List ℕ) (x : ℕ) :
    numeral radix digit (ds ++ [x]) = numeral radix digit ds * radix + digit x := by
  rw [numeral_append, List.length_singleton, pow_one]
  simp [numeral]

theorem numeral_lt (hr : 1 < radix) {ds : List ℕ} (h : ∀ x ∈ ds, digit x < radix) :
    numeral radix digit ds < radix ^ ds.length := by
  have hlt := Nat.ofDigits_lt_base_pow_length (l := (ds.map digit).reverse) hr (by simpa using h)
  simpa [numeral] using hlt

end Numeral

/-! ## A chunk in a limb -/

section Chunk

variable {radix : ℕ}

theorem chunkPow_eq (hr : 1 < radix) {k : ℕ} (hk : radix ^ k < c.limbBase) :
    chunkPow c radix k = radix ^ k := by
  induction k with
  | zero => rfl
  | succ k ih =>
      have hlow : radix ^ k < c.limbBase := (Nat.pow_lt_pow_right hr k.lt_succ_self).trans hk
      rw [chunkPow, iterate_succ_apply', ← chunkPow, ih hlow, ← pow_succ, Nat.mod_eq_of_lt hk]

theorem chunkLimb_eq {ds : List ℕ} (hd : ∀ x ∈ ds, rdigit x < radix) (hr : 1 < radix)
    (hk : radix ^ ds.length ≤ c.limbBase) : chunkLimb c radix ds = numeral radix rdigit ds := by
  induction ds using List.reverseRecOn with
  | nil => rfl
  | append_singleton ds x ih =>
      have hlow : radix ^ ds.length ≤ c.limbBase :=
        (Nat.pow_le_pow_right (by omega) (by simp)).trans hk
      have hlt := (numeral_lt hr hd).trans_le hk
      rw [chunkLimb, List.foldl_append, ← chunkLimb, ih (fun y hy => hd y (by simp [hy])) hlow]
      rw [numeral_concat] at hlt ⊢
      exact Nat.mod_eq_of_lt hlt

end Chunk

/-! ## The power-of-two lane -/

theorem packDigits_value {lg nb acc : ℕ} (hlg : lg ≤ c.limbBits) {ds : List ℕ}
    (hd : ∀ x ∈ ds, rdigit x < 2 ^ lg) (hnb : nb < c.limbBits) (hacc : acc < 2 ^ nb) :
    Nat.ofDigits c.limbBase (packDigits c lg nb acc ds) =
        acc + 2 ^ nb * Nat.ofDigits (2 ^ lg) (ds.map rdigit) ∧
      ∀ x ∈ packDigits c lg nb acc ds, x < c.limbBase := by
  induction ds generalizing nb acc with
  | nil =>
      have hlt : acc < c.limbBase := hacc.trans_le (Nat.pow_le_pow_right (by decide) hnb.le)
      rw [packDigits]
      by_cases h0 : nb = 0
      · subst h0
        have : acc = 0 := by simpa using hacc
        simp [this]
      · simpa [h0] using hlt
  | cons x ds ih =>
      have hx : rdigit x < 2 ^ lg := hd x (by simp)
      have hd' : ∀ y ∈ ds, rdigit y < 2 ^ lg := fun y hy => hd y (by simp [hy])
      have hor : acc ||| (rdigit x <<< nb) % c.limbBase =
          (rdigit x * 2 ^ nb) % c.limbBase + acc := by
        rw [Nat.lor_comm, limbBase_eq, shl_or_carry hnb.le hacc]
      have hpow : (2 : ℕ) ^ (nb + lg) = 2 ^ nb * 2 ^ lg := pow_add 2 nb lg
      have hmul : rdigit x * 2 ^ nb + 2 ^ nb ≤ 2 ^ (nb + lg) := by
        have := Nat.mul_le_mul_left (2 ^ nb) (Nat.succ_le_of_lt hx)
        rw [Nat.mul_succ, Nat.mul_comm (2 ^ nb) (rdigit x)] at this
        rwa [hpow]
      rw [packDigits, List.map_cons, Nat.ofDigits_cons, hor]
      by_cases hfull : c.limbBits ≤ nb + lg
      · -- the limb is full, and the top bits of the digit start the next one
        have hsplit : c.limbBase * 2 ^ (nb + lg - c.limbBits) = 2 ^ (nb + lg) := by
          rw [limbBase_eq, ← pow_add, Nat.add_sub_cancel' hfull]
        have hnext : (if nb + lg - c.limbBits ≠ 0 then rdigit x >>> (lg - (nb + lg - c.limbBits)) else 0) =
            rdigit x * 2 ^ nb / c.limbBase := by
          have hL : 2 ^ c.limbBits = 2 ^ nb * 2 ^ (c.limbBits - nb) := by
            rw [← pow_add, Nat.add_sub_cancel' hnb.le]
          rw [limbBase_eq, hL, Nat.mul_comm (rdigit x), Nat.mul_div_mul_left _ _ (Nat.two_pow_pos nb)]
          split
          · rw [Nat.shiftRight_eq_div_pow]
            congr 2
            omega
          · rw [show c.limbBits - nb = lg by omega, Nat.div_eq_of_lt hx]
        have hcarry : rdigit x * 2 ^ nb / c.limbBase < 2 ^ (nb + lg - c.limbBits) := by
          refine Nat.div_lt_of_lt_mul ?_
          rw [hsplit]
          have := Nat.two_pow_pos nb
          omega
        obtain ⟨hval, hlt⟩ := ih hd' (by omega) hcarry
        simp only [if_pos hfull, hnext]
        refine ⟨?_, fun y hy => ?_⟩
        · have hdm := Nat.mod_add_div (rdigit x * 2 ^ nb) c.limbBase
          rw [Nat.ofDigits_cons, hval]
          generalize Nat.ofDigits (2 ^ lg) (ds.map rdigit) = R
          calc rdigit x * 2 ^ nb % c.limbBase + acc + c.limbBase *
                (rdigit x * 2 ^ nb / c.limbBase + 2 ^ (nb + lg - c.limbBits) * R)
              = (rdigit x * 2 ^ nb % c.limbBase + c.limbBase * (rdigit x * 2 ^ nb / c.limbBase)) + acc +
                  c.limbBase * 2 ^ (nb + lg - c.limbBits) * R := by ring
            _ = acc + 2 ^ nb * (rdigit x + 2 ^ lg * R) := by
                rw [hdm, hsplit, hpow]
                ring
        · rw [List.mem_cons] at hy
          obtain rfl | hy := hy
          · rw [← hor]
            exact Nat.or_lt_two_pow (hacc.trans_le (Nat.pow_le_pow_right (by decide) hnb.le))
              (Nat.mod_lt _ (Nat.two_pow_pos _))
          · exact hlt y hy
      · have hroom : 2 ^ (nb + lg) ≤ c.limbBase := Nat.pow_le_pow_right (by decide) (by omega)
        have hmod : rdigit x * 2 ^ nb % c.limbBase = rdigit x * 2 ^ nb := by
          have := Nat.two_pow_pos nb
          exact Nat.mod_eq_of_lt (by omega)
        have hacc' : rdigit x * 2 ^ nb + acc < 2 ^ (nb + lg) := by omega
        obtain ⟨hval, hlt⟩ := ih hd' (by omega) hacc'
        simp only [if_neg hfull, hmod]
        refine ⟨?_, hlt⟩
        rw [hval, hpow]
        ring

/-! ## The short lane -/

/-- A limb product and a limb fit a double limb. -/
theorem limb_mul_add_lt {B x y z : ℕ} (hx : x < B) (hy : y < B) (hz : z < B) : x * y + z < B * B := by
  obtain ⟨b, rfl⟩ : ∃ b, B = b + 1 := ⟨B - 1, by omega⟩
  have hmul := Nat.mul_le_mul (Nat.le_of_lt_succ hx) (Nat.le_of_lt_succ hy)
  have hsq : (b + 1) * (b + 1) = b * b + 2 * b + 1 := by ring
  omega

theorem magMulAddSmall_spec {mul add : ℕ} (hmul : mul < c.limbBase) (hadd : add < c.limbBase)
    {a : List ℕ} (ha : ∀ x ∈ a, x < c.limbBase) :
    Nat.ofDigits c.limbBase (magMulAddSmall c mul add a) = Nat.ofDigits c.limbBase a * mul + add ∧
      ∀ x ∈ magMulAddSmall c mul add a, x < c.limbBase := by
  induction a generalizing add with
  | nil =>
      rw [magMulAddSmall, Nat.mod_eq_of_lt hadd]
      by_cases h0 : add = 0 <;> simp [h0, hadd]
  | cons x a ih =>
      have hx : x < c.limbBase := ha x (by simp)
      have hsum := limb_mul_add_lt hx hmul hadd
      have hcarry : (x * mul + add) >>> c.limbBits < c.limbBase := by
        rw [Nat.shiftRight_eq_div_pow, ← limbBase_eq]
        exact Nat.div_lt_of_lt_mul hsum
      obtain ⟨hval, hlt⟩ := ih hcarry fun y hy => ha y (by simp [hy])
      rw [magMulAddSmall]
      refine ⟨?_, fun y hy => ?_⟩
      · have hdm := Nat.mod_add_div (x * mul + add) c.limbBase
        rw [Nat.ofDigits_cons, hval, Nat.ofDigits_cons, Nat.shiftRight_eq_div_pow, ← limbBase_eq]
        calc (x * mul + add) % c.limbBase +
              c.limbBase * (Nat.ofDigits c.limbBase a * mul + (x * mul + add) / c.limbBase)
            = ((x * mul + add) % c.limbBase + c.limbBase * ((x * mul + add) / c.limbBase)) +
                c.limbBase * Nat.ofDigits c.limbBase a * mul := by ring
          _ = (x + c.limbBase * Nat.ofDigits c.limbBase a) * mul + add := by
              rw [hdm]
              ring
      · rw [List.mem_cons] at hy
        obtain rfl | hy := hy
        · exact Nat.mod_lt _ (Nat.two_pow_pos _)
        · exact hlt y hy

theorem readShort_spec {radix chunk : ℕ} (hr : 1 < radix) (hchunk : 0 < chunk)
    (hfit : radix ^ chunk < c.limbBase) {ds mag : List ℕ} (hd : ∀ x ∈ ds, rdigit x < radix)
    (hmag : ∀ x ∈ mag, x < c.limbBase) :
    Nat.ofDigits c.limbBase (readShort c radix chunk ds mag) =
        Nat.ofDigits c.limbBase mag * radix ^ ds.length + numeral radix rdigit ds ∧
      ∀ x ∈ readShort c radix chunk ds mag, x < c.limbBase := by
  induction hn : ds.length using Nat.strong_induction_on generalizing ds mag with
  | _ n ih =>
      subst hn
      rw [readShort]
      by_cases hnil : ds = []
      · subst hnil
        simpa using hmag
      · rw [dif_neg (by simp only [not_or]; exact ⟨hnil, by omega⟩)]
        simp only
        have hpos := List.length_pos_of_ne_nil hnil
        have hsplit : ds = ds.take chunk ++ ds.drop chunk := (List.take_append_drop chunk ds).symm
        have hlen : ds.length = (ds.take chunk).length + (ds.drop chunk).length := by
          rw [← List.length_append, ← hsplit]
        have htake : (ds.take chunk).length ≤ chunk := by simp
        have hpiece : radix ^ (ds.take chunk).length < c.limbBase :=
          (Nat.pow_le_pow_right (by omega) htake).trans_lt hfit
        have hdt : ∀ x ∈ ds.take chunk, rdigit x < radix := fun x hx => hd x (List.mem_of_mem_take hx)
        have hacc := chunkLimb_eq hdt hr hpiece.le
        have hacclt : chunkLimb c radix (ds.take chunk) < c.limbBase := by
          rw [hacc]
          exact (numeral_lt hr hdt).trans hpiece
        have hpow := chunkPow_eq hr hpiece
        obtain ⟨hmval, hmlt⟩ := magMulAddSmall_spec (hpow ▸ hpiece) hacclt hmag
        obtain ⟨hval, hlt⟩ := ih (ds.drop chunk).length (by rw [List.length_drop]; omega)
          (fun x hx => hd x (List.mem_of_mem_drop hx)) hmlt rfl
        refine ⟨?_, hlt⟩
        rw [hval, hmval, hpow, hacc]
        conv_rhs => rw [hsplit, numeral_append, List.length_append, pow_add]
        ring

/-! ## The lane of halves -/

theorem slotCount_spec (cap : ℕ) {np : ℕ} (hnp : 0 < np) :
    (∃ k, slotCount cap np = np * 2 ^ k) ∧ cap ≤ slotCount cap np := by
  induction hm : cap - np using Nat.strong_induction_on generalizing np with
  | _ m ih =>
      rw [slotCount]
      by_cases h : np < cap
      · rw [dif_pos ⟨hnp, h⟩]
        obtain ⟨⟨k, hk⟩, hle⟩ := ih (cap - 2 * np) (by omega) (by omega) rfl
        refine ⟨⟨k + 1, ?_⟩, hle⟩
        rw [hk, pow_succ]
        ring
      · rw [dif_neg fun h' => h h'.2]
        exact ⟨⟨0, by rw [pow_zero, Nat.mul_one]⟩, not_lt.mp h⟩

theorem decSlots_spec {radix chunk : ℕ} (hr : 1 < radix) (hchunk : 0 < chunk)
    (hfit : radix ^ chunk < c.limbBase) {ds : List ℕ} (hd : ∀ x ∈ ds, rdigit x < radix) :
    Nat.ofDigits (radix ^ chunk) (decSlots c radix chunk ds) = numeral radix rdigit ds ∧
      (∀ x ∈ decSlots c radix chunk ds, x < radix ^ chunk) ∧
        (decSlots c radix chunk ds).length * chunk < ds.length + chunk := by
  induction hn : ds.length using Nat.strong_induction_on generalizing ds with
  | _ n ih =>
      subst hn
      rw [decSlots]
      by_cases hnil : ds = []
      · subst hnil
        simpa using hchunk
      · rw [dif_neg (by simp only [not_or]; exact ⟨hnil, by omega⟩)]
        simp only
        have hpos := List.length_pos_of_ne_nil hnil
        set b := ds.length - chunk with hb
        have hdrop : (ds.drop b).length = min ds.length chunk := by
          rw [List.length_drop]
          omega
        have htake : (ds.take b).length = b := by
          rw [List.length_take]
          omega
        have hdd : ∀ x ∈ ds.drop b, rdigit x < radix := fun x hx => hd x (List.mem_of_mem_drop hx)
        have hpow : radix ^ (ds.drop b).length ≤ radix ^ chunk :=
          Nat.pow_le_pow_right (by omega) (by rw [hdrop]; omega)
        have hlimb := chunkLimb_eq hdd hr (hpow.trans hfit.le)
        obtain ⟨hval, hlt, hlen⟩ := ih (ds.take b).length (by omega)
          (fun x hx => hd x (List.mem_of_mem_take hx)) rfl
        refine ⟨?_, ?_, ?_⟩
        · rw [Nat.ofDigits_cons, hlimb, hval]
          conv_rhs => rw [← List.take_append_drop b ds, numeral_append]
          by_cases hb0 : b = 0
          · simp [hb0]
          · rw [hdrop, min_eq_right (by omega)]
            ring
        · intro x hx
          rw [List.mem_cons] at hx
          obtain rfl | hx := hx
          · rw [hlimb]
            exact (numeral_lt hr hdd).trans_le hpow
          · exact hlt x hx
        · rw [List.length_cons, Nat.succ_mul]
          rw [htake] at hlen
          by_cases hb0 : b = 0
          · have htnil : ds.take b = [] := by rw [hb0, List.take_zero]
            rw [htnil, decSlots, dif_pos (Or.inl rfl)]
            simpa using hpos
          · omega

theorem readHalves_spec {radix chunk cap : ℕ} (hr : 1 < radix) (hchunk : 0 < chunk)
    (hfit : radix ^ chunk < c.limbBase) {ds : List ℕ} (hd : ∀ x ∈ ds, rdigit x < radix)
    (hcap : ds.length ≤ cap * chunk) (junk : ℕ → ℕ) :
    Nat.ofDigits c.limbBase (readHalves c radix chunk cap ds junk) = numeral radix rdigit ds ∧
      ∀ x ∈ readHalves c radix chunk cap ds junk, x < c.limbBase := by
  obtain ⟨hval, hlt, hlen⟩ := decSlots_spec hr hchunk hfit hd
  obtain ⟨⟨k, hk⟩, hle⟩ := slotCount_spec cap Nat.one_pos
  have hslots : (decSlots c radix chunk ds).length ≤ slotCount cap 1 := by
    refine le_trans (Nat.le_of_lt_succ (Nat.lt_of_mul_lt_mul_right (a := chunk) ?_)) hle
    rw [Nat.succ_mul]
    omega
  unfold readHalves
  generalize decSlots c radix chunk ds = slots at *
  generalize slotCount cap 1 = np at *
  have hpos : 0 < np := by
    rw [hk, Nat.one_mul]
    exact Nat.two_pow_pos k
  rw [chunkPow_eq hr hfit]
  set μ := update (copyIn (zeroFill junk 0 np) 0 slots) np (radix ^ chunk) with hμ
  have hslot : ∀ i (hi : i < slots.length), μ (0 + i) = slots[i] := by
    intro i hi
    rw [hμ, update_of_ne (by omega)]
    exact copyIn_cell hi
  have hzero : ∀ i < np - slots.length, μ (slots.length + i) = 0 := by
    intro i hi
    rw [hμ, update_of_ne (by omega), copyIn_sameBut _ (by omega)]
    have := zeroFill_cell (μ := junk) (p := 0) (n := np) (i := slots.length + i) (by omega)
    rwa [Nat.zero_add] at this
  have hg : Digits (radix ^ chunk) μ 0 np := by
    intro i hi
    by_cases his : i < slots.length
    · rw [hslot i his]
      exact hlt _ (List.getElem_mem his)
    · have := hzero (i - slots.length) (by omega)
      rw [Nat.add_sub_cancel' (by omega)] at this
      rw [Nat.zero_add, this]
      exact pow_pos (by omega) _
  have htotal : value (radix ^ chunk) μ 0 np = numeral radix rdigit ds := by
    have hpad : value (radix ^ chunk) μ (0 + slots.length) (np - slots.length) = 0 :=
      value_eq_zero fun i hi => by rw [Nat.zero_add]; exact hzero i hi
    rw [← Nat.add_sub_cancel' hslots, value_add, hpad, Nat.mul_zero, Nat.add_zero,
      value_eq_ofDigits hslot, hval]
  have hpw : μ np = radix ^ chunk := update_self _ _ _
  have lay : JoinLayout 0 np np (2 * np) (3 * np) (5 * np) := by
    constructor <;> (try unfold Sep) <;> omega
  have hinv : JoinInv c.limbBits (radix ^ chunk) 0 np np 1 μ μ := by
    refine ⟨fun i hi => (hg i hi).trans hfit, fun s _ => by simp, fun _ i hi => ?_, fun _ => ?_⟩
    · rw [show np + i = np by omega, hpw]
      exact hfit
    · rw [value_one, hpw, pow_one]
  obtain ⟨hjv, hjd⟩ := magJoinDec_spec c.limbBits_pos hfit.le hg k Nat.one_pos hk lay hinv
  refine ⟨?_, Store.limbs_lt (σ := ⟨_, false⟩) (p := ⟨0, np⟩) hjd⟩
  rw [ofDigits_memLimbs, limbBase_eq, hjv, htotal]

/-! ## Tokens -/

/-- The value of a digit in any radix, hex in either case. -/
def digitValue (x : ℕ) : ℕ :=
  if x < 'A'.toNat then x - '0'.toNat
  else if x < 'a'.toNat then x - 'A'.toNat + 10
  else x - 'a'.toNat + 10

/-- The integer a token denotes: its sign, and the digits past it and past its radix prefix. -/
def tokenInt (radix pfx : ℕ) (s : List ℕ) : ℤ :=
  signed (decide (s.head? = some '-'.toNat)) (numeral radix digitValue (s.drop (signLen s + pfx)))

/-- The bytes a radix takes for digits. -/
def RadixDigits (radix : ℕ) (ds : List ℕ) : Prop :=
  ∀ x ∈ ds, rdigit x = digitValue x ∧ rdigit x < radix

section Tokens

variable {s : List ℕ}

theorem RadixDigits.lt {radix : ℕ} {ds : List ℕ} (h : RadixDigits radix ds) :
    ∀ x ∈ ds, rdigit x < radix := fun x hx => (h x hx).2

theorem RadixDigits.numeral_eq {radix : ℕ} {ds : List ℕ} (h : RadixDigits radix ds) :
    numeral radix rdigit ds = numeral radix digitValue ds := by
  rw [numeral, numeral, List.map_congr_left fun x hx => (h x hx).1]

theorem decDigits_of_isDecInt (h : isDecInt s = true) : RadixDigits 10 (s.drop (signLen s + 0)) := by
  have hbyte : ∀ x < 128, ('0'.toNat ≤ x ∧ x ≤ '9'.toNat) → rdigit x = digitValue x ∧ rdigit x < 10 := by
    decide
  unfold isDecInt at h
  simp only at h
  split at h
  · cases h
  · split at h
    · cases h
    · intro x hx
      have hx' := List.all_eq_true.mp h x hx
      simp only [Bool.and_eq_true, decide_eq_true_eq] at hx'
      exact hbyte x (hx'.2.trans_lt (by decide)) hx'

theorem hexDigits_of_isHexInt (h : isHexInt s = true) : RadixDigits 16 (s.drop (signLen s + 2)) := by
  have hbyte : ∀ x < 128, ('0'.toNat ≤ x ∧ x ≤ '9'.toNat ∨ 'a'.toNat ≤ x ||| 32 ∧ x ||| 32 ≤ 'f'.toNat) →
      rdigit x = digitValue x ∧ rdigit x < 16 := by
    decide
  unfold isHexInt at h
  simp only at h
  split at h
  · cases h
  · intro x hx
    rw [← List.drop_drop] at hx
    have hx' := List.all_eq_true.mp h x hx
    simp only [Bool.or_eq_true, Bool.and_eq_true, decide_eq_true_eq] at hx'
    have hlt : x < 128 := by
      rcases hx' with hx' | hx'
      · exact hx'.2.trans_lt (by decide)
      · exact (Nat.left_le_or.trans hx'.2).trans_lt (by decide)
    exact hbyte x hlt hx'

theorem octDigits_of_isOctInt (h : isOctInt s = true) : RadixDigits 8 (s.drop (signLen s + 1)) := by
  have hbyte : ∀ x < 128, ('0'.toNat ≤ x ∧ x ≤ '7'.toNat) → rdigit x = digitValue x ∧ rdigit x < 8 := by
    decide
  unfold isOctInt at h
  simp only at h
  split at h
  · cases h
  · intro x hx
    rw [← List.drop_drop] at hx
    have hx' := List.all_eq_true.mp h x hx
    simp only [Bool.and_eq_true, decide_eq_true_eq] at hx'
    exact hbyte x (hx'.2.trans_lt (by decide)) hx'

/-- Limbs that spell the token's digits canonize to its integer. -/
theorem token_canon {radix pfx : ℕ} {mag : List ℕ} (hd : RadixDigits radix (s.drop (signLen s + pfx)))
    (hval : Nat.ofDigits c.limbBase mag = numeral radix rdigit (s.drop (signLen s + pfx)))
    (hlt : ∀ x ∈ mag, x < c.limbBase) :
    bigCanon c mag (decide (s.head? = some '-'.toNat)) = (Integer.ofInt c (tokenInt radix pfx s)).num := by
  refine canonical_unique (bigCanon_canonical c _ hlt) (Integer.ofInt c _).canonical ?_
  rw [bigCanon_toInt, hval, hd.numeral_eq]
  exact (Integer.toInt_ofInt c _).symm

theorem limbDecChunk_fit (c : LimbConfig) : 0 < limbDecChunk c ∧ 10 ^ limbDecChunk c < c.limbBase := by
  cases c <;> decide

theorem readCap_fit {chunk : ℕ} (hchunk : 0 < chunk) (ds : List ℕ) :
    ds.length ≤ readCap chunk ds * chunk := by
  have h := Nat.div_add_mod ds.length chunk
  have hmod := Nat.mod_lt ds.length hchunk
  rw [readCap, Nat.add_mul, Nat.mul_comm (ds.length / chunk)]
  omega

theorem readShort_token (hd : RadixDigits 10 (s.drop (signLen s + 0))) :
    bigCanon c (readShort c 10 (limbDecChunk c) (s.drop (signLen s + 0)) [])
      (decide (s.head? = some '-'.toNat)) = (Integer.ofInt c (tokenInt 10 0 s)).num := by
  obtain ⟨hchunk, hfit⟩ := limbDecChunk_fit c
  have hnil : ∀ x ∈ ([] : List ℕ), x < c.limbBase := by simp
  obtain ⟨hval, hlt⟩ := readShort_spec (by decide) hchunk hfit hd.lt hnil
  exact token_canon hd (by simpa using hval) hlt

theorem readHalves_token (hd : RadixDigits 10 (s.drop (signLen s + 0))) (junk : ℕ → ℕ) :
    bigCanon c (readHalves c 10 (limbDecChunk c) (readCap (limbDecChunk c) (s.drop (signLen s + 0)))
      (s.drop (signLen s + 0)) junk) (decide (s.head? = some '-'.toNat)) =
        (Integer.ofInt c (tokenInt 10 0 s)).num := by
  obtain ⟨hchunk, hfit⟩ := limbDecChunk_fit c
  obtain ⟨hval, hlt⟩ := readHalves_spec (by decide) hchunk hfit hd.lt (readCap_fit hchunk _) junk
  exact token_canon hd hval hlt

theorem packDigits_token {lg pfx : ℕ} (hlg : lg ≤ c.limbBits)
    (hd : RadixDigits (2 ^ lg) (s.drop (signLen s + pfx))) :
    bigCanon c (packDigits c lg 0 0 (s.drop (signLen s + pfx)).reverse)
      (decide (s.head? = some '-'.toNat)) = (Integer.ofInt c (tokenInt (2 ^ lg) pfx s)).num := by
  have hrev : ∀ x ∈ (s.drop (signLen s + pfx)).reverse, rdigit x < 2 ^ lg := fun x hx =>
    hd.lt x (List.mem_reverse.mp hx)
  obtain ⟨hval, hlt⟩ := packDigits_value hlg hrev c.limbBits_pos (Nat.two_pow_pos 0)
  refine token_canon hd ?_ hlt
  rw [hval, pow_zero, Nat.one_mul, Nat.zero_add, List.map_reverse]
  rfl

theorem bigReadDec_token (h : isDecInt s) (junk : ℕ → ℕ) :
    bigReadDec c s junk = (Integer.ofInt c (tokenInt 10 0 s)).num := by
  have hd := decDigits_of_isDecInt h
  rw [bigReadDec, bigReadRadix, if_neg (by decide)]
  split
  · exact readHalves_token hd junk
  · exact readShort_token hd

theorem four_le_limbBits (c : LimbConfig) : 4 ≤ c.limbBits := by cases c <;> decide

theorem bigReadHex_token (h : isHexInt s) (junk : ℕ → ℕ) :
    bigReadHex c s junk = (Integer.ofInt c (tokenInt 16 2 s)).num :=
  packDigits_token (four_le_limbBits c) (hexDigits_of_isHexInt h)

theorem bigReadOct_token (h : isOctInt s) (junk : ℕ → ℕ) :
    bigReadOct c s junk = (Integer.ofInt c (tokenInt 8 1 s)).num :=
  packDigits_token (Nat.le_of_succ_le (four_le_limbBits c)) (octDigits_of_isOctInt h)

/-- The readings of a token, each under the test that sends the token to it. A decimal token reads
the same by the short lane and by the lane of halves, whichever its length takes. -/
structure TokenReads (c : LimbConfig) (s : List ℕ) (junk : ℕ → ℕ) : Prop where
  dec : isDecInt s → bigReadDec c s junk = (Integer.ofInt c (tokenInt 10 0 s)).num
  dec_short : isDecInt s → bigCanon c (readShort c 10 (limbDecChunk c) (s.drop (signLen s + 0)) [])
    (decide (s.head? = some '-'.toNat)) = (Integer.ofInt c (tokenInt 10 0 s)).num
  dec_halves : isDecInt s → bigCanon c (readHalves c 10 (limbDecChunk c)
    (readCap (limbDecChunk c) (s.drop (signLen s + 0))) (s.drop (signLen s + 0)) junk)
    (decide (s.head? = some '-'.toNat)) = (Integer.ofInt c (tokenInt 10 0 s)).num
  hex : isHexInt s → bigReadHex c s junk = (Integer.ofInt c (tokenInt 16 2 s)).num
  oct : isOctInt s → bigReadOct c s junk = (Integer.ofInt c (tokenInt 8 1 s)).num

/-- Every integer token reads as the integer its digits denote, whatever the scratch holds. -/
theorem tokenReads (c : LimbConfig) (s : List ℕ) (junk : ℕ → ℕ) : TokenReads c s junk where
  dec h := bigReadDec_token h junk
  dec_short h := readShort_token (decDigits_of_isDecInt h)
  dec_halves h := readHalves_token (decDigits_of_isDecInt h) junk
  hex h := bigReadHex_token h junk
  oct h := bigReadOct_token h junk

/-- `-0x1F` is `-31`, and `017` is `15`. -/
example : tokenInt 16 2 ("-0x1F".toList.map Char.toNat) = -31 ∧
    bigReadHex .w64l64 ("-0x1F".toList.map Char.toNat) (fun _ => 0) = .charm (-31) ∧
    bigReadOct .w64l64 ("017".toList.map Char.toNat) (fun _ => 0) = .charm 15 := by decide

end Tokens

end LoveRuntime
