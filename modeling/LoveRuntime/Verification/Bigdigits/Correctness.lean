import LoveRuntime.Verification.Bigdigits.Numerals

/-! # Big numerals are exact

The levels halve down to the largest power a charm holds. `bigdigits` answers the numeral wherever
no reciprocal is shifted past an int, and the decimal numeral reads back. -/

namespace LoveRuntime.Bigdigits

variable {r : Base} {n p x : ℤ} {b nb k w fuel : ℕ} {l l' : Level} {ls acc acc' : List Level}

/-! ## Bit lengths -/

theorem bitlen_mono {x y : ℤ} (hx : 0 ≤ x) (h : x ≤ y) : bitlen x ≤ bitlen y := by
  rw [bitlen_le_iff]
  have hy := bitlen_le_iff.mp (le_refl (bitlen y))
  omega

theorem emod_le_self (hx : 0 ≤ x) (hp : 0 < p) : x % p ≤ x := by
  have hdm := Int.mul_ediv_add_emod x p
  have hmul := mul_nonneg hp.le (Int.ediv_nonneg hx hp.le)
  omega

theorem bitlen_sq_le (x : ℤ) : bitlen (x * x) ≤ 2 * bitlen x := by
  have hx := bitlen_le_iff.mp (le_refl (bitlen x))
  rw [bitlen_le_iff, Int.natAbs_mul, two_mul, pow_add]
  exact Nat.mul_lt_mul'' hx hx

theorem lt_bitlen_two_pow (m : ℕ) : m < bitlen (2 ^ m) := by
  rw [← not_le, bitlen_le_iff, Int.natAbs_pow]
  exact lt_irrefl _

/-! ## Levels -/

/-- What `lay` keeps. -/
theorem lay_some (h : lay l = some l') : l'.p = l.p ∧ l'.bits = l.bits ∧ l'.k = l.k := by
  rw [lay] at h
  split at h
  · obtain ⟨inv, -, h⟩ := Option.bind_eq_some_iff.mp h
    rw [← Option.some.inj h]
    exact ⟨rfl, rfl, rfl⟩
  · rw [← Option.some.inj h]
    exact ⟨rfl, rfl, rfl⟩

theorem Laid.of_lay (hl : Laid r l) (h : lay l = some l') : Laid r l' := by
  obtain ⟨hp, hbits, hk⟩ := lay_some h
  exact ⟨by rw [hp, hk, hl.p_eq], hk ▸ hl.k_pos, by rw [hbits, hp, hl.bits_eq]⟩

theorem lay_answers (hl : Laid r l) (h : 2 * l.bits ≤ int32Max) : ∃ l', lay l = some l' := by
  rw [lay]
  split
  · obtain ⟨inv, hinv⟩ := drecip_answers hl.bits h
    exact ⟨_, by rw [hinv]; rfl⟩
  · exact ⟨_, rfl⟩

/-- A level that is laid is short. -/
theorem lay_short (hl : Laid r l) (h : lay l = some l') : l.bits ≤ 2 ^ 30 := by
  rw [lay] at h
  split at h
  · obtain ⟨inv, hinv, -⟩ := Option.bind_eq_some_iff.mp h
    have := (drecip_some hl.p_pos hinv).2
    simp only [int32Max] at this
    omega
  · omega

theorem mapM_lay_some (h : acc.mapM lay = some acc') :
    List.Forall₂ (fun l l' => lay l = some l') acc acc' := by
  induction acc generalizing acc' with
  | nil =>
      rw [List.mapM_nil] at h
      rw [← Option.some.inj h]
      exact List.Forall₂.nil
  | cons l acc ih =>
      rw [List.mapM_cons] at h
      obtain ⟨l', hl', h⟩ := Option.bind_eq_some_iff.mp h
      obtain ⟨rest, hrest, h⟩ := Option.bind_eq_some_iff.mp h
      rw [← Option.some.inj h]
      exact List.Forall₂.cons hl' (ih hrest)

theorem mapM_lay_answers (hacc : ∀ l ∈ acc, Laid r l ∧ 2 * l.bits ≤ int32Max) :
    ∃ acc', acc.mapM lay = some acc' := by
  induction acc with
  | nil => exact ⟨[], rfl⟩
  | cons l acc ih =>
      obtain ⟨hl, hbits⟩ := hacc l (List.mem_cons_self)
      obtain ⟨l', hl'⟩ := lay_answers hl hbits
      obtain ⟨rest, hrest⟩ := ih fun l hl => hacc l (List.mem_cons_of_mem _ hl)
      exact ⟨l' :: rest, by rw [List.mapM_cons, hl', hrest]; rfl⟩

theorem Halves.of_lay (hacc : Halves r w acc)
    (h : List.Forall₂ (fun l l' => lay l = some l') acc acc') : Halves r w acc' := by
  induction h generalizing w with
  | nil => exact hacc
  | cons hl' _ ih =>
      obtain ⟨hw, hl, hacc⟩ := hacc
      obtain ⟨-, -, hk⟩ := lay_some hl'
      exact ⟨hk ▸ hw, hl.of_lay hl', hk ▸ ih hacc⟩

/-- What holds of the power and of the levels below it on the way up. -/
structure Climbed (r : Base) (n p : ℤ) (k : ℕ) (acc : List Level) : Prop where
  p_eq : p = r.val ^ k
  k_pos : 0 < k
  halves : Halves r k acc
  low : ∀ l ∈ acc, 2 * l.bits ≤ bitlen n + 1
  top : p < 2 ^ 62 ∨ p ≤ n ∧ acc ≠ []

/-- The level of a power, with no reciprocal. -/
def bare (p : ℤ) (k : ℕ) : Level := ⟨p, bitlen p, 0, k⟩

theorem Climbed.laid (h : Climbed r n p k acc) : Laid r (bare p k) := ⟨h.p_eq, h.k_pos, rfl⟩

theorem Climbed.lt_sq (h : Climbed r n p k acc) : p < p * p := by
  have hr : (1 : ℤ) < r.val := by have := r.two_le; omega
  have h1 : 1 < p := h.p_eq ▸ one_lt_pow₀ hr h.k_pos.ne'
  exact lt_mul_of_one_lt_left (by omega) h1

/-- The power is the square of the one below. -/
theorem Climbed.eq_sq (h : Climbed r n p k (l :: acc)) : p = l.p * l.p := by
  obtain ⟨hk, hl, -⟩ := h.halves
  rw [h.p_eq, hl.p_eq, hk, two_mul, pow_add]

/-- Where the way up ends. -/
def Ends (n p : ℤ) : Prop := bitlen n ≤ 2 * bitlen p - 2 ∨ n < p * p

/-- A step up squares the power. -/
theorem Climbed.step (h : Climbed r n p k acc) (hup : ¬ Ends n p) :
    Climbed r n (p * p) (2 * k) (bare p k :: acc) where
  p_eq := by rw [h.p_eq, two_mul, pow_add]
  k_pos := Nat.mul_pos Nat.two_pos h.k_pos
  halves := ⟨rfl, h.laid, h.halves⟩
  low := by
    intro l hl
    rw [List.mem_cons] at hl
    obtain rfl | hl := hl
    · have hlt : ¬ bitlen n ≤ 2 * bitlen p - 2 := fun hle => hup (Or.inl hle)
      change 2 * bitlen p ≤ bitlen n + 1
      omega
    · exact h.low l hl
  top := Or.inr ⟨not_lt.mp fun hlt => hup (Or.inr hlt), List.cons_ne_nil _ _⟩

theorem levelsFrom_reaches (h : Climbed r n p k acc) : ∃ p' k' acc',
    Climbed r n p' k' acc' ∧ Ends n p' ∧
      levelsFrom n (bitlen n) p k acc = (acc'.mapM lay).map (bare p' k' :: ·) := by
  induction hm : (n - p).toNat using Nat.strong_induction_on generalizing p k acc with
  | _ m ih =>
      by_cases hend : Ends n p
      · refine ⟨p, k, acc, h, hend, ?_⟩
        rw [levelsFrom]
        simp only
        split
        · cases acc.mapM lay <;> rfl
        · rename_i hlong
          rw [if_pos (hend.resolve_left hlong)]
          cases acc.mapM lay <;> rfl
      · have hlong : ¬ bitlen n ≤ 2 * bitlen p - 2 := fun hle => hend (Or.inl hle)
        have hge : ¬ n < p * p := fun hlt => hend (Or.inr hlt)
        have hsq := h.lt_sq
        obtain ⟨p', k', acc', h', hend', heq⟩ := ih _ (by omega) (h.step hend) rfl
        refine ⟨p', k', acc', h', hend', ?_⟩
        rw [levelsFrom]
        simp only
        rw [if_neg hlong, if_neg hge, dif_pos hsq]
        exact heq

theorem levelsUp_reaches (hp : p = r.val ^ k) (hk : 0 < k) (hlt : p < 2 ^ 62) : ∃ p' k' acc',
    Climbed r n p' k' acc' ∧ Ends n p' ∧
      levelsUp r n (bitlen n) p k = (acc'.mapM lay).map (bare p' k' :: ·) := by
  induction hm : (2 ^ 62 - p).toNat using Nat.strong_induction_on generalizing p k with
  | _ m ih =>
      rw [levelsUp]
      split
      · rename_i hnext
        have hr : (1 : ℤ) < r.val := by have := r.two_le; omega
        have hgrow : p < p * r.val :=
          lt_mul_of_one_lt_right (hp ▸ pow_pos (by omega) k) hr
        rw [dif_pos hgrow]
        exact ih _ (by omega) (by rw [hp, pow_succ]) (Nat.succ_pos k) hnext rfl
      · exact levelsFrom_reaches ⟨hp, hk, hk, fun l hl => absurd hl List.not_mem_nil, Or.inl hlt⟩

theorem dlevels_reaches (r : Base) (n : ℤ) : ∃ p k acc,
    Climbed r n p k acc ∧ Ends n p ∧ dlevels r n = (acc.mapM lay).map (bare p k :: ·) := by
  refine levelsUp_reaches (pow_one _).symm Nat.one_pos ?_
  have hle := r.le
  omega

/-- The levels halve. -/
theorem dlevels_some (h : dlevels r n = some ls) : ∃ w, Halves r w ls := by
  obtain ⟨p, k, acc, hclimb, -, heq⟩ := dlevels_reaches r n
  rw [heq] at h
  obtain ⟨acc', hlay, rfl⟩ := Option.map_eq_some_iff.mp h
  exact ⟨2 * k, rfl, hclimb.laid, hclimb.halves.of_lay (mapM_lay_some hlay)⟩

theorem Halves.laid (h : Halves r w ls) : ∀ l ∈ ls, Laid r l := by
  induction ls generalizing w with
  | nil => exact fun l hl => absurd hl List.not_mem_nil
  | cons l ls ih =>
      obtain ⟨-, hl, hls⟩ := h
      exact List.forall_mem_cons.mpr ⟨hl, ih hls⟩

theorem bitlen_lt_62 (hp : p < 2 ^ 62) (h0 : 0 ≤ p) : bitlen p ≤ 62 := by
  rw [bitlen_le_iff]
  omega

/-- What `lay` keeps, of every level. -/
theorem mapM_lay_bits (h : acc.mapM lay = some acc') (hacc : ∀ l ∈ acc, l.bits + 1 ≤ int32Max) :
    ∀ l ∈ acc', l.bits + 1 ≤ int32Max := by
  have hall := mapM_lay_some h
  clear h
  induction hall with
  | nil => exact hacc
  | cons hl' _ ih =>
      obtain ⟨hl, hacc⟩ := List.forall_mem_cons.mp hacc
      rw [← (lay_some hl').2.1] at hl
      exact List.forall_mem_cons.mpr ⟨hl, ih hacc⟩

theorem dlevels_answers (hlen : bitlen n + 65 ≤ int32Max) :
    ∃ ls, dlevels r n = some ls ∧ ∀ l ∈ ls, l.bits + 1 ≤ int32Max := by
  obtain ⟨p, k, acc, hclimb, -, heq⟩ := dlevels_reaches r n
  have hp : 0 < p := hclimb.laid.p_pos
  have hlow : ∀ l ∈ acc, l.bits + 1 ≤ int32Max := by
    intro l hl
    have := hclimb.low l hl
    omega
  have htop : (bare p k).bits + 1 ≤ int32Max := by
    change bitlen p + 1 ≤ int32Max
    obtain hshort | ⟨hle, -⟩ := hclimb.top
    · have := bitlen_lt_62 hshort hp.le
      simp only [int32Max]
      omega
    · have := bitlen_mono hp.le hle
      omega
  obtain ⟨acc', hlay⟩ := mapM_lay_answers fun l hl =>
    ⟨hclimb.halves.laid l hl, (hclimb.low l hl).trans (by omega)⟩
  exact ⟨bare p k :: acc', by rw [heq, hlay]; rfl,
    List.forall_mem_cons.mpr ⟨htop, mapM_lay_bits hlay hlow⟩⟩

/-! ## Answers -/

theorem dsay_answers (fuel : ℕ) (hls : Halves r w ls) (hbits : ∀ l ∈ ls, l.bits + 1 ≤ int32Max) (hx : 0 ≤ x)
    (hlen : bitlen x + 65 ≤ int32Max) (v : ℕ) : ∃ s, dsay (fuel + 2) r ls x v = some s := by
  induction ls generalizing w x v with
  | nil => exact ⟨_, rfl⟩
  | cons l ls ih =>
      obtain ⟨-, hl, hls⟩ := hls
      obtain ⟨hb, hbits⟩ := List.forall_mem_cons.mp hbits
      have hp := hl.p_pos
      rw [dsay]
      split
      · exact ih hls hbits hx hlen 0
      · obtain ⟨qr, hqr⟩ := ddiv_answers fuel l.inv hl.bits hlen hb
        have hval := ddiv_some hl.bits hx hqr
        have hquot : bitlen (x / l.p) ≤ bitlen x :=
          bitlen_mono (Int.ediv_nonneg hx hp.le) (Int.ediv_le_self _ hx)
        have hrest : bitlen (x % l.p) ≤ bitlen x :=
          bitlen_mono (Int.emod_nonneg x hp.ne') (emod_le_self hx hp)
        obtain ⟨hi, hhi⟩ := ih hls hbits (Int.ediv_nonneg hx hp.le)
          ((Nat.add_le_add_right hquot 65).trans hlen) (if v ≠ 0 then v - l.k else 0)
        obtain ⟨lo, hlo⟩ := ih hls hbits (Int.emod_nonneg x hp.ne')
          ((Nat.add_le_add_right hrest 65).trans hlen) l.k
        subst hval
        exact ⟨hi ++ lo, by simp only [hqr, hhi, hlo, Option.bind_eq_bind, Option.bind_some]; rfl⟩

theorem bigdigits_answers (hn : 0 ≤ n) (hlen : bitlen n + 65 ≤ int32Max) :
    ∃ s, bigdigits (fuel + 2) r n = some s := by
  obtain ⟨ls, hls, hbits⟩ := dlevels_answers (r := r) hlen
  obtain ⟨w, hhalves⟩ := dlevels_some hls
  obtain ⟨s, hs⟩ := dsay_answers fuel hhalves hbits hn hlen 0
  exact ⟨s, by rw [bigdigits, hls]; exact hs⟩

/-- Whatever `bigdigits` answers is the numeral. -/
theorem bigdigits_some (hn : 0 ≤ n) {s : List ℕ} (h : bigdigits fuel r n = some s) :
    IsNumeral r s n := by
  obtain ⟨ls, hls, h⟩ := Option.bind_eq_some_iff.mp h
  obtain ⟨w, hhalves⟩ := dlevels_some hls
  exact dsay_numeral hhalves hn h

/-- Past `2^32` bits a reciprocal below the top is refused. -/
theorem bigdigits_short {s : List ℕ} (hn : 0 ≤ n) (h : bigdigits fuel r n = some s) :
    bitlen n ≤ 2 ^ 32 := by
  obtain ⟨ls, hls, -⟩ := Option.bind_eq_some_iff.mp h
  obtain ⟨p, k, acc, hclimb, hend, heq⟩ := dlevels_reaches r n
  rw [heq] at hls
  obtain ⟨acc', hlay, -⟩ := Option.map_eq_some_iff.mp hls
  have hp : 0 < p := hclimb.laid.p_pos
  have htop : bitlen p ≤ 2 ^ 31 := by
    cases acc with
    | nil =>
        have := bitlen_lt_62 (hclimb.top.resolve_right fun h => h.2 rfl) hp.le
        omega
    | cons l acc =>
        obtain _ | ⟨hl', -⟩ := mapM_lay_some hlay
        have hl := hclimb.halves.2.1
        have hshort := lay_short hl hl'
        have hsq := bitlen_sq_le l.p
        rw [← hclimb.eq_sq, ← hl.bits_eq] at hsq
        omega
  obtain hle | hlt := hend
  · omega
  · have := bitlen_mono hn hlt.le
    have := bitlen_sq_le p
    omega

/-! ## Reading back -/

/-- The base of decimal numerals. -/
def decimal : Base := ⟨10, by decide, by decide⟩

/-- The bytes of a decimal numeral. -/
theorem decimal_byte {s : List ℕ} (h : Spells decimal s n) : ∀ b ∈ s,
    b ≠ '-'.toNat ∧ b ≠ '+'.toNat ∧ '0'.toNat ≤ b ∧ b ≤ '9'.toNat := by
  have hbyte : ∀ d : Fin 10, digitByte (d : ℕ) ≠ '-'.toNat ∧ digitByte (d : ℕ) ≠ '+'.toNat ∧
      '0'.toNat ≤ digitByte (d : ℕ) ∧ digitByte (d : ℕ) ≤ '9'.toNat := by decide
  intro b hb
  obtain ⟨d, hd, rfl⟩ := h.digits b hb
  exact hbyte ⟨d, hd⟩

theorem signLen_numeral {s : List ℕ} (h : Spells decimal s n) :
    signLen s = 0 ∧ s.head? ≠ some '-'.toNat := by
  have hminus : s.head? ≠ some '-'.toNat := fun hhead =>
    (decimal_byte h _ (List.mem_of_mem_head? hhead)).1 rfl
  have hplus : s.head? ≠ some '+'.toNat := fun hhead =>
    (decimal_byte h _ (List.mem_of_mem_head? hhead)).2.1 rfl
  exact ⟨if_neg (not_or.mpr ⟨hminus, hplus⟩), hminus⟩

theorem isDecInt_of_numeral {s : List ℕ} (h : IsNumeral decimal s n) : isDecInt s = true := by
  rw [isDecInt, (signLen_numeral h.toSpells).1, List.drop_zero]
  rw [if_neg h.nonempty, if_neg, List.all_eq_true]
  · intro b hb
    obtain ⟨-, -, hlow, hhigh⟩ := decimal_byte h.toSpells b hb
    simp only [Bool.and_eq_true, decide_eq_true_eq]
    exact ⟨hlow, hhigh⟩
  · rintro ⟨hzero, hlong⟩
    rw [h.bare hzero] at hlong
    exact absurd hlong (by decide)

theorem tokenInt_numeral {s : List ℕ} (h : Spells decimal s n) : tokenInt 10 0 s = n := by
  obtain ⟨hsign, hminus⟩ := signLen_numeral h
  rw [tokenInt, hsign, decide_eq_false hminus]
  exact h.value

/-- What the digits rest on, and what they are. -/
structure Exact (c : LimbConfig) : Prop where
  /-- A reciprocal is the floor, wherever `1 << 2b` is not past an int. -/
  reciprocal : ∀ (p : ℤ) (b : ℕ), Bits p b →
    drecip p b = if 2 * b ≤ int32Max then some (4 ^ b / p) else none
  division : ∀ (fuel : ℕ) (x p inv : ℤ) (b : ℕ) (qr : ℤ × ℤ), Bits p b → 0 ≤ x →
    ddiv fuel x p b inv = some qr → qr = (x / p, x % p)
  divisionAnswers : ∀ (fuel : ℕ) (x p inv : ℤ) (b : ℕ), Bits p b → bitlen x + 65 ≤ int32Max →
    b + 1 ≤ int32Max → ∃ qr, ddiv (fuel + 2) x p b inv = some qr
  /-- The levels halve, and a half has the digit count of its level. -/
  levels : ∀ (r : Base) (n : ℤ) (ls : List Level), dlevels r n = some ls → ∃ w, Halves r w ls
  half : ∀ (fuel : ℕ) (r : Base) (ls : List Level) (x : ℤ) (w : ℕ) (s : List ℕ), Halves r w ls →
    0 ≤ x → x < r.val ^ w → dsay fuel r ls x w = some s → Spells r s x ∧ s.length = w
  numeral : ∀ (fuel : ℕ) (r : Base) (n : ℤ) (s : List ℕ), 0 ≤ n →
    bigdigits fuel r n = some s → IsNumeral r s n
  answers : ∀ (fuel : ℕ) (r : Base) (n : ℤ), 0 ≤ n → bitlen n + 65 ≤ int32Max →
    ∃ s, bigdigits (fuel + 2) r n = some s
  readBack : ∀ (fuel : ℕ) (n : ℤ) (s : List ℕ) (junk : ℕ → ℕ), 0 ≤ n →
    bigdigits fuel decimal n = some s → isDecInt s ∧ bigReadDec c s junk = (Integer.ofInt c n).num

theorem bigdigitsExact (c : LimbConfig) : Exact c where
  reciprocal _ _ := drecip_eq
  division _ _ _ _ _ _ hp hx := ddiv_some hp hx
  divisionAnswers fuel _ _ inv _ := ddiv_answers fuel inv
  levels _ _ _ := dlevels_some
  half _ _ _ _ _ _ := dsay_padded
  numeral _ _ _ _ hn := bigdigits_some hn
  answers _ _ _ := bigdigits_answers
  readBack fuel n s junk hn h := by
    have hnum := bigdigits_some hn h
    have hdec := isDecInt_of_numeral hnum
    exact ⟨hdec, by rw [bigReadDec_token hdec, tokenInt_numeral hnum.toSpells]⟩

/-- The reciprocals of a number of more than `2^32` bits are refused. -/
theorem not_bigdigits_answers : ¬ ∃ fuel s, bigdigits fuel decimal (2 ^ 2 ^ 32) = some s := by
  rintro ⟨fuel, s, h⟩
  have hlong := lt_bitlen_two_pow (2 ^ 32)
  exact absurd (bigdigits_short (by positivity) h) (not_le.mpr hlong)

end LoveRuntime.Bigdigits
