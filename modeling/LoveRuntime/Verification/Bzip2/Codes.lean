import LoveRuntime.Library.CanonicalCode
import LoveRuntime.Verification.Bzip2.Stream

/-! The codes and the decode table: what `bz_codes` gives a symbol, `bz_sym` reads
back through the table of the same lengths. -/

namespace LoveRuntime.Bzip2

open Loop Function CountingSort CanonicalCode MsbBits BitParser

/-- A table of lengths as a function of the symbol. -/
def lenOf (len : List ℕ) (i : ℕ) : ℕ := len.getD i 0

/-- The symbols coded once the loops stand at the length `l` and the symbol `i`. -/
def Reached (len : ℕ → ℕ) (l i s : ℕ) : Prop := len s ≠ 0 ∧ (len s < l ∨ len s = l ∧ s < i)

theorem reached_succ {len : ℕ → ℕ} {l i s : ℕ} :
    Reached len l (i + 1) s ↔ Reached len l i s ∨ len s ≠ 0 ∧ len s = l ∧ s = i := by
  unfold Reached
  omega

theorem reached_next {len : ℕ → ℕ} {n l s : ℕ} (hs : s < n) :
    Reached len (l + 1) 0 s ↔ Reached len l n s := by
  unfold Reached
  omega

/-! ### The coder -/

theorem bzCodes_eq (len : List ℕ) {s : ℕ} (hs : s < len.length) (h0 : lenOf len s ≠ 0)
    (h20 : lenOf len s ≤ 20) : bzCodes len s = code (lenOf len) len.length s := by
  have houter : ∀ m, m ≤ 20 →
      let st := upto m (fun l st =>
        let st := upto len.length (fun i st =>
          if len.getD i 0 = l + 1 then (st.1 + 1, update st.2 i st.1) else st) st
        (st.1 <<< 1, st.2)) ((0, fun _ => 0) : ℕ × (ℕ → ℕ))
      st.1 = first (lenOf len) len.length (m + 1) ∧
        ∀ s, s < len.length → Reached (lenOf len) (m + 1) 0 s →
          st.2 s = code (lenOf len) len.length s := by
    intro m hm
    induction m with
    | zero => exact ⟨by simp [first, held], fun s _ h => by unfold Reached at h; omega⟩
    | succ m ih =>
        rw [upto_succ]
        generalize upto m (fun l st =>
          let st := upto len.length (fun i st =>
            if len.getD i 0 = l + 1 then (st.1 + 1, update st.2 i st.1) else st) st
          (st.1 <<< 1, st.2)) ((0, fun _ => 0) : ℕ × (ℕ → ℕ)) = st at ih ⊢
        obtain ⟨hcode, hcodes⟩ := ih (by omega)
        have hinner : ∀ i, i ≤ len.length →
            let st' := upto i (fun i st =>
              if len.getD i 0 = m + 1 then (st.1 + 1, update st.2 i st.1) else st) st
            st'.1 = first (lenOf len) len.length (m + 1) + equal (lenOf len) i (m + 1) ∧
              ∀ s, s < len.length → Reached (lenOf len) (m + 1) i s →
                st'.2 s = code (lenOf len) len.length s := by
          intro i hi
          induction i with
          | zero => exact ⟨by rw [equal_zero]; exact hcode, hcodes⟩
          | succ i ih =>
              rw [upto_succ]
              obtain ⟨hcode', hcodes'⟩ := ih (by omega)
              generalize upto i (fun i st =>
                if len.getD i 0 = m + 1 then (st.1 + 1, update st.2 i st.1) else st) st = st'
                at hcode' hcodes' ⊢
              dsimp only
              rw [equal_succ]
              by_cases hlen : len.getD i 0 = m + 1
              · rw [if_pos hlen, if_pos (show lenOf len i = m + 1 from hlen)]
                refine ⟨by dsimp only; omega, fun s hs hr => ?_⟩
                by_cases hsi : s = i
                · subst hsi
                  change update st'.2 s st'.1 s = _
                  rw [update_self, hcode', code, rank, show lenOf len s = m + 1 from hlen]
                · change update st'.2 i st'.1 s = _
                  rw [update_of_ne hsi]
                  exact hcodes' s hs ((reached_succ.mp hr).resolve_right fun h => hsi h.2.2)
              · rw [if_neg hlen, if_neg (show lenOf len i ≠ m + 1 from hlen)]
                refine ⟨hcode', fun s hs hr => hcodes' s hs
                  ((reached_succ.mp hr).resolve_right fun h => hlen (h.2.2 ▸ h.2.1))⟩
        obtain ⟨hcode', hcodes'⟩ := hinner len.length (Nat.le_refl _)
        refine ⟨?_, fun s hs hr => hcodes' s hs ((reached_next hs).mp hr)⟩
        dsimp only at hcode' ⊢
        rw [hcode', first_succ (m + 1), last, held_pos (Nat.succ_ne_zero m), Nat.shiftLeft_eq,
          pow_one, Nat.mul_comm]
  refine (houter 20 (Nat.le_refl _)).2 s hs ⟨h0, Or.inl ?_⟩
  omega

/-! ### The decode table -/

/-- The entries of the root that the symbol `s` fills. -/
def Spans (len : ℕ → ℕ) (n s j : ℕ) : Prop :=
  code len n s * 2 ^ (fastBits - len s) ≤ j ∧ j < (code len n s + 1) * 2 ^ (fastBits - len s)

/-- The table while the loops stand at the length `l` and the symbol `i`. -/
structure Building (len : ℕ → ℕ) (n l i : ℕ) (t : Tab) : Prop where
  code_eq : t.code = first len n l + equal len i l
  perm_length : t.perm.length = shorter len n l + equal len i l
  perm : ∀ s, s < n → Reached len l i s → t.perm.getD (slot len n s) 0 = s
  fast : ∀ s, s < n → Reached len l i s → len s ≤ fastBits → ∀ j, Spans len n s j →
    t.fast j = s <<< 5 ||| len s
  fast_none : ∀ j, (∀ s, s < n → Reached len l i s → len s ≤ fastBits → ¬ Spans len n s j) →
    t.fast j = 0
  base : ∀ k, 1 ≤ k → k ≤ l → t.base k = first len n k - shorter len n k
  limit : ∀ k, 1 ≤ k → k < l → t.limit k = last len n k
  ok : t.ok = true

section

variable {len : ℕ → ℕ} {n l i : ℕ} {t : Tab}

theorem Building.symbol (h : Building len n l i t) (hk : kraft len n 20 ≤ 2 ^ 20) (hi : i < n)
    (hl : len i = l) (h0 : l ≠ 0) (h20 : l ≤ 20) : Building len n l (i + 1) (tabSym l i t) := by
  have hcode : t.code = code len n i := by rw [h.code_eq, code, rank, hl]
  have hslot : t.perm.length = slot len n i := by rw [h.perm_length, slot, rank, hl]
  have hbefore : ∀ s, Reached len l i s → len s < len i ∨ len s = len i ∧ s < i := fun s hs => by
    rw [hl]
    exact hs.2
  have hequal : equal len (i + 1) l = equal len i l + 1 := by rw [equal_succ, if_pos hl]
  have hspan : ∀ j, (t.code <<< (fastBits - l) ≤ j ∧
      j < t.code <<< (fastBits - l) + 1 <<< (fastBits - l)) ↔ Spans len n i j := fun j => by
    rw [Spans, hl, hcode, Nat.shiftLeft_eq, Nat.shiftLeft_eq, Nat.one_mul, Nat.add_mul, Nat.one_mul]
  refine ⟨?_, ?_, fun s hs hr => ?_, fun s hs hr hfast j hj => ?_, fun j hj => ?_, h.base, h.limit, ?_⟩
  · change t.code + 1 = _
    rw [hequal, h.code_eq, Nat.add_assoc]
  · change (t.perm ++ [i]).length = _
    rw [List.length_append, h.perm_length, hequal, List.length_singleton, Nat.add_assoc]
  · change (t.perm ++ [i]).getD _ 0 = s
    rcases reached_succ.mp hr with hr | ⟨-, -, rfl⟩
    · rw [List.getD_append _ _ _ _ (by rw [hslot]; exact slot_lt hs hr.1 (hbefore s hr))]
      exact h.perm s hs hr
    · rw [List.getD_append_right _ _ _ _ (by omega), hslot, Nat.sub_self]
      rfl
  · change (if l ≤ fastBits then _ else t.fast : ℕ → ℕ) j = _
    rcases reached_succ.mp hr with hr | ⟨-, hls, rfl⟩
    · split
      next hl10 =>
        dsimp only
        rw [if_neg]
        · exact h.fast s hs hr hfast j hj
        · rw [hspan]
          intro hij
          have := span_le hs hr.1 (hbefore s hr) (L := fastBits) (by rw [hl]; exact hl10)
          have := hij.1
          have := hj.2
          omega
      next => exact h.fast s hs hr hfast j hj
    · rw [if_pos (hls ▸ hfast), if_pos ((hspan j).mpr hj), hls]
  · change (if l ≤ fastBits then _ else t.fast : ℕ → ℕ) j = 0
    have hold := h.fast_none j fun s hs hr => hj s hs (reached_succ.mpr (Or.inl hr))
    split
    next hl10 =>
      dsimp only
      rw [if_neg, hold]
      rw [hspan]
      exact hj i hi (reached_succ.mpr (Or.inr ⟨hl ▸ h0, hl, rfl⟩)) (hl ▸ hl10)
    next => exact hold
  · change (t.ok && (decide (fastBits < l) || decide (t.code <<< (fastBits - l) +
      1 <<< (fastBits - l) ≤ 1 <<< fastBits))) = true
    rw [h.ok, Bool.true_and, Bool.or_eq_true, decide_eq_true_iff, decide_eq_true_iff]
    by_cases hl10 : fastBits < l
    · exact Or.inl hl10
    · refine Or.inr ?_
      have hlt := code_lt hk hi (hl ▸ h0) (by omega)
      rw [hl] at hlt
      rw [hcode, Nat.shiftLeft_eq, Nat.shiftLeft_eq, Nat.shiftLeft_eq, Nat.one_mul, Nat.one_mul,
        ← Nat.succ_mul]
      change _ ≤ 2 ^ fastBits
      have hpow : 2 ^ fastBits = 2 ^ l * 2 ^ (fastBits - l) := by rw [← pow_add]; congr 1; omega
      rw [hpow]
      exact Nat.mul_le_mul_right _ hlt

theorem Building.skip (h : Building len n l i t) (hl : len i ≠ l) : Building len n l (i + 1) t := by
  have hequal : equal len (i + 1) l = equal len i l := by rw [equal_succ, if_neg hl, Nat.add_zero]
  have hreach : ∀ s, Reached len l (i + 1) s ↔ Reached len l i s := fun s => by
    rw [reached_succ]
    exact ⟨fun h => h.resolve_right fun h => hl (h.2.2 ▸ h.2.1), Or.inl⟩
  refine ⟨by rw [hequal]; exact h.code_eq, by rw [hequal]; exact h.perm_length,
    fun s hs hr => h.perm s hs ((hreach s).mp hr), fun s hs hr => h.fast s hs ((hreach s).mp hr),
    fun j hj => h.fast_none j fun s hs hr => hj s hs ((hreach s).mpr hr), h.base, h.limit, h.ok⟩

theorem Building.symbols {lens : List ℕ} (h : Building (lenOf lens) lens.length l 0 t)
    (hk : kraft (lenOf lens) lens.length 20 ≤ 2 ^ 20) (h0 : l ≠ 0) (h20 : l ≤ 20) :
    Building (lenOf lens) lens.length l lens.length
      (upto lens.length (fun i t => if lens.getD i 0 = l then tabSym l i t else t) t) := by
  refine upto_invariant (fun i t => Building (lenOf lens) lens.length l i t) h fun i t hi ht => ?_
  split
  next hl => exact ht.symbol hk hi hl h0 h20
  next hl => exact ht.skip hl

end

/-- The table between two lengths, as the next one will find it. -/
def opened (l : ℕ) (t : Tab) : Tab := { t with base := update t.base l (t.code - t.perm.length) }

theorem bzTbuild_spec (lens : List ℕ) (hk : kraft (lenOf lens) lens.length 20 ≤ 2 ^ 20) :
    Building (lenOf lens) lens.length 21 0 (opened 21 (bzTbuild lens)) := by
  refine upto_invariant (fun m t => Building (lenOf lens) lens.length (m + 1) 0 (opened (m + 1) t))
    ?_ fun m t hm ht => ?_
  · refine ⟨rfl, rfl, fun s _ hr => ?_, fun s _ hr => ?_, fun j _ => rfl, fun k hk1 hk2 => ?_,
      fun k hk1 hk2 => ?_, rfl⟩
    · unfold Reached at hr; omega
    · unfold Reached at hr; omega
    · have hk : k = 1 := by omega
      subst hk
      rfl
    · omega
  · have hs := ht.symbols hk (Nat.succ_ne_zero m) (Nat.succ_le_of_lt hm)
    change Building (lenOf lens) lens.length (m + 1 + 1) 0 (opened (m + 1 + 1)
      (let t := upto lens.length (fun i t => if lens.getD i 0 = m + 1 then tabSym (m + 1) i t else t)
        (opened (m + 1) t)
      { t with
        limit := update t.limit (m + 1) t.code
        code := t.code <<< 1
        ok := t.ok && decide (t.code ≤ 1 <<< (m + 1)) }))
    generalize upto lens.length (fun i t => if lens.getD i 0 = m + 1 then tabSym (m + 1) i t else t)
      (opened (m + 1) t) = t' at hs ⊢
    have hlast : t'.code = last (lenOf lens) lens.length (m + 1) := by
      rw [hs.code_eq, last, held_pos (Nat.succ_ne_zero m)]
    have hcode : t'.code <<< 1 = first (lenOf lens) lens.length (m + 1 + 1) := by
      rw [hlast, first_succ, Nat.shiftLeft_eq, pow_one, Nat.mul_comm]
    have hperm : t'.perm.length = shorter (lenOf lens) lens.length (m + 1 + 1) := by
      rw [hs.perm_length, shorter.eq_def _ _ (m + 1 + 1)]
      exact congrArg _ (held_pos (Nat.succ_ne_zero m)).symm
    refine ⟨by rw [equal_zero]; exact hcode, by rw [equal_zero]; exact hperm,
      fun s hs' hr => hs.perm s hs' ((reached_next hs').mp hr),
      fun s hs' hr => hs.fast s hs' ((reached_next hs').mp hr),
      fun j hj => hs.fast_none j fun s hs' hr => hj s hs' ((reached_next hs').mpr hr),
      fun k hk1 hk2 => ?_, fun k hk1 hk2 => ?_, ?_⟩
    · change update t'.base (m + 1 + 1) (t'.code <<< 1 - t'.perm.length) k = _
      rw [update_apply]
      split
      next h => rw [h, hcode, hperm]
      next h => exact hs.base k hk1 (by omega)
    · change update t'.limit (m + 1) t'.code k = _
      rw [update_apply]
      split
      next h => rw [h, hlast]
      next h => exact hs.limit k hk1 (by omega)
    · change (t'.ok && decide (t'.code ≤ 1 <<< (m + 1))) = true
      rw [hs.ok, Bool.true_and, decide_eq_true_iff, hlast, Nat.shiftLeft_eq, Nat.one_mul]
      exact last_le hk (Nat.succ_le_of_lt hm)

/-! ### The read of a symbol -/

section

variable {src : List UInt8} {lens : List ℕ} {i : ℕ}

/-- A code ahead, seen through a window no longer than it. -/
theorem window_code {l c k : ℕ} (hc : c < 2 ^ l) (hk : k ≤ l) (rest : List Bool) :
    value (window k (MsbBits.bits l c ++ rest)) = c >>> (l - k) := by
  have hsplit := bits_add k (l - k) c
  rw [Nat.add_sub_cancel' hk] at hsplit
  have hwin := window_append_le (MsbBits.bits k (c >>> (l - k))) (MsbBits.bits (l - k) c ++ rest)
  rw [length_bits, ← List.append_assoc, ← hsplit] at hwin
  rw [hwin, value_bits, Nat.mod_eq_of_lt]
  rw [Nat.shiftRight_eq_div_pow, Nat.div_lt_iff_lt_mul (by positivity), ← pow_add,
    Nat.add_sub_cancel' hk]
  exact hc

theorem brPeek_shiftRight {r : Reader} {l m : ℕ} (hl : l ≤ m) (hm : m ≤ r.k) :
    brPeek r m >>> (m - l) = brPeek r l := by
  refine Nat.eq_of_testBit_eq fun j => ?_
  rw [brPeek, brPeek, Nat.testBit_shiftRight, Nat.testBit_mod_two_pow, Nat.testBit_mod_two_pow,
    Nat.testBit_shiftRight, Nat.testBit_shiftRight, show r.k - m + (m - l + j) = r.k - l + j by omega]
  congr 1
  exact decide_eq_decide.mpr (by omega)

/-- The walk past the root stops at the length of the code in the window. -/
theorem symWalk_finds (hk : kraft (lenOf lens) lens.length 20 ≤ 2 ^ 20) (hi : i < lens.length)
    (h0 : lenOf lens i ≠ 0) (h20 : lenOf lens i ≤ 20) {r : Reader} (hr : 20 ≤ r.k)
    (h : brPeek r 20 >>> (20 - lenOf lens i) = code (lenOf lens) lens.length i) (fuel l : ℕ)
    (h1 : 1 ≤ l) (hl : l ≤ lenOf lens i) (hfuel : lenOf lens i < l + fuel) :
    symWalk (bzTbuild lens) r fuel l = some (i, { r with k := r.k - lenOf lens i }) := by
  have hb := bzTbuild_spec lens hk
  induction fuel generalizing l with
  | zero => omega
  | succ fuel ih =>
      have hpeek : brPeek r l = code (lenOf lens) lens.length i >>> (lenOf lens i - l) := by
        rw [← h, brPeek_shiftRight h20 hr, brPeek_shiftRight hl (by omega)]
      have hlimit : (bzTbuild lens).limit l = last (lenOf lens) lens.length l :=
        hb.limit l h1 (by omega)
      rw [symWalk, hpeek, hlimit]
      rcases Nat.lt_or_eq_of_le hl with hlt' | rfl
      · rw [if_neg (Nat.not_lt.mpr (last_le_code_shift hlt'))]
        exact ih (l + 1) (by omega) hlt' (by omega)
      · have hbase : (bzTbuild lens).base (lenOf lens i) =
            first (lenOf lens) lens.length (lenOf lens i) -
              shorter (lenOf lens) lens.length (lenOf lens i) := by
          have := hb.base (lenOf lens i) h1 (by omega)
          change update (bzTbuild lens).base 21 _ (lenOf lens i) = _ at this
          rwa [update_of_ne (by omega)] at this
        rw [Nat.sub_self, Nat.shiftRight_zero, if_pos (code_lt_last hi h0), hbase, slot_sub_base]
        have hperm : (bzTbuild lens).perm.getD (slot (lenOf lens) lens.length i) 0 = i :=
          hb.perm i hi ⟨h0, Or.inl (by omega)⟩
        rw [hperm]

/-- The span of a code in the root is where the window has it at its head. -/
theorem spans_iff (i : ℕ) {r : Reader} (hr : 20 ≤ r.k) (hfast : lenOf lens i ≤ fastBits) :
    Spans (lenOf lens) lens.length i (brPeek r fastBits) ↔
      brPeek r 20 >>> (20 - lenOf lens i) = code (lenOf lens) lens.length i := by
  have h20 : lenOf lens i ≤ 20 := by unfold fastBits at hfast; omega
  rw [brPeek_shiftRight h20 hr, ← brPeek_shiftRight hfast (show fastBits ≤ r.k by unfold fastBits; omega),
    Spans, Nat.shiftRight_eq_div_pow]
  have hpos := Nat.two_pow_pos (fastBits - lenOf lens i)
  rw [← Nat.le_div_iff_mul_le hpos, ← Nat.div_lt_iff_lt_mul hpos]
  omega

/-- `bz_sym` reads the symbol whose code is at the head of the window. -/
theorem bzSym_finds (hk : kraft (lenOf lens) lens.length 20 ≤ 2 ^ 20) (hi : i < lens.length)
    (h0 : lenOf lens i ≠ 0) (h20 : lenOf lens i ≤ 20) {maxl : ℕ} (hmax : lenOf lens i ≤ maxl)
    {r r' : Reader} (hfill : (if r.k < 20 then brFill r else r) = r') (hr : 20 ≤ r'.k)
    (h : brPeek r' 20 >>> (20 - lenOf lens i) = code (lenOf lens) lens.length i) :
    bzSym (bzTbuild lens) maxl r = (.ok i, { r' with k := r'.k - lenOf lens i }) := by
  have hb := bzTbuild_spec lens hk
  unfold bzSym
  dsimp only
  rw [hfill]
  by_cases hfast : lenOf lens i ≤ fastBits
  · have hf : (bzTbuild lens).fast _ = i <<< 5 ||| lenOf lens i :=
      hb.fast i hi ⟨h0, Or.inl (by omega)⟩ hfast _ ((spans_iff i hr hfast).mpr h)
    have hor : i <<< 5 ||| lenOf lens i = i * 32 + lenOf lens i := by
      rw [← Nat.shiftLeft_add_eq_or_of_lt (by omega), Nat.shiftLeft_eq]
    rw [hf, hor, if_pos (by omega), Nat.shiftRight_eq_div_pow]
    have hdiv : (i * 32 + lenOf lens i) / 2 ^ 5 = i := by omega
    have hmod : (i * 32 + lenOf lens i) % 32 = lenOf lens i := by omega
    rw [hdiv, hmod]
  · have hnone : (bzTbuild lens).fast (brPeek r' fastBits) = 0 := by
      refine hb.fast_none _ fun s hs hrs hs10 hspan => hfast ?_
      rw [spans_iff s hr hs10] at hspan
      rw [← code_unique hs hi hrs.1 h0 (by unfold fastBits at hs10; omega) h20 hspan h]
      exact hs10
    rw [hnone, if_neg (by simp), symWalk_finds hk hi h0 h20 hr h (maxl - fastBits) (fastBits + 1)
      (by omega) (Nat.lt_of_not_le hfast) (by omega)]

/-- Past the last code there is none to find. -/
theorem bzSym_none (hk : kraft (lenOf lens) lens.length 20 ≤ 2 ^ 20) {maxl : ℕ} (hmax : maxl ≤ 20)
    {r r' : Reader} (hfill : (if r.k < 20 then brFill r else r) = r') (hr : 20 ≤ r'.k)
    (h : last (lenOf lens) lens.length 20 ≤ brPeek r' 20) :
    bzSym (bzTbuild lens) maxl r = (.error 2, r') := by
  have hb := bzTbuild_spec lens hk
  have hover : ∀ l ≤ 20, last (lenOf lens) lens.length l ≤ brPeek r' l := fun l hl => by
    rw [← brPeek_shiftRight hl hr, Nat.shiftRight_eq_div_pow, Nat.le_div_iff_mul_le (by positivity)]
    exact Nat.le_trans (last_mul_le_last hl) h
  have hwalk : ∀ fuel l, 1 ≤ l → l + fuel ≤ 21 → symWalk (bzTbuild lens) r' fuel l = none := by
    intro fuel
    induction fuel with
    | zero => exact fun _ _ _ => rfl
    | succ fuel ih =>
        intro l h1 hl
        have hlimit : (bzTbuild lens).limit l = last (lenOf lens) lens.length l :=
          hb.limit l h1 (by omega)
        rw [symWalk, hlimit, if_neg (Nat.not_lt.mpr (hover l (by omega)))]
        exact ih (l + 1) (by omega) (by omega)
  have hnone : (bzTbuild lens).fast (brPeek r' fastBits) = 0 := by
    refine hb.fast_none _ fun s hs hrs hs10 hspan => ?_
    rw [spans_iff s hr hs10] at hspan
    have hs20 : lenOf lens s ≤ 20 := by unfold fastBits at hs10; omega
    have hle := hover _ hs20
    rw [← brPeek_shiftRight hs20 hr, hspan] at hle
    exact Nat.not_lt.mpr hle (code_lt_last hs hrs.1)
  unfold bzSym
  dsimp only
  rw [hfill, hnone, if_neg (by simp), hwalk (maxl - fastBits) (fastBits + 1) (by omega)
    (by unfold fastBits; omega)]

/-- The code of a symbol is read back as the symbol. -/
theorem bzSym_parses (hk : kraft (lenOf lens) lens.length 20 ≤ 2 ^ 20) (hi : i < lens.length)
    (h0 : lenOf lens i ≠ 0) (h20 : lenOf lens i ≤ 20) {maxl : ℕ} (hmax : lenOf lens i ≤ maxl) :
    Parses (Ahead src) (bzSym (bzTbuild lens) maxl)
      (MsbBits.bits (lenOf lens i) (code (lenOf lens) lens.length i)) i := by
  have hlt := code_lt hk hi h0 h20
  intro r rest h
  obtain ⟨r', hr', h', hk'⟩ : ∃ r', (if r.k < 20 then brFill r else r) = r' ∧
      Ahead src r' (MsbBits.bits (lenOf lens i) (code (lenOf lens) lens.length i) ++ rest) ∧ 20 ≤ r'.k := by
    split
    next hlt => exact ⟨_, rfl, (brFill_spec h).1, by have := (brFill_spec h).2; omega⟩
    next hge => exact ⟨r, rfl, h, Nat.le_of_not_lt hge⟩
  have hrest : Ahead src { r' with k := r'.k - lenOf lens i } rest := by
    have := h'.consume (by rw [length_bits]; omega)
    rwa [length_bits] at this
  have hcode : brPeek r' 20 >>> (20 - lenOf lens i) = code (lenOf lens) lens.length i := by
    rw [brPeek_shiftRight h20 hk', h'.peek (Nat.le_trans h20 hk'), window_code hlt (Nat.le_refl _),
      Nat.sub_self, Nat.shiftRight_zero]
  exact ⟨_, bzSym_finds hk hi h0 h20 hmax hr' hk' hcode, hrest⟩

end

end LoveRuntime.Bzip2
