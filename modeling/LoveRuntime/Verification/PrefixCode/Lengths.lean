import LoveRuntime.Model.Compress.PrefixCode
import LoveRuntime.Library.CanonicalCode
import LoveRuntime.Verification.PrefixCode.Merge
import LoveRuntime.Verification.Bzip2.Codes
import LoveRuntime.Verification.Bzip2.Lens
import LoveRuntime.Verification.PrefixCode.Tables
import LoveRuntime.Verification.Zstd.Tree
import Mathlib.Logic.Equiv.Basic

/-! # The keys of the symbols counted, and their sort -/

namespace LoveRuntime.PrefixCode

open Loop

/-- The `nl` keys are those of the symbols with a count, each once. -/
structure Keyed (hc : Cells ℕ) (nsym nl : ℕ) (keys : Cells ℕ) : Prop where
  sound : ∀ k < nl, ∃ i < nsym, hc i ≠ 0 ∧ keys k = hc i <<< 12 ||| i
  complete : ∀ i < nsym, hc i ≠ 0 → ∃ k < nl, keys k = hc i <<< 12 ||| i
  inj : ∀ k < nl, ∀ k' < nl, keys k = keys k' → k = k'

theorem key_sym (c : ℕ) {i : ℕ} (hi : i < 4096) : (c <<< 12 ||| i) &&& 4095 = i := by
  have hmask : (4095 : ℕ) = 2 ^ 12 - 1 := rfl
  rw [hmask, Nat.and_two_pow_sub_one_eq_mod, ← Nat.shiftLeft_add_eq_or_of_lt hi, Nat.shiftLeft_eq,
    Nat.mul_add_mod_self_right]
  exact Nat.mod_eq_of_lt hi

theorem key_count (c : ℕ) {i : ℕ} (hi : i < 4096) : (c <<< 12 ||| i) >>> 12 = c := by
  rw [← Nat.shiftLeft_add_eq_or_of_lt hi, Nat.shiftLeft_eq, Nat.shiftRight_eq_div_pow]
  omega

theorem countKeys_keyed (hc : Cells ℕ) {nsym : ℕ} (hsym : nsym ≤ 4096) :
    Keyed hc nsym (countKeys hc nsym).2 (countKeys hc nsym).1 := by
  refine upto_invariant (fun i (st : Cells ℕ × ℕ) => Keyed hc i st.2 st.1) ⟨?_, ?_, ?_⟩
    fun i st hi h => ?_
  · exact fun k hk => absurd hk (Nat.not_lt_zero k)
  · exact fun i hi => absurd hi (Nat.not_lt_zero i)
  · exact fun k hk => absurd hk (Nat.not_lt_zero k)
  by_cases hz : hc i = 0
  · simp only [hz, if_true]
    refine ⟨fun k hk => ?_, fun j hj hne => ?_, h.inj⟩
    · obtain ⟨j, hj, hjk⟩ := h.sound k hk
      exact ⟨j, Nat.lt_succ_of_lt hj, hjk⟩
    · rcases Nat.lt_or_eq_of_le (Nat.le_of_lt_succ hj) with hlt | rfl
      · exact h.complete j hlt hne
      · exact absurd hz hne
  · simp only [hz, if_false]
    have hold : ∀ k < st.2, st.1.set st.2 (hc i <<< 12 ||| i) k = st.1 k := fun k hk =>
      st.1.set_of_ne _ (Nat.ne_of_lt hk)
    have hfresh : ∀ k < st.2, st.1 k ≠ hc i <<< 12 ||| i := by
      intro k hk heq
      obtain ⟨j, hj, -, hkey⟩ := h.sound k hk
      have hsame := congrArg (· &&& 4095) (hkey.symm.trans heq)
      simp only [key_sym _ (show i < 4096 by omega), key_sym _ (show j < 4096 by omega)] at hsame
      omega
    refine ⟨fun k hk => ?_, fun j hj hne => ?_, fun k hk k' hk' heq => ?_⟩
    · rcases Nat.lt_or_eq_of_le (Nat.le_of_lt_succ hk) with hlt | rfl
      · obtain ⟨j, hj, hjk⟩ := h.sound k hlt
        exact ⟨j, Nat.lt_succ_of_lt hj, by rw [hold k hlt]; exact hjk⟩
      · exact ⟨i, Nat.lt_succ_self i, hz, st.1.set_self _ _⟩
    · rcases Nat.lt_or_eq_of_le (Nat.le_of_lt_succ hj) with hlt | rfl
      · obtain ⟨k, hk, hjk⟩ := h.complete j hlt hne
        exact ⟨k, Nat.lt_succ_of_lt hk, by rw [hold k hk]; exact hjk⟩
      · exact ⟨st.2, Nat.lt_succ_self _, st.1.set_self _ _⟩
    · rcases Nat.lt_or_eq_of_le (Nat.le_of_lt_succ hk) with hlt | rfl <;>
        rcases Nat.lt_or_eq_of_le (Nat.le_of_lt_succ hk') with hlt' | rfl
      · rw [hold k hlt, hold k' hlt'] at heq
        exact h.inj k hlt k' hlt' heq
      · rw [hold k hlt, st.1.set_self] at heq
        exact absurd heq (hfresh k hlt)
      · rw [hold k' hlt', st.1.set_self] at heq
        exact absurd heq.symm (hfresh k' hlt')
      · rfl

/-! ## The sort -/

/-- The first `nl` cells rearranged. -/
def Rearranged (nl : ℕ) (a b : Cells ℕ) : Prop :=
  ∃ p : Equiv.Perm ℕ, (∀ k, p k < nl ↔ k < nl) ∧ ∀ k, b k = a (p k)

theorem Rearranged.refl (nl : ℕ) (a : Cells ℕ) : Rearranged nl a a :=
  ⟨Equiv.refl ℕ, fun _ => Iff.rfl, fun _ => rfl⟩

theorem Rearranged.trans {nl : ℕ} {a b c : Cells ℕ} (h : Rearranged nl a b)
    (h' : Rearranged nl b c) : Rearranged nl a c := by
  obtain ⟨p, hp, hb⟩ := h
  obtain ⟨q, hq, hc⟩ := h'
  exact ⟨q.trans p, fun k => (hp (q k)).trans (hq k), fun k => by rw [hc, hb]; rfl⟩

theorem siftDown_rearranged {nl gap v : ℕ} (hgap : 0 < gap) (fuel : ℕ) {j : ℕ} (hj : j < nl)
    (keys : Cells ℕ) : Rearranged nl (keys.set j v) (siftDown gap v fuel j keys) := by
  induction fuel generalizing j keys with
  | zero => exact .refl nl _
  | succ fuel ih =>
      rw [siftDown]
      split
      case isFalse => exact .refl nl _
      case isTrue h =>
          refine Rearranged.trans ⟨Equiv.swap j (j - gap), fun k => ?_, fun k => ?_⟩
            (ih (by omega : j - gap < nl) (keys.set j (keys (j - gap))))
          · rw [Equiv.swap_apply_def]
            split <;> [omega; split <;> omega]
          · have hne : j - gap ≠ j := by omega
            rw [Equiv.swap_apply_def]
            by_cases hk : k = j
            · rw [if_pos hk, hk, Cells.set_of_ne _ _ hne.symm, Cells.set_self, Cells.set_of_ne _ _ hne]
            by_cases hk' : k = j - gap
            · rw [if_neg hk, if_pos hk', hk', Cells.set_self, Cells.set_self]
            · rw [if_neg hk, if_neg hk', Cells.set_of_ne _ _ hk', Cells.set_of_ne _ _ hk,
                Cells.set_of_ne _ _ hk]

theorem shellPass_rearranged {nl gap : ℕ} (hgap : 0 < gap) (keys : Cells ℕ) :
    Rearranged nl keys (shellPass nl gap keys) := by
  refine upto_invariant (fun _ ks => Rearranged nl keys ks) (.refl nl keys) fun i ks hi h => ?_
  refine h.trans (Rearranged.trans ⟨Equiv.refl ℕ, fun _ => Iff.rfl, fun k => ?_⟩
    (siftDown_rearranged hgap (gap + i) (by omega : gap + i < nl) ks))
  by_cases hk : k = gap + i
  · rw [hk, Cells.set_self]
    rfl
  · rw [Cells.set_of_ne _ _ hk]
    rfl

theorem shellSort_rearranged (nl fuel gap : ℕ) (keys : Cells ℕ) :
    Rearranged nl keys (shellSort nl fuel gap keys) := by
  induction fuel generalizing gap keys with
  | zero => exact .refl nl keys
  | succ fuel ih =>
      rw [shellSort]
      split
      case isTrue => exact .refl nl keys
      case isFalse hgap => exact (shellPass_rearranged (Nat.pos_of_ne_zero hgap) keys).trans (ih _ _)

theorem Keyed.rearranged {hc : Cells ℕ} {nsym nl : ℕ} {a b : Cells ℕ} (h : Keyed hc nsym nl a)
    (hab : Rearranged nl a b) : Keyed hc nsym nl b := by
  obtain ⟨p, hp, hb⟩ := hab
  refine ⟨fun k hk => ?_, fun i hi hne => ?_, fun k hk k' hk' heq => ?_⟩
  · rw [hb]
    exact h.sound _ ((hp k).mpr hk)
  · obtain ⟨k, hk, hkey⟩ := h.complete i hi hne
    refine ⟨p.symm k, (hp _).mp (by rwa [Equiv.apply_symm_apply]), ?_⟩
    rw [hb, Equiv.apply_symm_apply, hkey]
  · rw [hb, hb] at heq
    exact p.injective (h.inj _ ((hp k).mpr hk) _ ((hp k').mpr hk') heq)

end LoveRuntime.PrefixCode

/-! # The lengths: a complete code within the limit -/

namespace LoveRuntime.PrefixCode

open Loop JoinForest Finset CanonicalCode

/-! ## A pass -/

/-- The symbol of the `k`-th key. -/
def symOf (keys : Cells ℕ) (k : ℕ) : ℕ := keys k &&& 4095

section Symbols

variable {hc keys : Cells ℕ} {nsym nl : ℕ} (h : Keyed hc nsym nl keys) (hsym : nsym ≤ 4096)

include h hsym

theorem Keyed.sym_lt {k : ℕ} (hk : k < nl) : symOf keys k < nsym ∧ hc (symOf keys k) ≠ 0 := by
  obtain ⟨i, hi, hne, hkey⟩ := h.sound k hk
  rw [symOf, hkey, key_sym _ (by omega)]
  exact ⟨hi, hne⟩

theorem Keyed.count {k : ℕ} (hk : k < nl) : keys k >>> 12 = hc (symOf keys k) := by
  obtain ⟨i, hi, -, hkey⟩ := h.sound k hk
  rw [symOf, hkey, key_sym _ (by omega), key_count _ (by omega)]

theorem Keyed.exists_sym {i : ℕ} (hi : i < nsym) (hne : hc i ≠ 0) : ∃ k < nl, symOf keys k = i := by
  obtain ⟨k, hk, hkey⟩ := h.complete i hi hne
  exact ⟨k, hk, by rw [symOf, hkey, key_sym _ (by omega)]⟩

theorem Keyed.sym_inj {k k' : ℕ} (hk : k < nl) (hk' : k' < nl) (heq : symOf keys k = symOf keys k') :
    k = k' := by
  obtain ⟨i, hi, -, hkey⟩ := h.sound k hk
  obtain ⟨i', hi', -, hkey'⟩ := h.sound k' hk'
  rw [symOf, symOf, hkey, hkey', key_sym _ (by omega), key_sym _ (by omega)] at heq
  exact h.inj k hk k' hk' (by rw [hkey, hkey', heq])

theorem Keyed.card_le : nl ≤ nsym := by
  have hle : #((range nl).image (symOf keys)) ≤ #(range nsym) := by
    refine card_le_card fun i hi => ?_
    obtain ⟨k, hk, rfl⟩ := mem_image.mp hi
    exact mem_range.mpr (h.sym_lt hsym (mem_range.mp hk)).1
  rwa [card_image_of_injOn fun k hk k' hk' heq => h.sym_inj hsym (mem_range.mp hk)
    (mem_range.mp hk') heq, card_range, card_range] at hle

end Symbols

/-- What `depths` answers for leaves of the depths `D`. -/
structure Deep (keys : Cells ℕ) (nl : ℕ) (D : ℕ → ℕ) (r : Cells ℕ × ℕ) : Prop where
  depth : ∀ k < nl, r.1 (symOf keys k) = D k % 256
  other : ∀ s, (∀ k < nl, symOf keys k ≠ s) → r.1 s = 0
  le : ∀ k < nl, D k ≤ r.2
  least : ∀ b, (∀ k < nl, D k ≤ b) → r.2 ≤ b

theorem depths_deep {keys pa : Cells ℕ} {nl : ℕ} (nsym : ℕ) {D : ℕ → ℕ}
    (hD : ∀ k < nl, depthFrom pa (2 * nl) (pa k) = D k)
    (hinj : ∀ k < nl, ∀ k' < nl, symOf keys k = symOf keys k' → k = k') :
    Deep keys nl D (depths nsym nl keys pa) := by
  have hloop : ∀ m ≤ nl, Deep keys m D (upto m (fun i st =>
      let d := depthFrom pa (2 * nl) (pa i)
      (st.1.set (keys i &&& 4095) (d % 256), max st.2 d)) (Cells.fill nsym 0, 0)) := by
    intro m hm
    refine upto_invariant (fun m (st : Cells ℕ × ℕ) => Deep keys m D st)
      ⟨fun k hk => absurd hk (Nat.not_lt_zero k), fun _ _ => rfl,
        fun k hk => absurd hk (Nat.not_lt_zero k), fun _ _ => Nat.zero_le _⟩ fun i st hi h => ?_
    have hd := hD i (by omega)
    refine ⟨fun k hk => ?_, fun s hs => ?_, fun k hk => ?_, fun b hb => ?_⟩
    · dsimp only
      rw [hd]
      rcases Nat.lt_or_eq_of_le (Nat.le_of_lt_succ hk) with hlt | rfl
      · have hne : symOf keys k ≠ keys i &&& 4095 := fun heq =>
          Nat.ne_of_lt hlt (hinj k (by omega) i (by omega) heq)
        rw [Cells.set_of_ne _ _ hne, h.depth k hlt]
      · exact Cells.set_self _ _ _
    · have hne : s ≠ keys i &&& 4095 := fun heq => hs i (Nat.lt_succ_self i) heq.symm
      dsimp only
      rw [Cells.set_of_ne _ _ hne, h.other s fun k hk => hs k (Nat.lt_succ_of_lt hk)]
    · dsimp only
      rw [hd]
      rcases Nat.lt_or_eq_of_le (Nat.le_of_lt_succ hk) with hlt | rfl
      · exact Nat.le_trans (h.le k hlt) (Nat.le_max_left _ _)
      · exact Nat.le_max_right _ _
    · dsimp only
      rw [hd]
      exact Nat.max_le.mpr ⟨h.least b fun k hk => hb k (Nat.lt_succ_of_lt hk),
        hb i (Nat.lt_succ_self i)⟩
  exact hloop nl (Nat.le_refl nl)

/-- Lengths that make a complete code of the symbols with a count, none over `lim`. -/
structure Complete (hc len : ℕ → ℕ) (nsym lim : ℕ) : Prop where
  zero_iff : ∀ i < nsym, len i = 0 ↔ hc i = 0
  le : ∀ i < nsym, len i ≤ lim
  kraft : ∀ L, (∀ i < nsym, len i ≤ L) → CanonicalCode.kraft len nsym L = 2 ^ L

theorem lensPass_spec {hc : Cells ℕ} {nsym : ℕ} (hsym : nsym ≤ 4096)
    (htwo : ∃ i < nsym, ∃ j < nsym, i ≠ j ∧ hc i ≠ 0 ∧ hc j ≠ 0) :
    ((lensPass hc nsym).2 < 256 →
      Complete hc (lensPass hc nsym).1 nsym (lensPass hc nsym).2) ∧
    ∀ lim, nsym ≤ 2 ^ lim → (∀ i < nsym, hc i ≤ 1) → (lensPass hc nsym).2 ≤ lim := by
  have hcount := countKeys_keyed hc hsym
  unfold lensPass
  generalize countKeys hc nsym = k at hcount
  obtain ⟨first, nl⟩ := k
  dsimp only at hcount ⊢
  have hkeyed := hcount.rearranged (shellSort_rearranged nl nl (nl / 2) first)
  generalize shellSort nl nl (nl / 2) first = keys at hkeyed
  have hnl : 2 ≤ nl := by
    obtain ⟨i, hi, j, hj, hij, hi0, hj0⟩ := htwo
    obtain ⟨a, ha, rfl⟩ := hkeyed.exists_sym hsym hi hi0
    obtain ⟨b, hb, rfl⟩ := hkeyed.exists_sym hsym hj hj0
    have : a ≠ b := fun h => hij (by rw [h])
    omega
  obtain ⟨D, T, hshape⟩ := mergeAll_shape (by omega : 1 ≤ nl) keys
  have hdeep : Deep keys nl D (depths nsym nl keys (mergeAll nl keys).pa) := by
    refine depths_deep nsym (fun k hk => ?_) fun k hk k' hk' => hkeyed.sym_inj hsym hk hk'
    have := hshape.deep k hk
    exact depthFrom_eq (hshape.climbs k hk) (by omega)
  generalize depths nsym nl keys (mergeAll nl keys).pa = r at hdeep
  have hpos : ∀ k < nl, 1 ≤ D k := fun k hk => hshape.depth_pos hnl hk
  constructor
  · intro hbyte
    have hlen : ∀ k < nl, r.1 (symOf keys k) = D k := fun k hk => by
      rw [hdeep.depth k hk]
      exact Nat.mod_eq_of_lt (Nat.lt_of_le_of_lt (hdeep.le k hk) hbyte)
    have hzero : ∀ i < nsym, hc i = 0 → r.1 i = 0 := by
      intro i _ hz
      refine hdeep.other i fun k hk heq => ?_
      exact (hkeyed.sym_lt hsym hk).2 (heq ▸ hz)
    refine ⟨fun i hi => ⟨fun hz => ?_, hzero i hi⟩, fun i hi => ?_, fun L hL => ?_⟩
    · by_contra hne
      obtain ⟨k, hk, rfl⟩ := hkeyed.exists_sym hsym hi hne
      rw [hlen k hk] at hz
      exact absurd (hpos k hk) (by omega)
    · by_cases hz : hc i = 0
      · rw [hzero i hi hz]
        exact Nat.zero_le _
      · obtain ⟨k, hk, rfl⟩ := hkeyed.exists_sym hsym hi hz
        rw [hlen k hk]
        exact hdeep.le k hk
    · have hle : ∀ k < nl, D k ≤ L := fun k hk => by
        rw [← hlen k hk]
        exact hL _ (hkeyed.sym_lt hsym hk).1
      rw [← hshape.kraft_pow hle, CanonicalCode.kraft]
      symm
      have himage : ∑ i ∈ (range nl).image (symOf keys),
          (if 1 ≤ r.1 i ∧ r.1 i ≤ L then 2 ^ (L - r.1 i) else 0) = ∑ k ∈ range nl, 2 ^ (L - D k) := by
        rw [sum_image fun k hk k' hk' heq => hkeyed.sym_inj hsym (mem_range.mp hk)
          (mem_range.mp hk') heq]
        refine sum_congr rfl fun k hk => ?_
        have hk' := mem_range.mp hk
        rw [hlen k hk', if_pos ⟨hpos k hk', hle k hk'⟩]
      rw [← himage]
      refine sum_subset (fun i hi => ?_) fun i hi hnot => if_neg ?_
      · obtain ⟨k, hk, rfl⟩ := mem_image.mp hi
        exact mem_range.mpr (hkeyed.sym_lt hsym (mem_range.mp hk)).1
      · have hz : r.1 i = 0 := hdeep.other i fun k hk heq =>
          hnot (mem_image.mpr ⟨k, mem_range.mpr hk, heq⟩)
        omega
  · intro lim hlim hone
    refine hdeep.least lim fun k hk => ?_
    have hunit : ∀ k < nl, keys k >>> 12 = 1 := fun k hk => by
      have hs := hkeyed.sym_lt hsym hk
      have := hone _ hs.1
      rw [hkeyed.count hsym hk]
      omega
    have hqueue := mergeAll_queue hunit
    have hlast : parOf (mergeAll nl keys).pa (2 * nl - 2) = none :=
      hshape.act_root _ (mem_singleton_self _)
    have hpar : ∀ x < 2 * nl - 2, parOf (mergeAll nl keys).pa x = some (nl + x / 2) := by
      intro x hx
      rw [parOf, hqueue.par x (by omega), if_neg (Nat.succ_ne_zero _), Nat.add_sub_cancel]
    have hpow := two_pow_le_of_queue (hshape.climbs k hk) hpar hlast (by omega)
    have hnsym := hkeyed.card_le hsym
    have hlt : 2 ^ D k < 2 ^ (lim + 1) := by
      rw [pow_succ]
      omega
    exact Nat.le_of_lt_succ ((Nat.pow_lt_pow_iff_right (by decide)).mp hlt)

/-! ## The passes -/

theorem halve_eq_zero (c : ℕ) : halve c = 0 ↔ c = 0 := by
  unfold halve
  split
  case isTrue h => simp [h]
  case isFalse h => split <;> simp_all

theorem halve_lt {c k : ℕ} (hk : 1 ≤ k) (h : c < 2 ^ (k + 1)) : halve c < 2 ^ k := by
  have hpow : 2 ^ 1 ≤ 2 ^ k := Nat.pow_le_pow_right (by decide) hk
  unfold halve
  split
  case isTrue => omega
  case isFalse =>
      split
      case isTrue => omega
      case isFalse =>
          rw [Nat.shiftRight_one]
          rw [pow_succ] at h
          omega

theorem halved_apply (hc : Cells ℕ) (nsym i : ℕ) :
    upto nsym (fun i hc => hc.set i (halve (hc i))) hc i = if i < nsym then halve (hc i) else hc i := by
  induction nsym with
  | zero => simp
  | succ n ih =>
      rw [upto_succ]
      by_cases hi : i = n
      · subst hi
        rw [Cells.set_self, ih, if_neg (Nat.lt_irrefl i), if_pos (Nat.lt_succ_self i)]
      · rw [Cells.set_of_ne _ _ hi, ih]
        exact if_congr (by omega) rfl rfl

/-- Within as many passes as the counts have bits, one fits. -/
theorem lensPasses_complete {nsym lim : ℕ} (hsym : nsym ≤ 4096) (hlim : nsym ≤ 2 ^ lim)
    (hbyte : lim < 256) (fuel : ℕ) {hc : Cells ℕ}
    (htwo : ∃ i < nsym, ∃ j < nsym, i ≠ j ∧ hc i ≠ 0 ∧ hc j ≠ 0)
    (hlt : ∀ i < nsym, hc i < 2 ^ (fuel + 1)) :
    Complete hc (lensPasses nsym lim (fuel + 1) hc).1 nsym lim ∧
      (lensPasses nsym lim (fuel + 1) hc).2 ≤ lim := by
  induction fuel generalizing hc with
  | zero =>
      obtain ⟨hpass, hunit⟩ := lensPass_spec hsym htwo
      have hfits := hunit lim hlim fun i hi => Nat.le_of_lt_succ (hlt i hi)
      rw [lensPasses, if_pos hfits]
      have hcomplete := hpass (Nat.lt_of_le_of_lt hfits hbyte)
      exact ⟨⟨hcomplete.zero_iff, fun i hi => Nat.le_trans (hcomplete.le i hi) hfits,
        hcomplete.kraft⟩, hfits⟩
  | succ fuel ih =>
      obtain ⟨hpass, -⟩ := lensPass_spec hsym htwo
      rw [lensPasses]
      split
      case isTrue hfits =>
          have hcomplete := hpass (Nat.lt_of_le_of_lt hfits hbyte)
          exact ⟨⟨hcomplete.zero_iff, fun i hi => Nat.le_trans (hcomplete.le i hi) hfits,
            hcomplete.kraft⟩, hfits⟩
      case isFalse =>
          have happly : ∀ i < nsym,
              upto nsym (fun i hc => hc.set i (halve (hc i))) hc i = halve (hc i) := fun i hi => by
            rw [halved_apply, if_pos hi]
          obtain ⟨i, hi, j, hj, hij, hi0, hj0⟩ := htwo
          have hrest := @ih (upto nsym (fun i hc => hc.set i (halve (hc i))) hc)
            ⟨i, hi, j, hj, hij, by rwa [happly i hi, Ne, halve_eq_zero],
              by rwa [happly j hj, Ne, halve_eq_zero]⟩
            fun i hi => by
              rw [happly i hi]
              exact halve_lt (Nat.succ_pos fuel) (hlt i hi)
          refine ⟨⟨fun i hi => ?_, hrest.1.le, hrest.1.kraft⟩, hrest.2⟩
          rw [hrest.1.zero_iff i hi, happly i hi, halve_eq_zero]

/-- `pfx_lens` of two counts or more. -/
theorem pfxLens_complete {hc : Cells ℕ} {nsym lim : ℕ} (hsym : nsym ≤ 4096) (hlim : nsym ≤ 2 ^ lim)
    (hbyte : lim < 256) (hlt : ∀ i < nsym, hc i < 2 ^ 32)
    (htwo : ∃ i < nsym, ∃ j < nsym, i ≠ j ∧ hc i ≠ 0 ∧ hc j ≠ 0) :
    Complete hc (pfxLens hc nsym lim).1 nsym lim := by
  have hkeyed := countKeys_keyed hc hsym
  have hnl : ¬ (countKeys hc nsym).2 < 2 := by
    obtain ⟨i, hi, j, hj, hij, hi0, hj0⟩ := htwo
    obtain ⟨a, ha, rfl⟩ := hkeyed.exists_sym hsym hi hi0
    obtain ⟨b, hb, rfl⟩ := hkeyed.exists_sym hsym hj hj0
    have : a ≠ b := fun h => hij (by rw [h])
    omega
  rw [pfxLens, if_neg hnl]
  exact (lensPasses_complete hsym hlim hbyte 31 htwo hlt).1

/-- Of one count or none: a lone symbol has the length 1. -/
theorem pfxLens_lone {hc : Cells ℕ} {nsym : ℕ} (lim : ℕ) (hsym : nsym ≤ 4096)
    (hone : ¬ ∃ i < nsym, ∃ j < nsym, i ≠ j ∧ hc i ≠ 0 ∧ hc j ≠ 0) {i : ℕ} (hi : i < nsym) :
    (pfxLens hc nsym lim).1 i = if hc i = 0 then 0 else 1 := by
  have hkeyed := countKeys_keyed hc hsym
  generalize hk : countKeys hc nsym = k at hkeyed
  obtain ⟨keys, nl⟩ := k
  dsimp only at hkeyed
  have hnl : nl < 2 := by
    by_contra hge
    have h0 := hkeyed.sym_lt hsym (by omega : 0 < nl)
    have h1 := hkeyed.sym_lt hsym (by omega : 1 < nl)
    refine hone ⟨_, h0.1, _, h1.1, fun heq => ?_, h0.2, h1.2⟩
    exact absurd (hkeyed.sym_inj hsym (by omega) (by omega) heq) (by decide)
  rw [pfxLens, hk]
  dsimp only
  rw [if_pos hnl]
  dsimp only
  by_cases hz : hc i = 0
  · rw [if_pos hz]
    split
    case isTrue => rfl
    case isFalse hne =>
        have h0 := hkeyed.sym_lt hsym (by omega : 0 < nl)
        refine Cells.set_of_ne _ _ fun heq => h0.2 ?_
        rw [symOf, ← heq, hz]
  · obtain ⟨a, ha, hsa⟩ := hkeyed.exists_sym hsym hi hz
    have ha0 : a = 0 := by omega
    subst ha0
    rw [if_neg hz, if_neg (by omega), ← hsa]
    exact Cells.set_self _ _ _

end LoveRuntime.PrefixCode

/-! # Complete codes

The lengths chosen under a limit, the codes of those lengths and the tables they are
read by: no code heads another, and no bits are without a symbol. -/

namespace LoveRuntime.PrefixCode

open CanonicalCode Finset Zstd

/-- No code stands at the head of another. -/
def PrefixFree (len : ℕ → ℕ) (n : ℕ) : Prop :=
  ∀ i < n, ∀ j < n, i ≠ j → len i ≠ 0 → len i ≤ len j →
    code len n j >>> (len j - len i) ≠ code len n i

theorem prefixFree (len : ℕ → ℕ) (n : ℕ) : PrefixFree len n :=
  fun _ hi _ _ hij h0 hle => prefix_free hi h0 hij hle

/-- Two symbols with a count. -/
def Paired (hc : Cells ℕ) (nsym : ℕ) : Prop := ∃ i < nsym, ∃ j < nsym, i ≠ j ∧ hc i ≠ 0 ∧ hc j ≠ 0

section

variable {hc : Cells ℕ} {nsym lim : ℕ}

/-- With one count or none too, the lengths are zero where the counts are and none is over. -/
theorem pfxLens_within (hsym : nsym < 4096) (hlim : nsym ≤ 2 ^ lim) (hpos : 0 < lim)
    (hbyte : lim < 256) (hlt : ∀ i < nsym, hc i < 2 ^ 32) {i : ℕ} (hi : i < nsym) :
    ((pfxLens hc nsym lim).1 i = 0 ↔ hc i = 0) ∧ (pfxLens hc nsym lim).1 i ≤ lim := by
  by_cases htwo : Paired hc nsym
  · have hfull := pfxLens_complete (Nat.le_of_lt hsym) hlim hbyte hlt htwo
    exact ⟨hfull.zero_iff i hi, hfull.le i hi⟩
  · rw [pfxLens_lone lim (Nat.le_of_lt hsym) htwo hi]
    by_cases hz : hc i = 0
    · rw [if_pos hz]
      exact ⟨⟨fun _ => hz, fun _ => rfl⟩, Nat.zero_le _⟩
    · rw [if_neg hz]
      exact ⟨⟨fun h => absurd h Nat.one_ne_zero, fun h => absurd h hz⟩, hpos⟩

end

section

variable {hc len : ℕ → ℕ} {nsym lim : ℕ} (h : Complete hc len nsym lim)

include h

/-- Every bit string finds a symbol in `inf_build`'s tables, at any root. -/
theorem Complete.entry (hlim : lim ≤ 15) (root v : ℕ) :
    ∃ i, Heads len nsym v i ∧ entry (infBuild len nsym root) v = some (i <<< 4 ||| len i) := by
  have hlen : ∀ i < nsym, len i ≤ 15 := fun i hi => Nat.le_trans (h.le i hi) hlim
  have hk := h.kraft 15 hlen
  obtain ⟨i, hi⟩ := exists_heads hlen hk v
  exact ⟨i, hi, infBuild_entry hlen (Nat.le_of_eq hk) root hi⟩

/-- The weights `zs_tree` reads back fill its table. -/
theorem Complete.huf {mx : ℕ} (hmx : ∀ i < nsym, len i ≤ mx) (huf : Cells Huf) {x : ℕ}
    (hx : x < 2 ^ mx) :
    ∃ s < nsym, len s ≠ 0 ∧
      hufFill (fun s => if len s = 0 then 0 else mx + 1 - len s) nsym mx huf x = ⟨s, len s⟩ := by
  have hle : ∀ s < nsym, (if len s = 0 then 0 else mx + 1 - len s) ≤ mx := fun s _ => by
    split <;> omega
  have hsum : ∑ s ∈ range nsym, (if (if len s = 0 then 0 else mx + 1 - len s) = 0 then 0
      else 2 ^ ((if len s = 0 then 0 else mx + 1 - len s) - 1)) = 2 ^ mx := by
    rw [← h.kraft mx hmx, CanonicalCode.kraft]
    refine sum_congr rfl fun s hs => ?_
    have := hmx s (mem_range.mp hs)
    by_cases hz : len s = 0
    · rw [if_pos hz, if_pos rfl, if_neg (by omega)]
    · rw [if_neg hz, if_neg (by omega), if_pos (by omega), show mx + 1 - len s - 1 = mx - len s by omega]
  obtain ⟨s, hs, hne, heq⟩ := hufFill_full hle hsum huf hx
  have hz : len s ≠ 0 := fun hz => hne (if_pos hz)
  have := hmx s hs
  refine ⟨s, hs, hz, ?_⟩
  rw [heq, if_neg hz, show mx + 1 - (mx + 1 - len s) = len s by omega]

end

section

open Bzip2

variable {n : ℕ} {lens : List ℕ}

/-- A full code of `bz_lens` fits `bz_tbuild`, and `bz_sym` finds a symbol wherever it reads. -/
theorem bzSym_full (h : Full n lens) (h20 : ∀ l ∈ lens, l ≤ 20) {maxl : ℕ}
    (hmax : ∀ l ∈ lens, l ≤ maxl) (r : Reader) :
    ∃ i < n, ∃ r', bzSym (bzTbuild lens) maxl r = (.ok i, r') := by
  have hmem : ∀ i < lens.length, lenOf lens i ∈ lens := fun i hi => by
    rw [lenOf, List.getD_eq_getElem _ _ hi]
    exact List.getElem_mem hi
  have hk : kraft (lenOf lens) lens.length 20 = 2 ^ 20 := by
    rw [h.length]
    exact h.kraft 20 h20
  obtain ⟨r', hfill, hr⟩ : ∃ r', (if r.k < 20 then brFill r else r) = r' ∧ 20 ≤ r'.k := by
    split
    case isTrue => exact ⟨_, rfl, Nat.le_trans (by decide) (le_brFill_k r)⟩
    case isFalse hge => exact ⟨r, rfl, Nat.le_of_not_lt hge⟩
  have hlt : brPeek r' 20 < last (lenOf lens) lens.length 20 := by
    rw [last_eq_kraft, hk]
    exact Nat.mod_lt _ (by decide)
  obtain ⟨i, hi, h0, hcode⟩ :=
    (exists_code_iff (fun i hi => h20 _ (hmem i hi)) (brPeek r' 20)).mpr hlt
  have hfinds := bzSym_finds (Nat.le_of_eq hk) hi h0 (h20 _ (hmem i hi)) (hmax _ (hmem i hi)) hfill
    hr hcode
  rw [h.length] at hi
  exact ⟨i, hi, _, hfinds⟩

end

open Bzip2 in
/-- `pfx_lens` and `bz_lens` answer complete codes. -/
theorem lens_complete :
    (∀ (hc : Cells ℕ) (nsym lim : ℕ), nsym < 4096 → nsym ≤ 2 ^ lim → 0 < lim → lim < 256 →
      (∀ i < nsym, hc i < 2 ^ 32) →
      let len := (pfxLens hc nsym lim).1
      (∀ i < nsym, (len i = 0 ↔ hc i = 0) ∧ len i ≤ lim) ∧
        (Paired hc nsym →
          (∀ L, (∀ i < nsym, len i ≤ L) → kraft len nsym L = 2 ^ L) ∧ PrefixFree len nsym ∧
          (lim ≤ 15 →
            (∀ mx, (∀ i < nsym, len i ≤ mx) → ∀ i < nsym, hc i ≠ 0 →
              dfHcodes len nsym mx i = rev (code len nsym i) (len i)) ∧
            ∀ root v, ∃ i, Heads len nsym v i ∧
              entry (infBuild len nsym root) v = some (i <<< 4 ||| len i)) ∧
          ∀ mx, (∀ i < nsym, len i ≤ mx) → ∀ huf, ∀ x < 2 ^ mx, ∃ s < nsym, len s ≠ 0 ∧
            hufFill (fun s => if len s = 0 then 0 else mx + 1 - len s) nsym mx huf x = ⟨s, len s⟩)) ∧
    ∀ (f0 : ℕ → ℕ) (n : ℕ), 2 ≤ n → n ≤ 258 → (∀ i < n, f0 i < 2 ^ 32) →
      let len := bzLens f0 n maxLen
      let pass := fun k => Bzip2.lensPass n
        ((fun f i => 1 + f i / 2)^[k] fun i => if f0 i = 0 then 1 else f0 i)
      (∃ k ≤ 40, len = pass k ∧ ∀ j < k, ¬ (pass j).foldl max 0 ≤ maxLen) ∧
      len.length = n ∧ (∀ l ∈ len, 1 ≤ l ∧ l ≤ 17) ∧ kraft (lenOf len) n 17 = 2 ^ 17 ∧
      PrefixFree (lenOf len) n ∧ (∀ i < n, bzCodes len i = code (lenOf len) n i) ∧
      (bzTbuild len).ok = true ∧
      ∀ maxl, (∀ l ∈ len, l ≤ maxl) → ∀ r, ∃ i < n, ∃ r', bzSym (bzTbuild len) maxl r = (.ok i, r') := by
  constructor
  · intro hc nsym lim hsym hlim hpos hbyte hlt
    have hwithin := fun i (hi : i < nsym) => pfxLens_within hsym hlim hpos hbyte hlt hi
    refine ⟨hwithin, fun htwo => ?_⟩
    have hfull := pfxLens_complete (Nat.le_of_lt hsym) hlim hbyte hlt htwo
    refine ⟨hfull.kraft, prefixFree _ _, fun h15 => ⟨fun mx hmx i hi hne => ?_, hfull.entry h15⟩,
      fun mx hmx huf x hx => hfull.huf hmx huf hx⟩
    refine dfHcodes_apply hmx (fun i hi => Nat.le_trans (hfull.le i hi) h15) hi ?_
    exact fun hz => hne ((hfull.zero_iff i hi).mp hz)
  · intro f0 n hn hn' hf
    have hfib : n * 3 < Nat.fib (maxLen + 3) := by
      have : Nat.fib (maxLen + 3) = 6765 := by decide
      omega
    obtain ⟨hfull, hle⟩ := bzLens_spec hn hfib (by omega) fun i hi =>
      Nat.le_trans (Nat.le_of_lt (hf i hi)) (by decide : 2 ^ 32 ≤ 2 ^ 40)
    have h20 : ∀ l ∈ bzLens f0 n maxLen, l ≤ 20 := fun l hl =>
      Nat.le_trans (hle l hl) (by decide)
    have hk : kraft (lenOf (bzLens f0 n maxLen)) (bzLens f0 n maxLen).length 20 = 2 ^ 20 := by
      rw [hfull.length]
      exact hfull.kraft 20 h20
    have hmem : ∀ i < n, lenOf (bzLens f0 n maxLen) i ∈ bzLens f0 n maxLen := fun i hi => by
      rw [lenOf, List.getD_eq_getElem _ _ (hfull.length.symm ▸ hi)]
      exact List.getElem_mem _
    refine ⟨lensLoop_passes n maxLen 40 _, hfull.length, fun l hl => ⟨hfull.pos l hl, hle l hl⟩,
      hfull.kraft 17 hle, prefixFree _ _, fun i hi => ?_, (bzTbuild_spec _ (Nat.le_of_eq hk)).ok,
      fun maxl hmax r => bzSym_full hfull h20 hmax r⟩
    have hpos := hfull.pos _ (hmem i hi)
    rw [bzCodes_eq _ (hfull.length.symm ▸ hi) (by omega) (h20 _ (hmem i hi)), hfull.length]

/-- Fibonacci counts, too deep at first for three bits. -/
theorem lens_complete_fib :
    kraft (pfxLens ⟨6, fun i => Nat.fib (i + 1)⟩ 6 3).1 6 3 = 2 ^ 3 ∧
      kraft (Bzip2.lenOf (Bzip2.bzLens (fun i => 2 ^ i) 3 Bzip2.maxLen)) 3 17 = 2 ^ 17 := by
  have hpfx := lens_complete.1 ⟨6, fun i => Nat.fib (i + 1)⟩ 6 3 (by decide) (by decide) (by decide)
    (by decide) (by decide)
  refine ⟨(hpfx.2 ⟨0, by decide, 1, by decide, by decide, by decide, by decide⟩).1 3
    fun i hi => (hpfx.1 i hi).2, ?_⟩
  exact (lens_complete.2 (fun i => 2 ^ i) 3 (by decide) (by decide) (by decide)).2.2.2.1

end LoveRuntime.PrefixCode
