import LoveRuntime.Model.Tablet
import LoveRuntime.Library.Probing
import Mathlib.Data.Nat.Bitwise
import Mathlib.Data.List.Pairwise
import Mathlib.Tactic.SplitIfs

/-! # The representation invariant and the probe

A tablet's content is the list of its entries in slot order. The invariant says how the
slots hold that content; the probe, which every operation starts with, is specified on it
once. -/

namespace LoveRuntime

open Probing

variable {K V : Type} {w : Walks K} {t : Tablet K V}

/-- All that is assumed of the walks: `eql` is an equivalence, and the hash respects it. -/
structure Walks.Lawful (w : Walks K) : Prop where
  refl : ∀ a, w.eql a a = true
  symm : ∀ a b, w.eql a b = true → w.eql b a = true
  trans : ∀ a b c, w.eql a b = true → w.eql b c = true → w.eql a c = true
  hash : ∀ a b, w.eql a b = true → w.hash a = w.hash b

theorem Walks.Lawful.eql_congr (hw : w.Lawful) {a b : K} (h : w.eql a b = true) (x : K) :
    w.eql x a = w.eql x b := by
  rw [Bool.eq_iff_iff]
  exact ⟨fun hx => hw.trans _ _ _ hx h, fun hx => hw.trans _ _ _ hx (hw.symm _ _ h)⟩

theorem Walks.Lawful.ne_symm (hw : w.Lawful) {a b : K} (h : w.eql a b = false) :
    w.eql b a = false := by
  rw [Bool.eq_false_iff] at h ⊢
  exact fun hba => h (hw.symm _ _ hba)

/-- The keys and values a tablet holds, in slot order. -/
def Tablet.entries (t : Tablet K V) : List (K × V) := Probing.entries t.cap t.slots

/-- Keys pairwise different as `eql` sees them. -/
def Distinct (w : Walks K) (l : List (K × V)) : Prop :=
  l.Pairwise fun a b => w.eql a.1 b.1 = false

structure TabletInv (w : Walks K) (t : Tablet K V) : Prop where
  power : ∃ e, t.cap = 2 ^ e
  len_eq : t.len = t.entries.length
  load : t.len * 4 < t.cap * 3
  distinct : Distinct w t.entries
  reach : Reachable t.cap (fun e => t.ideal w e.1) t.slots

/-- The value under `x` in a list of entries. -/
def lookIn (w : Walks K) (l : List (K × V)) (x : K) : Option V :=
  (l.find? fun e => w.eql x e.1).map Prod.snd

/-! ## Masks -/

namespace Tablet

theorem mask_and (h : ∃ e, t.cap = 2 ^ e) (n : ℕ) : n &&& t.mask = n % t.cap := by
  obtain ⟨e, he⟩ := h
  rw [mask, he, Nat.and_two_pow_sub_one_eq_mod]

theorem cap_pos (h : ∃ e, t.cap = 2 ^ e) : 0 < t.cap := by
  obtain ⟨e, he⟩ := h
  rw [he]
  exact Nat.two_pow_pos e

theorem ideal_lt (h : ∃ e, t.cap = 2 ^ e) (w : Walks K) (k : K) : t.ideal w k < t.cap := by
  rw [ideal, mask_and h]
  exact Nat.mod_lt _ (cap_pos h)

theorem after_eq (h : ∃ e, t.cap = 2 ^ e) {i : ℕ} (hi : i < t.cap) :
    t.after i = next t.cap i := by
  rw [after, mask_and h, next]
  split
  · rename_i he
    rw [he, Nat.mod_self]
  · exact Nat.mod_eq_of_lt (by omega)

theorem after_lt (h : ∃ e, t.cap = 2 ^ e) {i : ℕ} (hi : i < t.cap) : t.after i < t.cap := by
  rw [after_eq h hi]
  exact next_lt hi

theorem mem_entries {e : K × V} : e ∈ t.entries ↔ ∃ p < t.cap, t.slots p = some e :=
  Probing.mem_entries

end Tablet

theorem Walks.Lawful.ideal_eq (hw : w.Lawful) {a b : K} (h : w.eql a b = true)
    (t : Tablet K V) : t.ideal w a = t.ideal w b := by
  rw [Tablet.ideal, Tablet.ideal, hw.hash a b h]

/-! ## Content -/

theorem Distinct.perm (hw : w.Lawful) {l l' : List (K × V)} (h : l.Perm l')
    (hd : Distinct w l) : Distinct w l' := by
  apply (h.pairwise_iff _).mp hd
  intro a b hab
  exact hw.ne_symm hab

theorem Distinct.eq_of_eql (hw : w.Lawful) {l : List (K × V)} (hd : Distinct w l)
    {a b : K × V} (ha : a ∈ l) (hb : b ∈ l) (h : w.eql a.1 b.1 = true) : a = b := by
  by_contra hne
  have hsymm : Std.Symm fun a b : K × V => w.eql a.1 b.1 = false := ⟨fun _ _ h => hw.ne_symm h⟩
  have := List.Pairwise.forall hd ha hb hne
  simp [h] at this

theorem lookIn_eq_none {l : List (K × V)} {x : K} :
    lookIn w l x = none ↔ ∀ e ∈ l, w.eql x e.1 = false := by
  simp [lookIn]

theorem lookIn_eq_some (hw : w.Lawful) {l : List (K × V)} (hd : Distinct w l) {x : K}
    {e : K × V} (he : e ∈ l) (hx : w.eql x e.1 = true) : lookIn w l x = some e.2 := by
  cases hf : l.find? fun e => w.eql x e.1 with
  | none =>
      rw [List.find?_eq_none] at hf
      exact absurd hx (hf e he)
  | some e' =>
      have hx' := List.find?_some hf
      have hmem := List.mem_of_find?_eq_some hf
      have hee : e' = e :=
        hd.eq_of_eql hw hmem he (hw.trans _ _ _ (hw.symm _ _ hx') hx)
      rw [lookIn, hf, hee]
      rfl

theorem lookIn_cons {l : List (K × V)} {e : K × V} (x : K) :
    lookIn w (e :: l) x = if w.eql x e.1 then some e.2 else lookIn w l x := by
  unfold lookIn
  rw [List.find?_cons]
  cases w.eql x e.1 <;> rfl

/-- The order of the entries is not seen. -/
theorem lookIn_perm (hw : w.Lawful) {l l' : List (K × V)} (h : l.Perm l')
    (hd : Distinct w l) (x : K) : lookIn w l x = lookIn w l' x := by
  by_cases hno : ∀ e ∈ l, w.eql x e.1 = false
  · rw [lookIn_eq_none.mpr hno, lookIn_eq_none.mpr fun e he => hno e (h.mem_iff.mpr he)]
  · push Not at hno
    obtain ⟨e, he, hx⟩ := hno
    rw [Bool.ne_false_iff] at hx
    rw [lookIn_eq_some hw hd he hx,
      lookIn_eq_some hw (hd.perm hw h) (h.mem_iff.mp he) hx]

/-! ## The probe -/

/-- The room serves the hash of every stored key. -/
def Hashable (w : Walks K) (l : List (K × V)) (room : ℕ) : Prop :=
  ∀ e ∈ l, w.hashNeed e.1 ≤ room

/-- The room serves every walk an operation on `k` may make. -/
structure Ample (w : Walks K) (l : List (K × V)) (k : K) (room : ℕ) : Prop where
  key : w.hashNeed k ≤ room
  hashes : Hashable w l room
  compares : ∀ e ∈ l, w.eqlNeed k e.1 ≤ room

theorem Ample.perm {l l' : List (K × V)} (h : l.Perm l') {k : K} {room : ℕ}
    (ha : Ample w l k room) : Ample w l' k room where
  key := ha.key
  hashes e he := ha.hashes e (h.mem_iff.mpr he)
  compares e he := ha.compares e (h.mem_iff.mpr he)

/-- What a probe for `k` may come to. -/
inductive Probed (w : Walks K) (t : Tablet K V) (room : ℕ) (k : K) :
    Except Halt (Bool × ℕ) → Prop where
  | found {i : ℕ} {e : K × V} (hi : i < t.cap) (he : t.slots i = some e)
      (heql : w.eql k e.1 = true) : Probed w t room k (.ok (true, i))
  | gap {i : ℕ} (hi : i < t.cap) (hgap : t.slots i = none)
      (hclear : Clear t.cap t.slots (t.ideal w k) i)
      (habsent : ∀ e ∈ t.entries, w.eql k e.1 = false) : Probed w t room k (.ok (false, i))
  | torn (hshort : ¬ Ample w t.entries k room) : Probed w t room k (.error .torn)

theorem TabletInv.exists_gap (inv : TabletInv w t) : ∃ g < t.cap, t.slots g = none := by
  apply Probing.exists_gap
  have hlen : t.len = (Probing.entries t.cap t.slots).length := inv.len_eq
  have hload := inv.load
  omega

/-- The slots from the key's hash up to `i` are occupied by other keys. -/
def Passed (w : Walks K) (t : Tablet K V) (k : K) (i : ℕ) : Prop :=
  ∀ q < t.cap, ahead t.cap (t.ideal w k) q < ahead t.cap (t.ideal w k) i →
    ∃ e, t.slots q = some e ∧ w.eql k e.1 = false

theorem Passed.clear {k : K} {i : ℕ} (hp : Passed w t k i) :
    Clear t.cap t.slots (t.ideal w k) i := by
  intro q hq hd
  obtain ⟨e, he, -⟩ := hp q hq hd
  simp [he]

/-- A gap on a key's way shows that the key is nowhere in the tablet. -/
theorem Passed.absent (hw : w.Lawful) (inv : TabletInv w t) {k : K} {i : ℕ} (hi : i < t.cap)
    (hp : Passed w t k i) (hgap : t.slots i = none) :
    ∀ e ∈ t.entries, w.eql k e.1 = false := by
  intro e he
  obtain ⟨p, hpc, hpe⟩ := Tablet.mem_entries.mp he
  by_contra heql
  rw [Bool.not_eq_false] at heql
  have hclear := inv.reach p hpc e hpe
  simp only [← hw.ideal_eq heql] at hclear
  rcases lt_trichotomy (ahead t.cap (t.ideal w k) p) (ahead t.cap (t.ideal w k) i) with h | h | h
  · obtain ⟨e', he', hne⟩ := hp p hpc h
    rw [hpe, Option.some.injEq] at he'
    rw [he'] at heql
    simp [heql] at hne
  · have hpi := eq_of_ahead_eq (Tablet.ideal_lt inv.power w k) hpc hi h
    rw [hpi, hgap] at hpe
    simp at hpe
  · exact hclear i hi h hgap

theorem Passed.next (inv : TabletInv w t) {k : K} {i : ℕ} {e : K × V} (hi : i < t.cap)
    (hp : Passed w t k i) (he : t.slots i = some e) (hne : w.eql k e.1 = false)
    (hn : Probing.next t.cap i ≠ t.ideal w k) : Passed w t k (Probing.next t.cap i) := by
  have hk := Tablet.ideal_lt inv.power w k
  intro q hq hd
  rw [ahead_next hk hn] at hd
  rcases Nat.lt_succ_iff_lt_or_eq.mp hd with h | h
  · exact hp q hq h
  · rw [eq_of_ahead_eq hk hq hi h]
    exact ⟨e, he, hne⟩

theorem mapProbeFrom_probed (hw : w.Lawful) (inv : TabletInv w t) {room g : ℕ} {k : K}
    (hg : g < t.cap) (hgap : t.slots g = none) {fuel i : ℕ} (hi : i < t.cap)
    (hp : Passed w t k i) (hfuel : ahead t.cap i g < fuel) :
    Probed w t room k (mapProbeFrom w room t k fuel i) := by
  induction fuel generalizing i with
  | zero => omega
  | succ fuel ih =>
      rw [mapProbeFrom]
      cases hs : t.slots i with
      | none => exact .gap hi hs hp.clear (hp.absent hw inv hi hs)
      | some e =>
          simp only
          split_ifs with hroom heql
          · apply Probed.torn
            intro ha
            have := ha.compares e (Tablet.mem_entries.mpr ⟨i, hi, hs⟩)
            omega
          · exact .found hi hs heql
          · have hne : w.eql k e.1 = false := by simpa using heql
            have hig : i ≠ g := by
              rintro rfl
              simp [hs] at hgap
            have hclose := ahead_next_left hi hg hig
            rw [Tablet.after_eq inv.power hi]
            have hk := Tablet.ideal_lt inv.power w k
            have hn : Probing.next t.cap i ≠ t.ideal w k := by
              -- a full turn would have crossed the gap
              intro hn
              apply hp.clear g hg _ hgap
              unfold Probing.next at hn
              unfold ahead
              split at hn <;> split_ifs <;> omega
            exact ih (next_lt hi) (hp.next inv hi hs hne hn) (by omega)

theorem mapProbe_probed (hw : w.Lawful) (inv : TabletInv w t) (room : ℕ) (k : K) :
    Probed w t room k (mapProbe w room t k) := by
  unfold mapProbe Walks.hashIn
  split
  · apply Probed.torn
    intro ha
    have := ha.key
    omega
  · obtain ⟨g, hg, hgap⟩ := inv.exists_gap
    apply mapProbeFrom_probed hw inv hg hgap (Tablet.ideal_lt inv.power w k)
    · intro q _ hd
      simp [Tablet.ideal] at hd
    · exact ahead_lt hg

/-! ## Lookup -/

/-- What an attempt may come to: `Q` of its answer, or torn for want of room. -/
inductive Attempt {α : Type} (Q : α → Prop) (short : Prop) : Except Halt α → Prop where
  | answer {a : α} (h : Q a) : Attempt Q short (.ok a)
  | torn (h : short) : Attempt Q short (.error .torn)

theorem Attempt.mono {α : Type} {Q R : α → Prop} {short : Prop} {x : Except Halt α}
    (h : Attempt Q short x) (hqr : ∀ a, Q a → R a) : Attempt R short x := by
  cases h with
  | answer h => exact .answer (hqr _ h)
  | torn h => exact .torn h

theorem Attempt.bind {α β : Type} {Q : α → Prop} {R : β → Prop} {short : Prop}
    {x : Except Halt α} {f : α → Except Halt β} (h : Attempt Q short x)
    (hf : ∀ a, Q a → Attempt R short (f a)) : Attempt R short (x >>= f) := by
  cases h with
  | answer h => exact hf _ h
  | torn h => exact .torn h

theorem mapget_attempt (hw : w.Lawful) (inv : TabletInv w t) (room : ℕ) (dflt : V) (k : K) :
    Attempt (fun v => v = (lookIn w t.entries k).getD dflt) (¬ Ample w t.entries k room)
      (mapget w room t dflt k) := by
  have hp := mapProbe_probed hw inv room k
  unfold mapget
  cases hm : mapProbe w room t k with
  | error e =>
      rw [hm] at hp
      cases hp with
      | torn hshort => exact .torn hshort
  | ok r =>
      rw [hm] at hp
      cases hp with
      | @found i e hi he heql =>
          apply Attempt.answer
          have hmem : e ∈ t.entries := Tablet.mem_entries.mpr ⟨i, hi, he⟩
          rw [lookIn_eq_some hw inv.distinct hmem heql]
          simp [he]
      | gap hi hgap hclear habsent =>
          apply Attempt.answer
          rw [lookIn_eq_none.mpr habsent]
          rfl

end LoveRuntime
