import Mathlib.Data.List.Range
import Mathlib.Data.List.Perm.Basic
import Mathlib.Logic.Function.Basic

/-! # Circular arrays and linear probing

`N` slots in a ring, each a gap or an entry; every entry has a home slot. A table is
searched from an entry's home towards higher slots, wrapping at the end, and the search
stops at a gap. `Reachable` says that no entry has a gap on the way from its home.
Deletion closes the hole it leaves by moving later entries back (`Shift`). -/

namespace Probing

variable {E : Type*} {N : ℕ}

/-! ## Positions in the ring -/

/-- The slot after `i`. -/
def next (N i : ℕ) : ℕ := if i + 1 = N then 0 else i + 1

/-- How many steps lead from `a` to `b`. -/
def ahead (N a b : ℕ) : ℕ := if a ≤ b then b - a else N + b - a

theorem next_lt {i : ℕ} (hi : i < N) : next N i < N := by
  unfold next
  split <;> omega

@[simp] theorem ahead_self (a : ℕ) : ahead N a a = 0 := by
  simp [ahead]

theorem ahead_lt {a b : ℕ} (hb : b < N) : ahead N a b < N := by
  unfold ahead
  split <;> omega

theorem eq_of_ahead_eq {a b c : ℕ} (ha : a < N) (hb : b < N) (hc : c < N)
    (h : ahead N a b = ahead N a c) : b = c := by
  unfold ahead at h
  split at h <;> split at h <;> omega

theorem ahead_next {i j : ℕ} (hi : i < N) (hn : next N j ≠ i) :
    ahead N i (next N j) = ahead N i j + 1 := by
  unfold next at hn ⊢
  unfold ahead
  split at hn <;> split_ifs <;> omega

/-- The step from `j` comes closer to every slot but `j` itself. -/
theorem ahead_next_left {j g : ℕ} (hj : j < N) (hg : g < N) (hne : j ≠ g) :
    ahead N (next N j) g + 1 = ahead N j g := by
  unfold next ahead
  split_ifs <;> omega

/-- The ring's only slot at distance zero is the slot itself. -/
theorem ahead_pos {a b : ℕ} (ha : a < N) (hne : a ≠ b) : 0 < ahead N a b := by
  unfold ahead
  split <;> omega

/-- The way from `h` to `k` passes `i`, as comparisons of the three slots. -/
theorem passes_iff {i k h : ℕ} (hi : i < N) (hh : h < N) :
    (if i ≤ k then h ≤ i ∨ h > k else h ≤ i ∧ h > k) ↔ ahead N i k ≤ ahead N h k := by
  unfold ahead
  split_ifs <;> omega

/-! ## Entries -/

/-- What the first `N` slots hold, in slot order. -/
def entries (N : ℕ) (slots : ℕ → Option E) : List E := (List.range N).filterMap slots

theorem mem_entries {slots : ℕ → Option E} {e : E} :
    e ∈ entries N slots ↔ ∃ p < N, slots p = some e := by
  simp [entries]

theorem entries_congr {slots slots' : ℕ → Option E} (h : ∀ p < N, slots p = slots' p) :
    entries N slots = entries N slots' := by
  apply List.filterMap_congr
  intro p hp
  exact h p (List.mem_range.mp hp)

theorem entries_empty : entries N (fun _ => (none : Option E)) = [] := by
  simp [entries]

/-- Filling a gap adds one entry. -/
theorem entries_fill {slots : ℕ → Option E} {i : ℕ} (e : E) (hi : i < N)
    (hgap : slots i = none) :
    (entries N (Function.update slots i (some e))).Perm (e :: entries N slots) := by
  induction N with
  | zero => omega
  | succ n ih =>
      simp only [entries, List.range_succ, List.filterMap_append] at ih ⊢
      rcases Nat.lt_succ_iff_lt_or_eq.mp hi with h | rfl
      · have hne : n ≠ i := by omega
        simp only [List.filterMap_cons, Function.update_of_ne hne]
        exact (ih h).append_right _
      · have hsame : (List.range i).filterMap (Function.update slots i (some e))
            = (List.range i).filterMap slots :=
          entries_congr fun p hp => Function.update_of_ne (by omega) _ _
        simp only [hsame, List.filterMap_cons, Function.update_self, hgap, List.filterMap_nil,
          List.append_nil]
        exact List.perm_append_singleton _ _

/-- Emptying a slot takes its entry away. -/
theorem entries_empty_slot {slots : ℕ → Option E} {i : ℕ} {e : E} (hi : i < N)
    (he : slots i = some e) :
    (entries N slots).Perm (e :: entries N (Function.update slots i none)) := by
  have h := entries_fill e hi (Function.update_self i none slots)
  rwa [Function.update_idem, ← he, Function.update_eq_self] at h

/-- Overwriting a slot swaps one entry for another. -/
theorem entries_swap {slots : ℕ → Option E} {i : ℕ} {e e' : E} (hi : i < N)
    (he : slots i = some e) :
    ∃ rest, (entries N slots).Perm (e :: rest) ∧
      (entries N (Function.update slots i (some e'))).Perm (e' :: rest) := by
  refine ⟨entries N (Function.update slots i none), entries_empty_slot hi he, ?_⟩
  have h := entries_empty_slot hi (Function.update_self i (some e') slots)
  rwa [Function.update_idem] at h

/-- Moving an entry into a hole leaves a hole where it was. -/
theorem entries_move {slots : ℕ → Option E} {i k : ℕ} {e : E} (hi : i < N) (hk : k < N)
    (hne : k ≠ i) (he : slots k = some e) :
    (entries N (Function.update (Function.update slots i (some e)) k none)).Perm
      (entries N (Function.update slots i none)) := by
  have hgone : Function.update (Function.update slots i none) k none i = none := by
    rw [Function.update_of_ne (Ne.symm hne), Function.update_self]
  have hsame : Function.update (Function.update slots i (some e)) k none =
      Function.update (Function.update (Function.update slots i none) k none) i (some e) := by
    rw [Function.update_comm hne, Function.update_idem]
  rw [hsame]
  apply (entries_fill e hi hgone).trans
  apply (entries_empty_slot hk _).symm
  rw [Function.update_of_ne hne, he]

/-- Fewer entries than slots leave a gap. -/
theorem exists_gap {slots : ℕ → Option E} (h : (entries N slots).length < N) :
    ∃ p < N, slots p = none := by
  by_contra hno
  push Not at hno
  have hall : (entries N slots).length = N := by
    rw [entries, List.length_filterMap_eq_countP, List.countP_eq_length.mpr, List.length_range]
    intro p hp
    exact Option.isSome_iff_ne_none.mpr (hno p (List.mem_range.mp hp))
  omega

/-! ## Reachability -/

/-- No gap on the way from `h` to `p`, `p` itself left out. -/
def Clear (N : ℕ) (slots : ℕ → Option E) (h p : ℕ) : Prop :=
  ∀ q < N, ahead N h q < ahead N h p → slots q ≠ none

/-- Every entry is reached from its home without crossing a gap. -/
def Reachable (N : ℕ) (home : E → ℕ) (slots : ℕ → Option E) : Prop :=
  ∀ p < N, ∀ e, slots p = some e → Clear N slots (home e) p

theorem Clear.update {slots : ℕ → Option E} {h p i : ℕ} (e : E) (hc : Clear N slots h p) :
    Clear N (Function.update slots i (some e)) h p := by
  intro q hq hd
  by_cases hqi : q = i
  · simp [hqi]
  · rw [Function.update_of_ne hqi]
    exact hc q hq hd

theorem clear_self (slots : ℕ → Option E) (h : ℕ) : Clear N slots h h := by
  intro q _ hd
  simp at hd

/-- One more occupied slot extends the cleared way. -/
theorem Clear.next {slots : ℕ → Option E} {h i : ℕ} (hh : h < N) (hi : i < N)
    (hc : Clear N slots h i) (hocc : slots i ≠ none) (hn : next N i ≠ h) :
    Clear N slots h (Probing.next N i) := by
  intro q hq hd
  rw [ahead_next hh hn] at hd
  rcases Nat.lt_succ_iff_lt_or_eq.mp hd with h' | h'
  · exact hc q hq h'
  · rw [eq_of_ahead_eq hh hq hi h']
    exact hocc

theorem reachable_empty (home : E → ℕ) : Reachable N home (fun _ => none) := by
  intro p _ e he
  simp at he

variable {home : E → ℕ} {slots : ℕ → Option E}

theorem Reachable.insert {i : ℕ} {e : E} (hr : Reachable N home slots)
    (hc : Clear N slots (home e) i) : Reachable N home (Function.update slots i (some e)) := by
  intro p hp e' he'
  by_cases hpi : p = i
  · subst hpi
    obtain rfl : e = e' := by simpa using he'
    exact hc.update e
  · rw [Function.update_of_ne hpi] at he'
    exact (hr p hp e' he').update e

theorem Reachable.replace {i : ℕ} {e e' : E} (hr : Reachable N home slots) (hi : i < N)
    (he : slots i = some e) (hhome : home e' = home e) :
    Reachable N home (Function.update slots i (some e')) := by
  apply hr.insert
  rw [hhome]
  exact hr i hi e he

/-! ## Closing a hole by shifting back -/

/-- `i` is the hole (its old entry is still in place) and the slots up to `j` have been
looked at: whoever is still reached through the hole lies beyond `j`. -/
structure Shift (N : ℕ) (home : E → ℕ) (slots : ℕ → Option E) (i j : ℕ) : Prop where
  hole : slots i ≠ none
  hole_lt : i < N
  scan_lt : j < N
  clear : ∀ p < N, p ≠ i → ∀ e, slots p = some e → Clear N slots (home e) p
  beyond : ∀ p < N, p ≠ i → ∀ e, slots p = some e →
    ahead N (home e) i < ahead N (home e) p → ahead N i j < ahead N i p

theorem Reachable.shift {i : ℕ} {e : E} (hi : i < N) (hr : Reachable N home slots)
    (he : slots i = some e) : Shift N home slots i i where
  hole := by simp [he]
  hole_lt := hi
  scan_lt := hi
  clear p hp _ e' he' := hr p hp e' he'
  beyond p hp hne _ _ _ := by
    rw [ahead_self]
    exact ahead_pos hi (Ne.symm hne)

/-- An entry whose way passes the hole fills it, and leaves its own slot as the hole. -/
theorem Shift.move {i j k : ℕ} {e : E} (hs : Shift N home slots i j) (hk : k < N)
    (hne : k ≠ i) (he : slots k = some e)
    (hpass : ahead N i k ≤ ahead N (home e) k) :
    Shift N home (Function.update slots i (some e)) k k where
  hole := by
    rw [Function.update_of_ne hne]
    simp [he]
  hole_lt := hk
  scan_lt := hk
  clear p hp _ e' he' := by
    by_cases hpi : p = i
    · subst hpi
      obtain rfl : e = e' := by simpa using he'
      have hway : ahead N (home e) p ≤ ahead N (home e) k := by
        unfold ahead at hpass ⊢
        split at hpass <;> split at hpass <;> split_ifs <;> omega
      intro q hq hd
      exact (hs.clear k hk hne e he).update e q hq (lt_of_lt_of_le hd hway)
    · rw [Function.update_of_ne hpi] at he'
      exact (hs.clear p hp hpi e' he').update e
  beyond p hp hpk _ _ _ := by
    rw [ahead_self]
    exact ahead_pos hk (Ne.symm hpk)

/-- An entry whose way does not pass the hole stays. -/
theorem Shift.stay {i j : ℕ} {e : E} (hs : Shift N home slots i j) (hne : next N j ≠ i)
    (hhome : home e < N) (he : slots (next N j) = some e)
    (hpass : ahead N (home e) (next N j) < ahead N i (next N j)) :
    Shift N home slots i (next N j) where
  hole := hs.hole
  hole_lt := hs.hole_lt
  scan_lt := next_lt hs.scan_lt
  clear := hs.clear
  beyond p hp hpi e' he' hway := by
    have hi := hs.hole_lt
    have hj := next_lt hs.scan_lt
    have hlt := hs.beyond p hp hpi e' he' hway
    rw [ahead_next hs.hole_lt hne]
    refine lt_of_le_of_ne hlt fun heq => ?_
    -- then `p` is the slot just looked at, whose way does pass the hole
    rw [← ahead_next hs.hole_lt hne] at heq
    obtain rfl := eq_of_ahead_eq hs.hole_lt hj hp heq
    obtain rfl : e = e' := by simpa [he] using he'
    unfold ahead at hpass hway
    split at hpass <;> split at hpass <;> split_ifs at hway <;> omega

/-- A gap after the slots looked at ends the shift: nothing is reached through the hole. -/
theorem Shift.close {i j : ℕ} (hs : Shift N home slots i j)
    (hhome : ∀ e, home e < N) (hgap : slots (next N j) = none) :
    Reachable N home (Function.update slots i none) := by
  have hne : next N j ≠ i := fun h => hs.hole (h ▸ hgap)
  have hj := next_lt hs.scan_lt
  intro p hp e he q hq hd
  have hpi : p ≠ i := by
    rintro rfl
    simp at he
  rw [Function.update_of_ne hpi] at he
  have hclear := hs.clear p hp hpi e he
  by_cases hqi : q = i
  · subst hqi
    exfalso
    have hlt := hs.beyond p hp hpi e he hd
    have hpn : p ≠ next N j := by
      rintro rfl
      simp [he] at hgap
    -- the gap lies strictly between the hole and `p`, so on the way to `p`
    apply hclear (next N j) hj _ hgap
    have hle : ahead N q (next N j) ≤ ahead N q p := by
      rw [ahead_next hs.hole_lt hne]
      exact hlt
    have hh := hhome e
    unfold ahead at hle hd ⊢
    split_ifs at hle hd ⊢ <;> omega
  · rw [Function.update_of_ne hqi]
    exact hclear q hq hd

end Probing
