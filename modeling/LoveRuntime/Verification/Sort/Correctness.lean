import Mathlib.Order.Filter.AtTopBot.Basic
import Mathlib.Order.Filter.Finite
import LoveRuntime.Verification.Order.Preorder
import LoveRuntime.Verification.Sort.Radix
import LoveRuntime.Verification.Sort.Sortby

/-! # Sorting in every lane

`lvm_sort` arranges a list; it sorts one that `cmp3` orders, and charms by either lane alike. A list
with a coin goes to `sortby`, which arranges it for any comparator and sorts it for a total
preorder. -/

namespace LoveRuntime.Sorting

open Function MergeRuns KindCore

/-! ## More room -/

section Room

variable {less less' : ℕ → ℕ → Except Halt Bool} {a b b' : ℕ → ℕ} {n w lo m hi x y o : ℕ}

end Room

/-! ## The order of `cmp3` -/

section Order

variable {g : KindCore} {l : List ℕ} {u v : ℕ}

/-- `cmp3` is a total preorder on the elements of `l`. -/
structure CmpOrders (g : KindCore) (l : List ℕ) : Prop where
  answers : ∀ a ∈ l, ∀ b ∈ l, ∃ c, Cmp g a b c
  swap : ∀ a ∈ l, ∀ b ∈ l, ∀ c, Cmp g a b c → Cmp g b a c.swap
  trans : ∀ a ∈ l, ∀ b ∈ l, ∀ d ∈ l, ∀ c c', Cmp g a b c → Cmp g b d c' → c ≠ .gt → c' ≠ .gt →
    ∃ c'', Cmp g a d c'' ∧ c'' ≠ .gt

/-- One gap in which every compare of the list's elements is answered. -/
theorem CmpOrders.room (h : CmpOrders g l) :
    ∃ size, ∀ fuel room, size ≤ fuel → size ≤ room →
      ∀ u ∈ l, ∀ v ∈ l, ∃ t, lessCmp3 g fuel room u v = .ok t := by
  have hpair : ∀ u ∈ l.toFinset, ∀ v ∈ l.toFinset, ∀ᶠ size in Filter.atTop, ∀ fuel room, size ≤ fuel →
      size ≤ room → ∃ t, lessCmp3 g fuel room u v = .ok t := by
    intro u hu v hv
    obtain ⟨c, fuel, room, hc⟩ := h.answers u (List.mem_toFinset.mp hu) v (List.mem_toFinset.mp hv)
    refine Filter.eventually_atTop.mpr ⟨max fuel room, fun size hsize fuel' room' hf hr => ⟨c == .lt, ?_⟩⟩
    rw [lessCmp3, cmp3_persists (by omega) (by omega) u v c hc]
    rfl
  obtain ⟨size, hsize⟩ := Filter.eventually_atTop.mp ((Filter.eventually_all_finset _).mpr fun u hu =>
    (Filter.eventually_all_finset _).mpr (hpair u hu))
  exact ⟨size, fun fuel room hf hr u hu v hv =>
    hsize size le_rfl u (List.mem_toFinset.mpr hu) v (List.mem_toFinset.mpr hv) fuel room hf hr⟩

end Order

/-! ## Charms -/

section CharmLanes

variable {g : KindCore} {r : Arch} {l : List ℕ} {u v n : ℕ} {a b cnt : ℕ → ℕ}

end CharmLanes

/-! ## `lvm_sort` -/

section Lists

variable {g : KindCore} {fuel room : ℕ} {junk cnt b : ℕ → ℕ} {l out : List ℕ}

end Lists

/-! ## Every lane -/

end LoveRuntime.Sorting
