import LoveRuntime.Model.Diff

/-! # Myers

Round by round the forward pass holds the furthest points of as many edits, so it ends at the edit
distance, and the way back retraces a path of that many edits inside both lists. -/

namespace LoveRuntime.Diff

open EditGraph

variable {α : Type} {a b : List α} {d : ℕ} {k x y z : ℤ}

/-! ## Tablets -/

theorem pin_apply {κ ν : Type} [DecidableEq κ] (t : κ → Option ν) (k i : κ) (v : ν) :
    pin t k v i = if i = k then some v else t i := rfl

theorem dindexGo_apply (i : ℤ) (l : List α) (t : ℤ → Option α) (k : ℤ) :
    dindexGo i l t k = if i ≤ k ∧ k < i + l.length then l[(k - i).toNat]? else t k := by
  induction l generalizing i t with
  | nil =>
      rw [if_neg (by simp)]
      rfl
  | cons e m ih =>
      rw [dindexGo, ih, pin_apply]
      simp only [List.length_cons]
      by_cases hk : k = i
      · rw [if_neg (by omega), if_pos hk, if_pos (by omega), hk]
        simp
      · by_cases hin : i + 1 ≤ k ∧ k < i + 1 + m.length
        · rw [if_pos hin, if_pos (by omega), show (k - i).toNat = (k - (i + 1)).toNat + 1 by omega]
          simp
        · rw [if_neg hin, if_neg hk, if_neg (by omega)]

theorem dindex_of_lt {l : List α} (h0 : 0 ≤ k) (h : k < l.length) :
    ∃ (i : ℕ) (u : α), k = i ∧ l[i]? = some u ∧ dindex l k = some u := by
  have hi : k.toNat < l.length := by omega
  refine ⟨k.toNat, l[k.toNat], by omega, List.getElem?_eq_getElem hi, ?_⟩
  rw [dindex, dindexGo_apply, if_pos (by omega), Int.sub_zero, List.getElem?_eq_getElem hi]

section Forward

variable [Setoid α]

theorem matches_iff {i j : ℕ} {u v : α} (hu : a[i]? = some u) (hv : b[j]? = some v) :
    Matches a b i j ↔ u ≈ v := by
  constructor
  · rintro ⟨i', j', u', v', hi, hj, hu', hv', h⟩
    obtain rfl : i = i' := by omega
    obtain rfl : j = j' := by omega
    rw [hu] at hu'
    rw [hv] at hv'
    cases hu'
    cases hv'
    exact h
  · exact fun h => ⟨i, j, u, v, rfl, rfl, hu, hv, h⟩

variable [DecidableRel (α := α) (· ≈ ·)]

/-- A snake reads inside the lists and ends where it must. -/
theorem dsnake_spec (hx : 0 ≤ x) (hy : 0 ≤ x - k) :
    ∃ z, dsnake (dindex a) (dindex b) a.length b.length x (x - k) = some (z, z - k) ∧
      Stops (Matches a b) k x z := by
  induction hn : ((a.length : ℤ) - x).toNat generalizing x with
  | zero =>
      rw [dsnake, dif_neg (by omega)]
      refine ⟨x, rfl, ⟨le_rfl, by omega⟩, fun h => ?_⟩
      have := h.bounds
      omega
  | succ n ih =>
      rw [dsnake]
      by_cases h : x < a.length ∧ x - k < b.length
      case neg =>
          rw [dif_neg h]
          exact ⟨x, rfl, ⟨le_rfl, by omega⟩, fun hm => h hm.bounds⟩
      case pos =>
          rw [dif_pos h]
          obtain ⟨i, u, hi, hu, hau⟩ := dindex_of_lt hx h.1
          obtain ⟨j, v, hj, hv, hbv⟩ := dindex_of_lt hy h.2
          have hmatch : Matches a b x (x - k) ↔ u ≈ v := by rw [hj, hi, matches_iff hu hv]
          simp only [hau, hbv, Option.bind_eq_bind, Option.bind_some]
          by_cases huv : u ≈ v
          · rw [if_pos huv]
            obtain ⟨z, hz, ⟨hle, hs⟩, hstop⟩ := ih (x := x + 1) (by omega) (by omega) (by omega)
            refine ⟨z, ?_, ⟨by omega, fun i' hi' hlt => ?_⟩, hstop⟩
            · rw [← hz, show x - k + 1 = x + 1 - k by omega]
            · by_cases heq : i' = x
              · rw [heq]
                exact hmatch.mpr huv
              · exact hs i' (by omega) hlt
          · rw [if_neg huv]
            exact ⟨x, rfl, ⟨le_rfl, by omega⟩, fun hm => huv (hmatch.mp hm)⟩

end Forward

/-! ## The forward pass -/

section Rounds

variable [Setoid α]

/-- The diagonals of a round. -/
def Inside (d : ℕ) (k : ℤ) : Prop := -d ≤ k ∧ k ≤ d ∧ 2 ∣ k - d

/-- A row holds the furthest points of `d` edits. -/
def RowOk (a b : List α) (d : ℕ) (vp : Row) : Prop :=
  ∀ k, Inside d k → ∃ x, vp k = some x ∧ Furthest (Matches a b) d k x

/-- Round `d` opens each diagonal where its furthest point is the end of a snake. -/
def OpensOk (a b : List α) (d : ℕ) (vp : Row) : Prop :=
  ∀ k, Inside d k → 0 ≤ opens vp d k ∧ 0 ≤ opens vp d k - k ∧
    ∀ z, Stops (Matches a b) k (opens vp d k) z → Furthest (Matches a b) d k z

/-- No point that `d` edits lead to is past the corner. -/
def Short (a b : List α) (d : ℕ) : Prop :=
  ∀ x y, Reach (Matches a b) d x y → (a.length : ℤ) ≤ x → (b.length : ℤ) ≤ y → False

theorem furthest_inside (h : Furthest (Matches a b) d k x) :
    Inside d k ∧ 0 ≤ x ∧ 0 ≤ x - k := by
  have := Reach.bounds h.1
  simp only [Inside]
  omega

theorem peep_of_some {vp : Row} (h : vp k = some x) (v : ℤ) : peep vp k v = x := by
  rw [peep, h, Option.getD_some]

/-- The way onto a diagonal: down from the furthest point of the next one, or right from that of the
one before, whichever leads further. -/
theorem opens_spec {vp : Row} (hvp : RowOk a b d vp) (hk : Inside (d + 1) k) :
    (if ddown vp (d + 1) k
      then ∃ p, vp (k + 1) = some p ∧ Furthest (Matches a b) d (k + 1) p ∧ opens vp (d + 1) k = p
      else ∃ p, vp (k - 1) = some p ∧ Furthest (Matches a b) d (k - 1) p ∧
        opens vp (d + 1) k = p + 1) ∧
    (∀ x, Reach (Matches a b) d x (x - (k - 1)) → x + 1 ≤ opens vp (d + 1) k) ∧
    ∀ x, Reach (Matches a b) d x (x - (k + 1)) → x ≤ opens vp (d + 1) k := by
  obtain ⟨hlo, hhi, hpar⟩ := hk
  push_cast at hlo hhi hpar
  have hout {x c : ℤ} (h : Reach (Matches a b) d x (x - c)) : -d ≤ c ∧ c ≤ d := by
    have := h.bounds
    omega
  by_cases hleft : k = 0 - (d + 1 : ℤ)
  case pos =>
      have hdn : ddown vp (d + 1) k = true := by simp [ddown, hleft]
      obtain ⟨p, hp, hf⟩ := hvp (k + 1) ⟨by omega, by omega, by omega⟩
      have ho : opens vp (d + 1) k = p := by rw [opens, if_pos hdn, peep_of_some hp]
      rw [if_pos hdn, ho]
      refine ⟨⟨p, hp, hf, rfl⟩, fun x hx => ?_, fun x hx => hf.2 hx⟩
      have := hout hx
      omega
  by_cases hright : k = (d + 1 : ℤ)
  case pos =>
      have hdn : ddown vp (d + 1) k = false := by simp [ddown, hright]; omega
      obtain ⟨p, hp, hf⟩ := hvp (k - 1) ⟨by omega, by omega, by omega⟩
      have ho : opens vp (d + 1) k = p + 1 := by
        rw [opens, if_neg (by simp [hdn]), peep_of_some hp, Int.add_comm]
      rw [if_neg (by simp [hdn]), ho]
      refine ⟨⟨p, hp, hf, rfl⟩, fun x hx => ?_, fun x hx => ?_⟩
      · have := hf.2 hx
        omega
      · have := hout hx
        omega
  obtain ⟨p, hp, hf⟩ := hvp (k - 1) ⟨by omega, by omega, by omega⟩
  obtain ⟨q, hq, hg⟩ := hvp (k + 1) ⟨by omega, by omega, by omega⟩
  have hdn : ddown vp (d + 1) k = decide (p < q) := by
    simp [ddown, hright, peep_of_some hp, peep_of_some hq]
    omega
  by_cases hpq : p < q
  case pos =>
      have ho : opens vp (d + 1) k = q := by rw [opens, if_pos (by simp [hdn, hpq]), peep_of_some hq]
      rw [if_pos (by simp [hdn, hpq]), ho]
      refine ⟨⟨q, hq, hg, rfl⟩, fun x hx => ?_, fun x hx => hg.2 hx⟩
      have : x ≤ p := hf.2 hx
      omega
  case neg =>
      have ho : opens vp (d + 1) k = p + 1 := by
        rw [opens, if_neg (by simp [hdn, hpq]), peep_of_some hp, Int.add_comm]
      rw [if_neg (by simp [hdn, hpq]), ho]
      refine ⟨⟨p, hp, hf, rfl⟩, fun x hx => ?_, fun x hx => ?_⟩
      · have : x ≤ p := hf.2 hx
        omega
      · have : x ≤ q := hg.2 hx
        omega

theorem opensOk_zero : OpensOk a b 0 (pin (fun _ => none) 1 0) := by
  intro k hk
  obtain rfl : k = 0 := by
    simp only [Inside] at hk
    omega
  have ho : opens (pin (fun _ => none) 1 0) (0 : ℕ) 0 = 0 := by simp [opens, ddown, peep, pin]
  rw [ho]
  exact ⟨le_rfl, le_rfl, fun z hz => furthest_zero hz⟩

theorem opensOk_succ {vp : Row} (hvp : RowOk a b d vp) : OpensOk a b (d + 1) vp := by
  intro k hk
  obtain ⟨hway, hright, hdown⟩ := opens_spec hvp hk
  have hreach : Reach (Matches a b) (d + 1) (opens vp (d + 1) k) (opens vp (d + 1) k - k) := by
    split at hway
    case isTrue =>
        obtain ⟨p, -, hf, ho⟩ := hway
        have : Reach (Matches a b) d p (p - (k + 1)) := hf.1
        rw [ho, show p - k = p - (k + 1) + 1 by omega]
        exact this.down
    case isFalse =>
        obtain ⟨p, -, hf, ho⟩ := hway
        have : Reach (Matches a b) d p (p - (k - 1)) := hf.1
        rw [ho, show p + 1 - k = p - (k - 1) by omega]
        exact this.right
  have hb := hreach.bounds
  push_cast
  exact ⟨hb.1, hb.2.1, fun z hz => furthest_succ hreach hz hright hdown⟩

variable [DecidableRel (α := α) (· ≈ ·)]

/-- A round fills its row with the furthest points, unless one of them is past the corner. -/
theorem gok_spec {vp : Row} (vd : Row) (hvp : OpensOk a b d vp) (hk : -d ≤ k) (hpar : 2 ∣ k - d)
    (hdone : ∀ i < k, Inside d i → ∃ x, vd i = some x ∧ Furthest (Matches a b) d i x ∧
      ¬((a.length : ℤ) ≤ x ∧ (b.length : ℤ) ≤ x - i)) :
    (∃ vd', gok (dindex a) (dindex b) a.length b.length vp d k vd = some (false, vd') ∧
        RowOk a b d vd' ∧ Short a b d) ∨
      ∃ vd' i x, gok (dindex a) (dindex b) a.length b.length vp d k vd = some (true, vd') ∧
        Furthest (Matches a b) d i x ∧ (a.length : ℤ) ≤ x ∧ (b.length : ℤ) ≤ x - i := by
  induction hn : ((d : ℤ) + 2 - k).toNat using Nat.strong_induction_on generalizing k vd with
  | _ n ih =>
      rw [gok]
      by_cases hend : (d : ℤ) < k
      case pos =>
          rw [dif_pos hend]
          refine .inl ⟨vd, rfl, fun i hi => ?_, fun x y hr hx hy => ?_⟩
          · obtain ⟨x, hx, hf, -⟩ := hdone i (by have := hi.2.1; omega) hi
            exact ⟨x, hx, hf⟩
          · have hb := hr.bounds
            obtain ⟨w, -, hf, hw⟩ := hdone (x - y) (by omega) ⟨by omega, by omega, by omega⟩
            have : x ≤ w := hf.2 (show Reach _ d x (x - (x - y)) by rwa [show x - (x - y) = y by omega])
            omega
      case neg =>
          have hin : Inside d k := ⟨hk, by omega, hpar⟩
          obtain ⟨hx0, hy0, hfar⟩ := hvp k hin
          obtain ⟨z, hz, hstops⟩ := dsnake_spec (a := a) (b := b) hx0 hy0
          have hf := hfar z hstops
          rw [dif_neg hend, hz]
          simp only [Option.bind_eq_bind, Option.bind_some]
          by_cases hpast : (a.length : ℤ) ≤ z ∧ (b.length : ℤ) ≤ z - k
          · rw [if_pos hpast]
            exact .inr ⟨_, k, z, rfl, hf, hpast.1, hpast.2⟩
          · rw [if_neg hpast]
            refine ih _ (by omega) _ (by omega) (by omega) (fun i hi hini => ?_) rfl
            by_cases hik : i = k
            · subst hik
              exact ⟨z, by rw [pin_apply, if_pos rfl], hf, hpast⟩
            · rw [pin_apply, if_neg hik]
              have hpi := hini.2.2
              exact hdone i (by omega) hini

/-- The forward pass ends at the edit distance, with the rows of the rounds before. -/
theorem dfwd_spec {fuel : ℕ} {vp : Row} (tr : ℕ → Option Row) (hvp : OpensOk a b d vp)
    (hfuel : a.length + b.length < d + fuel) (htr : ∀ e < d, ∃ row, tr e = some row ∧ RowOk a b e row)
    (hshort : ∀ e < d, Short a b e) :
    ∃ D tr', dfwd (dindex a) (dindex b) a.length b.length fuel vp d tr = some (D, tr') ∧
      Furthest (Matches a b) D (a.length - b.length) a.length ∧
      (∀ e < D, ∃ row, tr' e = some row ∧ RowOk a b e row) ∧ ∀ e < D, Short a b e := by
  induction fuel generalizing d vp tr with
  | zero => exact absurd le_rfl (hshort _ hfuel _ _ (Reach.all a.length b.length) le_rfl)
  | succ fuel ih =>
      rw [dfwd]
      have htr' (row : Row) (e : ℕ) (he : e < d) : pin tr d row e = tr e := by
        rw [pin_apply, if_neg (by omega)]
      rcases gok_spec (k := 0 - (d : ℤ)) (fun _ => none) hvp (by omega) (by omega)
        (fun i hi hin => absurd hin.1 (by omega)) with ⟨row, hgok, hrow, hs⟩ | ⟨row, i, x, hgok, hf, hx, hy⟩
      case inl =>
          simp only [hgok, Option.bind_eq_bind, Option.bind_some]
          refine ih _ (opensOk_succ hrow) (by omega) (fun e he => ?_) fun e he => ?_
          · by_cases hed : e = d
            · exact ⟨row, by rw [hed, pin_apply, if_pos rfl], hed ▸ hrow⟩
            · rw [htr' row e (by omega)]
              exact htr e (by omega)
          · by_cases hed : e = d
            · exact hed ▸ hs
            · exact hshort e (by omega)
      case inr =>
          simp only [hgok, Option.bind_eq_bind, Option.bind_some]
          have hr : Reach (Matches a b) d x (x - i) := hf.1
          obtain ⟨hxa, hyb⟩ := hr.corner (fun _ _ h => h.bounds) (by omega) (by omega) hx hy hshort
          refine ⟨d, _, rfl, ?_, fun e he => ?_, hshort⟩
          · rwa [show (a.length : ℤ) - b.length = i by omega, ← hxa]
          · rw [htr' row e he]
            exact htr e he

end Rounds

/-! ## The way back -/

section Back

/-- What a snake keeps. -/
def keepsOf (a : List α) (z x : ℤ) : Script α := ((a.take x.toNat).drop z.toNat).map fun e => (.keep, e)

theorem keepsOf_self (a : List α) (x : ℤ) : keepsOf a x x = [] := by
  rw [keepsOf, List.drop_of_length_le (by simp), List.map_nil]

theorem keepsOf_succ {u : α} (hzx : z ≤ x) {i : ℕ} (hi : x = i) (hu : a[i]? = some u) :
    keepsOf a z (x + 1) = keepsOf a z x ++ [(.keep, u)] := by
  have hlt := (List.getElem?_eq_some_iff.mp hu).1
  have htake : a.take (i + 1) = a.take i ++ [u] := by rw [List.take_add_one, hu, Option.toList_some]
  rw [keepsOf, keepsOf, hi, show ((i : ℤ) + 1).toNat = i + 1 by omega, Int.toNat_natCast, htake,
    List.drop_append_of_le_length (by simp; omega), List.map_append]
  rfl

theorem edits_keepsOf (a : List α) (z x : ℤ) : edits (keepsOf a z x) = 0 := by
  rw [keepsOf]
  induction (a.take x.toNat).drop z.toNat with
  | nil => rfl
  | cons e l ih => exact ih

theorem dkeeps_spec (h0 : 0 ≤ x) (hx : x ≤ a.length) (acc : Script α) :
    dkeeps (dindex a) x acc = some (keepsOf a 0 x ++ acc) := by
  induction x, h0 using Int.leInduction generalizing acc with
  | base =>
      rw [dkeeps, dif_neg (by omega), keepsOf_self]
      rfl
  | succ x h0 ih =>
      obtain ⟨i, u, hi, hu, hau⟩ := dindex_of_lt (l := a) h0 (by omega)
      rw [dkeeps, dif_pos (by omega), show x + 1 - 1 = x by omega, hau,
        keepsOf_succ h0 hi hu, List.append_assoc]
      exact ih (by omega) _

theorem dsnakeb_spec {px py : ℤ} (hz0 : 0 ≤ z) (hp : px ≤ z) (hq : py ≤ z - k) (hend : px = z ∨ py = z - k)
    (hzx : z ≤ x) (hx : x ≤ a.length) (acc : Script α) :
    dsnakeb (dindex a) x (x - k) px py acc = some (z, z - k, keepsOf a z x ++ acc) := by
  induction x, hzx using Int.leInduction generalizing acc with
  | base =>
      rw [dsnakeb, dif_neg (by omega), keepsOf_self]
      rfl
  | succ x hzx ih =>
      obtain ⟨i, u, hi, hu, hau⟩ := dindex_of_lt (l := a) (by omega : 0 ≤ x) (by omega)
      rw [dsnakeb, dif_pos (by omega), show x + 1 - 1 = x by omega, hau,
        keepsOf_succ hzx hi hu, List.append_assoc, show x + 1 - k - 1 = x - k by omega]
      exact ih (by omega) _

theorem take_succ_of_some {i : ℕ} {u : α} (h : a[i]? = some u) (hx : x = i) :
    a.take (x + 1).toNat = a.take x.toNat ++ [u] := by
  rw [hx, show ((i : ℤ) + 1).toNat = i + 1 by omega, Int.toNat_natCast, List.take_add_one, h,
    Option.toList_some]

variable [Setoid α]

/-- A snake's keeps go on with both lists. -/
theorem spells_snake {s : Script α} (h : Snake (Matches a b) k z x)
    (hs : Spells (a.take z.toNat) (b.take (z - k).toNat) s) :
    Spells (a.take x.toNat) (b.take (x - k).toNat) (s ++ keepsOf a z x) := by
  obtain ⟨hzx, hm⟩ := h
  induction x, hzx using Int.leInduction with
  | base => rwa [keepsOf_self, List.append_nil]
  | succ x hzx ih =>
      obtain ⟨i, j, u, v, hi, hj, hu, hv, huv⟩ := hm x hzx (by omega)
      have hone : Spells [u] [v] [(Op.keep, u)] := ⟨rfl, .cons huv .nil⟩
      rw [keepsOf_succ hzx hi hu, ← List.append_assoc, take_succ_of_some hu hi,
        show x + 1 - k = x - k + 1 by omega, take_succ_of_some hv hj]
      exact (ih fun i hi hlt => hm i hi (by omega)).append hone

variable [DecidableRel (α := α) (· ≈ ·)]

/-- From the furthest point of a round back to the origin, a script of as many edits. -/
theorem dback_spec {tr : ℕ → Option Row} {dd : ℕ} (hf : Furthest (Matches a b) dd (x - y) x)
    (hx : x ≤ a.length) (hy : y ≤ b.length) (htr : ∀ e < dd, ∃ row, tr e = some row ∧ RowOk a b e row)
    (acc : Script α) : ∃ s, dback (dindex a) (dindex b) tr dd x y acc = some (s ++ acc) ∧
      Spells (a.take x.toNat) (b.take y.toNat) s ∧ edits s = dd := by
  induction dd generalizing x y acc with
  | zero =>
      obtain ⟨hin, hx0, -⟩ := furthest_inside hf
      obtain rfl : x = y := by
        simp only [Inside] at hin
        omega
      obtain ⟨z, -, hstops⟩ := dsnake_spec (a := a) (b := b) (x := 0) (k := 0) le_rfl le_rfl
      have hzx : x = z := Furthest.unique (Int.sub_self x ▸ hf) (furthest_zero hstops)
      refine ⟨keepsOf a 0 x, by rw [dback, dkeeps_spec hx0 hx], ?_, edits_keepsOf a 0 x⟩
      have := spells_snake (s := []) (hzx ▸ hstops.1) ⟨by simp, by simp⟩
      rwa [Int.sub_zero, List.nil_append] at this
  | succ dd ih =>
      obtain ⟨hin, hx0, hy0⟩ := furthest_inside hf
      obtain ⟨row, hrow, hok⟩ := htr dd (by omega)
      generalize hk : x - y = k at *
      obtain rfl : y = x - k := by omega
      -- the round opened this diagonal, and its snake ends here
      obtain ⟨ho0, hoy, hfar⟩ := opensOk_succ hok k hin
      push_cast at ho0 hoy hfar
      obtain ⟨z, -, hstops⟩ := dsnake_spec (a := a) (b := b) ho0 hoy
      obtain rfl : x = z := Furthest.unique hf (hfar z hstops)
      have hsnake := hstops.1
      obtain ⟨hway, -, -⟩ := opens_spec hok hin
      rw [dback, hrow]
      simp only [Option.bind_eq_bind, Option.bind_some, hk]
      split at hway
      case isTrue hdn =>
          obtain ⟨p, hp, hfp, ho⟩ := hway
          rw [ho] at ho0 hoy hsnake
          obtain ⟨-, hp0, hpy⟩ := furthest_inside hfp
          simp only [hdn, if_true, peep_of_some hp]
          rw [dsnakeb_spec (z := p) ho0 le_rfl (by omega) (.inl rfl) hsnake.1 hx]
          obtain ⟨j, v, hj, hv, hbv⟩ := dindex_of_lt (l := b) hpy (by have := hsnake.1; omega)
          simp only [Option.bind_some, hbv]
          obtain ⟨s, hs, hsp, hed⟩ := ih (x := p) (y := p - (k + 1))
            (by rwa [show p - (p - (k + 1)) = k + 1 by omega]) (hsnake.1.trans hx)
            (by have := hsnake.1; omega) (fun e he => htr e (by omega))
            ((.add, v) :: (keepsOf a p x ++ acc))
          have hone : Spells [] [v] [(Op.add, v)] := ⟨rfl, .cons (Setoid.refl v) .nil⟩
          have hadd := hsp.append hone
          rw [List.append_nil, ← take_succ_of_some hv hj, show p - (k + 1) + 1 = p - k by omega] at hadd
          exact ⟨s ++ [(.add, v)] ++ keepsOf a p x, by rw [hs]; simp, spells_snake hsnake hadd,
            by simp [edits_keepsOf, hed]⟩
      case isFalse hdn =>
          obtain ⟨p, hp, hfp, ho⟩ := hway
          rw [ho] at ho0 hoy hsnake
          obtain ⟨-, hp0, hpy⟩ := furthest_inside hfp
          simp only [hdn, Bool.false_eq_true, if_false, peep_of_some hp]
          rw [dsnakeb_spec (z := p + 1) ho0 (by omega) (by omega) (.inr (by omega)) hsnake.1 hx]
          obtain ⟨i, u, hi, hu, hau⟩ := dindex_of_lt (l := a) hp0 (by have := hsnake.1; omega)
          simp only [Option.bind_some, hau]
          obtain ⟨s, hs, hsp, hed⟩ := ih (x := p) (y := p - (k - 1))
            (by rwa [show p - (p - (k - 1)) = k - 1 by omega]) (by have := hsnake.1; omega)
            (by have := hsnake.1; omega) (fun e he => htr e (by omega))
            ((.del, u) :: (keepsOf a (p + 1) x ++ acc))
          have hone : Spells [u] [] [(Op.del, u)] := ⟨rfl, .nil⟩
          have hdel := hsp.append hone
          rw [List.append_nil, ← take_succ_of_some hu hi, show p - (k - 1) = p + 1 - k by omega] at hdel
          exact ⟨s ++ [(.del, u)] ++ keepsOf a (p + 1) x, by rw [hs]; simp, spells_snake hsnake hdel,
            by simp [edits_keepsOf, hed]⟩

/-- More rounds than enough are not looked at. -/
theorem dfwd_mono {ax bx : ℤ → Option α} {n m : ℤ} {fuel fuel' : ℕ} {vp : Row} {d : ℕ}
    {tr : ℕ → Option Row} {r : ℕ × (ℕ → Option Row)} (h : dfwd ax bx n m fuel vp d tr = some r)
    (hle : fuel ≤ fuel') : dfwd ax bx n m fuel' vp d tr = some r := by
  induction fuel generalizing fuel' vp d tr with
  | zero => cases h
  | succ fuel ih =>
      obtain ⟨fuel', rfl⟩ : ∃ f, fuel' = f + 1 := ⟨fuel' - 1, by omega⟩
      rw [dfwd] at h ⊢
      cases hg : gok ax bx n m vp d (0 - d) fun _ => none with
      | none =>
          rw [hg] at h
          cases h
      | some g =>
          obtain ⟨_ | _, vd⟩ := g
          · rw [hg] at h
            exact ih h (by omega)
          · rw [hg] at h
            exact h

/-- `myers` answers, however many rounds it may take past enough, a script of fewest edits. -/
theorem myers_spec (a b : List α) : ∃ s, (∀ fuel, a.length + b.length < fuel → myers fuel a b = some s) ∧
    Spells a b s ∧ ∀ d, Reach (Matches a b) d a.length b.length → edits s ≤ d := by
  obtain ⟨D, tr, hfwd, hf, htr, hshort⟩ := dfwd_spec (fun _ => none) opensOk_zero
    (by omega : a.length + b.length < 0 + (a.length + b.length + 1)) (by omega) (by omega)
  obtain ⟨s, hs, hsp, hed⟩ := dback_spec hf le_rfl le_rfl htr []
  refine ⟨s, fun fuel hfuel => ?_, by simpa using hsp, fun d hd => ?_⟩
  · rw [List.append_nil] at hs
    simp only [myers, dfwd_mono hfwd hfuel, Option.bind_eq_bind, Option.bind_some]
    exact hs
  · by_contra hlt
    exact hshort d (by omega) _ _ hd le_rfl le_rfl

end Back

end LoveRuntime.Diff
