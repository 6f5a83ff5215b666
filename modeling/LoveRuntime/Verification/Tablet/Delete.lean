import LoveRuntime.Verification.Tablet.Probe

/-! # Insertion and growth -/

namespace LoveRuntime

open Probing

variable {K V : Type} {w : Walks K} {t : Tablet K V}

namespace Tablet

theorem write_entries {i : ℕ} {k sk : K} {v sv : V} (hi : i < t.cap)
    (hs : t.slots i = some (sk, sv)) :
    ∃ rest, t.entries.Perm ((sk, sv) :: rest) ∧
      (t.write i k v).entries.Perm ((k, v) :: rest) :=
  Probing.entries_swap hi hs

theorem occupy_entries {i : ℕ} {k : K} {v : V} (hi : i < t.cap) (hs : t.slots i = none) :
    (t.occupy i k v).entries.Perm ((k, v) :: t.entries) :=
  Probing.entries_fill (k, v) hi hs

end Tablet

/-! ## One slot written -/

/-- A value over the old one, under the key already there. -/
theorem TabletInv.overwrite (hw : w.Lawful) (inv : TabletInv w t) {i : ℕ} {k sk : K}
    {v sv : V} (hi : i < t.cap) (hs : t.slots i = some (sk, sv)) (hk : w.eql k sk = true) :
    TabletInv w (t.write i sk v) ∧
      ∀ x, lookIn w (t.write i sk v).entries x =
        if w.eql x k then some v else lookIn w t.entries x := by
  obtain ⟨rest, hold, hnew⟩ := Tablet.write_entries (k := sk) (v := v) hi hs
  have hd : Distinct w ((sk, sv) :: rest) := inv.distinct.perm hw hold
  have hd' : Distinct w ((sk, v) :: rest) :=
    List.pairwise_cons.mpr ⟨(List.pairwise_cons.mp hd).1, (List.pairwise_cons.mp hd).2⟩
  refine ⟨⟨inv.power, ?_, inv.load, hd'.perm hw hnew.symm, ?_⟩, fun x => ?_⟩
  · rw [hnew.length_eq]
    exact inv.len_eq.trans hold.length_eq
  · exact inv.reach.replace hi hs rfl
  · rw [lookIn_perm hw hnew (hd'.perm hw hnew.symm) x, lookIn_cons,
      lookIn_perm hw hold inv.distinct x, lookIn_cons, hw.eql_congr hk x]
    split <;> simp_all

/-- A new key into the gap that ends its way. -/
theorem TabletInv.occupy (hw : w.Lawful) (inv : TabletInv w t) {i : ℕ} {k : K} {v : V}
    (hi : i < t.cap) (hs : t.slots i = none)
    (hclear : Clear t.cap t.slots (t.ideal w k) i)
    (habsent : ∀ e ∈ t.entries, w.eql k e.1 = false)
    (hload : (t.len + 1) * 4 < t.cap * 3) :
    TabletInv w (t.occupy i k v) := by
  have hnew := Tablet.occupy_entries (k := k) (v := v) hi hs
  refine ⟨inv.power, ?_, hload, ?_, inv.reach.insert hclear⟩
  · rw [hnew.length_eq, List.length_cons, ← inv.len_eq]
    rfl
  · exact Distinct.perm hw hnew.symm (List.pairwise_cons.mpr ⟨habsent, inv.distinct⟩)

/-! ## Growth -/

theorem toGap_clear (hpow : ∃ e, t.cap = 2 ^ e) {h g : ℕ} (hh : h < t.cap) (hg : g < t.cap)
    (hgap : t.slots g = none) {fuel i : ℕ} (hi : i < t.cap)
    (hc : Clear t.cap t.slots h i) (hfuel : ahead t.cap i g < fuel) :
    ∃ p, toGap t fuel i = .ok p ∧ p < t.cap ∧ t.slots p = none ∧
      Clear t.cap t.slots h p := by
  induction fuel generalizing i with
  | zero => omega
  | succ fuel ih =>
      rw [toGap]
      cases hs : t.slots i with
      | none => exact ⟨i, rfl, hi, hs, hc⟩
      | some e =>
          have hocc : t.slots i ≠ none := by simp [hs]
          have hig : i ≠ g := fun h => hocc (h ▸ hgap)
          have hclose := ahead_next_left hi hg hig
          have hn : next t.cap i ≠ h := by
            intro hn
            apply hc g hg _ hgap
            unfold next at hn
            unfold ahead
            split at hn <;> split_ifs <;> omega
          simp only [Option.isNone_some, Bool.false_eq_true, if_false]
          rw [Tablet.after_eq hpow hi]
          exact ih (next_lt hi) (hc.next hh hi hocc hn) (by omega)

/-- The new backing after the first `j` slots of the old one. -/
structure Regrown (w : Walks K) (t nb : Tablet K V) (j : ℕ) : Prop where
  inv : TabletInv w nb
  cap_eq : nb.cap = 2 * t.cap
  content : nb.entries.Perm ((List.range j).filterMap t.slots)

theorem mapFillBack_entries (cap : ℕ) : (mapFillBack cap : Tablet K V).entries = [] :=
  Probing.entries_empty

theorem mapFillBack_inv {cap : ℕ} (h : ∃ e, cap = 2 ^ e) :
    TabletInv w (mapFillBack cap : Tablet K V) := by
  refine ⟨h, ?_, ?_, ?_, Probing.reachable_empty _⟩
  · rw [mapFillBack_entries]
    rfl
  · have hpos : 0 < cap := Tablet.cap_pos (t := (mapFillBack cap : Tablet K V)) h
    change 0 * 4 < cap * 3
    omega
  · rw [mapFillBack_entries]
    exact List.Pairwise.nil

theorem regrown_start (inv : TabletInv w t) :
    Regrown w t (mapFillBack (2 * t.cap)) 0 where
  inv := by
    obtain ⟨e, he⟩ := inv.power
    apply mapFillBack_inv
    exact ⟨e + 1, by rw [he, pow_succ, Nat.mul_comm]⟩
  cap_eq := rfl
  content := by
    rw [mapFillBack_entries]
    simp

theorem Regrown.load (inv : TabletInv w t) {nb : Tablet K V} {j : ℕ} (hj : j ≤ t.cap)
    (h : Regrown w t nb j) : nb.len ≤ t.len := by
  rw [h.inv.len_eq, inv.len_eq, h.content.length_eq]
  apply List.Sublist.length_le
  apply List.Sublist.filterMap
  exact List.range_sublist.mpr hj

theorem reinsert_attempt (hw : w.Lawful) (inv : TabletInv w t) {nb : Tablet K V} {j : ℕ}
    (hj : j < t.cap) (h : Regrown w t nb j) (room : ℕ) :
    Attempt (fun nb' => Regrown w t nb' (j + 1)) (¬ Hashable w t.entries room)
      (reinsert w room t nb j) := by
  have hrange : (List.range (j + 1)).filterMap t.slots =
      (List.range j).filterMap t.slots ++ (t.slots j).toList := by
    rw [List.range_succ, List.filterMap_append, List.filterMap_cons]
    cases t.slots j <;> rfl
  cases hs : t.slots j with
  | none =>
      simp only [reinsert, hs]
      apply Attempt.answer
      refine ⟨h.inv, h.cap_eq, ?_⟩
      rw [hrange, hs]
      simpa using h.content
  | some e =>
      have hmem : e ∈ t.entries := Tablet.mem_entries.mpr ⟨j, hj, hs⟩
      simp only [reinsert, hs, Walks.hashIn]
      split
      · apply Attempt.torn
        intro ha
        have := ha e hmem
        omega
      · obtain ⟨g, hg, hgap⟩ := h.inv.exists_gap
        have hideal := Tablet.ideal_lt h.inv.power w e.1
        obtain ⟨p, hp, hpc, hpgap, hclear⟩ := toGap_clear h.inv.power hideal hg hgap hideal
          (Probing.clear_self _ _) (Probing.ahead_lt hg)
        have hto : toGap nb nb.cap (w.hash e.1 &&& nb.mask) = .ok p := hp
        simp only [hto, bind, Except.bind, pure, Except.pure]
        apply Attempt.answer
        have hcontent : (nb.occupy p e.1 e.2).entries.Perm
            ((List.range (j + 1)).filterMap t.slots) := by
          apply (Tablet.occupy_entries hpc hpgap).trans
          rw [hrange, hs]
          exact (h.content.cons _).trans (List.perm_append_singleton _ _).symm
        have hnew : Distinct w ((List.range (j + 1)).filterMap t.slots) :=
          inv.distinct.sublist ((List.range_sublist.mpr hj).filterMap _)
        have hcons : Distinct w (e :: nb.entries) :=
          (hnew.perm hw hcontent.symm).perm hw (Tablet.occupy_entries hpc hpgap)
        have hle := h.load inv (Nat.le_of_lt hj)
        have hload := inv.load
        have hcap := h.cap_eq
        have hpos := Tablet.cap_pos inv.power
        have hfour : 2 ≤ t.cap ∨ t.len = 0 := by omega
        refine ⟨h.inv.occupy hw hpc hpgap hclear (List.pairwise_cons.mp hcons).1 ?_,
          h.cap_eq, hcontent⟩
        omega

/-- Growing keeps the content, in twice the slots. -/
theorem mapGrow_attempt (hw : w.Lawful) (inv : TabletInv w t) (room : ℕ) :
    Attempt (fun t' => TabletInv w t' ∧ t'.cap = 2 * t.cap ∧ t'.entries.Perm t.entries)
      (¬ Hashable w t.entries room) (mapGrow w (some room) t) := by
  have hloop : ∀ j ≤ t.cap, Attempt (fun nb => Regrown w t nb j) (¬ Hashable w t.entries room)
      ((List.range j).foldlM (reinsert w room t) (mapFillBack (2 * t.cap))) := by
    intro j
    induction j with
    | zero =>
        intro _
        exact .answer (regrown_start inv)
    | succ j ih =>
        intro hj
        rw [List.range_succ, List.foldlM_append]
        apply (ih (by omega)).bind
        intro nb hnb
        simp only [List.foldlM_cons, List.foldlM_nil]
        apply (reinsert_attempt hw inv hj hnb room).bind
        intro nb' hnb'
        exact .answer hnb'
  apply (hloop t.cap le_rfl).mono
  intro nb h
  exact ⟨h.inv, h.cap_eq, h.content⟩

/-! ## The put, attempt after attempt -/

/-- Memory never fails, and some attempt finds room for all of its walks. -/
structure Supplied (w : Walks K) (l : List (K × V)) (k : K) (rooms : List Room) : Prop where
  grown : ∀ r ∈ rooms, r.grown ≠ none
  ample : ∃ r ∈ rooms, Ample w l k r.free ∧ ∀ n, r.grown = some n → Ample w l k n

theorem not_supplied_nil {l : List (K × V)} {k : K} : ¬ Supplied w l k [] := by
  intro h
  obtain ⟨r, hr, -⟩ := h.ample
  simp at hr

/-- A torn attempt leaves the supply to the later ones. -/
theorem Supplied.tail {l l' : List (K × V)} {k : K} {r : Room} {rooms : List Room}
    (hs : Supplied w l k (r :: rooms)) (hl : l.Perm l')
    (hshort : ¬ (Ample w l k r.free ∧ ∀ n, r.grown = some n → Ample w l k n)) :
    Supplied w l' k rooms where
  grown r' hr' := hs.grown r' (List.mem_cons_of_mem r hr')
  ample := by
    obtain ⟨r', hr', hfree, hgrown⟩ := hs.ample
    rcases List.mem_cons.mp hr' with rfl | hr'
    · exact absurd ⟨hfree, hgrown⟩ hshort
    · exact ⟨r', hr', hfree.perm hl, fun n hn => (hgrown n hn).perm hl⟩

/-- What an operation on `t` may come to: an answer with `Q`, or no memory; the invariant
holds either way, and without an answer the content is as it was. -/
inductive Settled {α : Type} (w : Walks K) (t : Tablet K V) (supplied : Prop)
    (Q : α → Tablet K V → Prop) : Tablet K V × Except Halt α → Prop where
  | answer {t' : Tablet K V} {a : α} (inv : TabletInv w t') (h : Q a t') :
      Settled w t supplied Q (t', .ok a)
  | dry {t' : Tablet K V} (inv : TabletInv w t') (content : t'.entries.Perm t.entries)
      (hdry : ¬ supplied) : Settled w t supplied Q (t', .error .dry)

/-- An attempt that came to nothing, and whatever the later ones come to. -/
theorem Settled.later {α : Type} {supplied supplied' : Prop} {Q Q' : α → Tablet K V → Prop}
    {t' : Tablet K V} {out : Tablet K V × Except Halt α}
    (hset : Settled w t' supplied' Q' out) (hcontent : t'.entries.Perm t.entries)
    (hsup : supplied → supplied') (hQ : ∀ a u, Q' a u → Q a u) :
    Settled w t supplied Q out := by
  cases hset with
  | answer inv h => exact .answer inv (hQ _ _ h)
  | dry inv content hdry => exact .dry inv (content.trans hcontent) fun hs => hdry (hsup hs)

theorem lookIn_occupy (hw : w.Lawful) {i : ℕ} {k : K} {v : V} (hi : i < t.cap)
    (hs : t.slots i = none) (inv : TabletInv w (t.occupy i k v)) (x : K) :
    lookIn w (t.occupy i k v).entries x = if w.eql x k then some v else lookIn w t.entries x := by
  rw [lookIn_perm hw (Tablet.occupy_entries hi hs) inv.distinct x, lookIn_cons]

/-- The put after its tablet has grown: the key is as absent as before, and now fits. -/
theorem mapput_grown (hw : w.Lawful) {t' : Tablet K V} {k : K} {v : V} {r : Room} {room : ℕ}
    {rooms : List Room} (inv : TabletInv w t) (inv' : TabletInv w t')
    (hcap : t'.cap = 2 * t.cap) (hcontent : t'.entries.Perm t.entries)
    (hr : r.grown = some room) (habsent : ∀ e ∈ t.entries, w.eql k e.1 = false)
    (hlater : Settled w t' (Supplied w t'.entries k rooms)
      (fun _ u => ∀ x, lookIn w u.entries x =
        if w.eql x k then some v else lookIn w t'.entries x) (mapput w k v rooms t')) :
    Settled w t (Supplied w t.entries k (r :: rooms))
      (fun _ u => ∀ x, lookIn w u.entries x =
        if w.eql x k then some v else lookIn w t.entries x)
      (match mapProbe w ((some room).getD 0) t' k with
        | .error .torn => mapput w k v rooms t'
        | .error e => (t', .error e)
        | .ok (_, i') => (t'.occupy i' k v, .ok ())) := by
  have hlook : ∀ x, lookIn w t'.entries x = lookIn w t.entries x :=
    lookIn_perm hw hcontent inv'.distinct
  have hp := mapProbe_probed hw inv' room k
  rw [Option.getD_some]
  cases hm : mapProbe w room t' k with
  | error e =>
      rw [hm] at hp
      cases hp with
      | torn hshort =>
          refine hlater.later hcontent (fun hs => ?_) fun _ u h x => ?_
          · exact hs.tail hcontent.symm fun h => hshort ((h.2 room hr).perm hcontent.symm)
          · rw [h x, hlook x]
  | ok p =>
      rw [hm] at hp
      cases hp with
      | @found i e hi he heql =>
          exfalso
          have hmem := hcontent.mem_iff.mp (Tablet.mem_entries.mpr ⟨i, hi, he⟩)
          simp [habsent e hmem] at heql
      | @gap i hi hgap hclear habsent' =>
          have hlen : t'.len = t.len := by
            rw [inv'.len_eq, inv.len_eq, hcontent.length_eq]
          have hload := inv.load
          have hpos := Tablet.cap_pos inv.power
          have hfits : (t'.len + 1) * 4 < t'.cap * 3 := by
            rcases (show t.cap = 1 ∨ 2 ≤ t.cap by omega) with h | h <;> omega
          have hnew := inv'.occupy hw (v := v) hi hgap hclear habsent' hfits
          refine .answer hnew fun x => ?_
          rw [lookIn_occupy hw hi hgap hnew x, hlook x]

theorem mapput_settled (hw : w.Lawful) (inv : TabletInv w t) (k : K) (v : V)
    (rooms : List Room) :
    Settled w t (Supplied w t.entries k rooms)
      (fun _ t' => ∀ x, lookIn w t'.entries x =
        if w.eql x k then some v else lookIn w t.entries x)
      (mapput w k v rooms t) := by
  induction rooms generalizing t with
  | nil => exact .dry inv (List.Perm.refl _) not_supplied_nil
  | cons r rooms ih =>
      have hp := mapProbe_probed hw inv r.free k
      cases hm : mapProbe w r.free t k with
      | error e =>
          rw [hm] at hp
          cases hp with
          | torn hshort =>
              simp only [mapput, hm]
              refine (ih inv).later (List.Perm.refl _) (fun hs => ?_) fun _ _ h => h
              exact hs.tail (List.Perm.refl _) fun h => hshort h.1
      | ok p =>
          rw [hm] at hp
          cases hp with
          | @found i e hi he heql =>
              simp only [mapput, hm, he]
              have hover := inv.overwrite hw (v := v) hi he heql
              exact .answer hover.1 hover.2
          | @gap i hi hgap hclear habsent =>
              simp only [mapput, hm]
              split
              · rename_i hload
                have hnew := inv.occupy hw (v := v) hi hgap hclear habsent hload
                exact .answer hnew (lookIn_occupy hw hi hgap hnew)
              · cases hr : r.grown with
                | none =>
                    simp only [mapGrow]
                    refine .dry inv (List.Perm.refl _) fun hs => ?_
                    exact hs.grown r List.mem_cons_self hr
                | some room =>
                    have hg := mapGrow_attempt hw inv room
                    cases hgrow : mapGrow w (some room) t with
                    | error e =>
                        rw [hgrow] at hg
                        cases hg with
                        | torn hshort =>
                            refine (ih inv).later (List.Perm.refl _) (fun hs => ?_) fun _ _ h => h
                            exact hs.tail (List.Perm.refl _) fun h => hshort (h.2 room hr).hashes
                    | ok t' =>
                        rw [hgrow] at hg
                        cases hg with
                        | answer hg =>
                            obtain ⟨inv', hcap, hcontent⟩ := hg
                            exact mapput_grown hw inv inv' hcap hcontent hr habsent (ih inv')

end LoveRuntime

/-! # Deletion by backward shift -/

namespace LoveRuntime

open Probing

variable {K V : Type} {w : Walks K} {t : Tablet K V}

theorem mapdelHashes_attempt (hpow : ∃ e, t.cap = 2 ^ e) {g : ℕ} (hg : g < t.cap)
    (hgap : t.slots g = none) (room : ℕ) {fuel j : ℕ} (hj : j < t.cap)
    (hfuel : ahead t.cap j g < fuel) :
    Attempt (fun _ => True) (¬ Hashable w t.entries room) (mapdelHashes w room t fuel j) := by
  induction fuel generalizing j with
  | zero => omega
  | succ fuel ih =>
      rw [mapdelHashes]
      cases hs : t.slots j with
      | none => exact .answer trivial
      | some e =>
          simp only [Walks.hashIn]
          split
          · apply Attempt.torn
            intro ha
            have := ha e (Tablet.mem_entries.mpr ⟨j, hj, hs⟩)
            omega
          · have hjg : j ≠ g := by
              rintro rfl
              simp [hs] at hgap
            have hclose := ahead_next_left hj hg hjg
            simp only [bind, Except.bind]
            rw [Tablet.after_eq hpow hj]
            exact ih (next_lt hj) (by omega)

/-- The shift under way, in a tablet that was `t` with its hole at `i₀`. -/
structure Shifting (w : Walks K) (t : Tablet K V) (i₀ : ℕ) (u : Tablet K V) (i j : ℕ) :
    Prop where
  cap_eq : u.cap = t.cap
  len_eq : u.len = t.len
  scan : u.slots j ≠ none
  shift : Shift t.cap (fun e => t.ideal w e.1) u.slots i j
  content : (Probing.entries t.cap (Function.update u.slots i none)).Perm
    (Probing.entries t.cap (Function.update t.slots i₀ none))

theorem Shifting.start (inv : TabletInv w t) {i : ℕ} {e : K × V} (hi : i < t.cap)
    (he : t.slots i = some e) : Shifting w t i t i i where
  cap_eq := rfl
  len_eq := rfl
  scan := by simp [he]
  shift := inv.reach.shift hi he
  content := List.Perm.refl _

/-- What the loop ends with: the hole emptied, every other key is in its place. -/
structure Shifted (w : Walks K) (t : Tablet K V) (i₀ : ℕ) (out : Tablet K V × ℕ) : Prop where
  cap_eq : out.1.cap = t.cap
  len_eq : out.1.len = t.len
  reach : Reachable t.cap (fun e => t.ideal w e.1) (Function.update out.1.slots out.2 none)
  content : (Probing.entries t.cap (Function.update out.1.slots out.2 none)).Perm
    (Probing.entries t.cap (Function.update t.slots i₀ none))

theorem Shifting.move {u : Tablet K V} {i₀ i j : ℕ} {e : K × V} (h : Shifting w t i₀ u i j)
    (hne : next t.cap j ≠ i) (he : u.slots (next t.cap j) = some e)
    (hpass : ahead t.cap i (next t.cap j) ≤ ahead t.cap (t.ideal w e.1) (next t.cap j)) :
    Shifting w t i₀ (u.write i e.1 e.2) (next t.cap j) (next t.cap j) where
  cap_eq := h.cap_eq
  len_eq := h.len_eq
  scan := by
    have hsame : (u.write i e.1 e.2).slots (next t.cap j) = u.slots (next t.cap j) :=
      Function.update_of_ne hne _ _
    simp [hsame, he]
  shift := h.shift.move (next_lt h.shift.scan_lt) hne he hpass
  content :=
    (entries_move h.shift.hole_lt (next_lt h.shift.scan_lt) hne he).trans h.content

theorem Shifting.stay (hpow : ∃ e, t.cap = 2 ^ e) {u : Tablet K V} {i₀ i j : ℕ} {e : K × V}
    (h : Shifting w t i₀ u i j) (hne : next t.cap j ≠ i)
    (he : u.slots (next t.cap j) = some e)
    (hpass : ahead t.cap (t.ideal w e.1) (next t.cap j) < ahead t.cap i (next t.cap j)) :
    Shifting w t i₀ u i (next t.cap j) where
  cap_eq := h.cap_eq
  len_eq := h.len_eq
  scan := by simp [he]
  shift := h.shift.stay hne (Tablet.ideal_lt hpow w e.1) he hpass
  content := h.content

theorem mapdelShift_shifted (fuel : ℕ) (hpow : ∃ e, t.cap = 2 ^ e) {g : ℕ} (hg : g < t.cap)
    {u : Tablet K V} {i₀ i j : ℕ} (h : Shifting w t i₀ u i j)
    (hgap : u.slots g = none) (hbefore : ahead t.cap i j < ahead t.cap i g)
    (hfuel : ahead t.cap j g ≤ fuel) :
    ∃ out, mapdelShift w fuel u i j = .ok out ∧ Shifted w t i₀ out := by
  induction fuel generalizing u i j with
  | zero =>
      have hjg : j ≠ g := fun hjg => h.scan (hjg ▸ hgap)
      have := ahead_pos (b := g) h.shift.scan_lt hjg
      omega
  | succ fuel ih =>
      have hj := h.shift.scan_lt
      have hjg : j ≠ g := fun hjg => h.scan (hjg ▸ hgap)
      have hclose := ahead_next_left hj hg hjg
      have hafter : u.after j = next t.cap j := by
        rw [← Tablet.after_eq hpow hj, Tablet.after, Tablet.after, Tablet.mask, Tablet.mask,
          h.cap_eq]
      have hideal : ∀ k, u.ideal w k = t.ideal w k := by
        intro k
        rw [Tablet.ideal, Tablet.ideal, Tablet.mask, Tablet.mask, h.cap_eq]
      rw [mapdelShift]
      simp only [hafter, hideal]
      cases hs : u.slots (next t.cap j) with
      | none =>
          refine ⟨(u, i), rfl, h.cap_eq, h.len_eq, ?_, h.content⟩
          exact h.shift.close (fun e => Tablet.ideal_lt hpow w e.1) hs
      | some e =>
          -- the scan meets the gap before it comes back to the hole
          have hne : next t.cap j ≠ i := by
            intro hn
            have hlt := ahead_lt (a := i) hg
            unfold next at hn
            unfold ahead at hbefore hlt
            split_ifs at hn hbefore hlt <;> omega
          have hng : next t.cap j ≠ g := by
            intro hn
            simp [hn, hgap] at hs
          simp only [passes_iff h.shift.hole_lt (Tablet.ideal_lt hpow w e.1)]
          split
          · rename_i hpass
            apply ih (h.move hne hs hpass)
            · have hig : g ≠ i := fun hgi => h.shift.hole (hgi ▸ hgap)
              exact (Function.update_of_ne hig _ _).trans hgap
            · rw [ahead_self]
              exact ahead_pos (next_lt hj) hng
            · omega
          · rename_i hpass
            rw [Nat.not_le] at hpass
            apply ih (h.stay hpow hne hs hpass) hgap _ (by omega)
            rw [ahead_next h.shift.hole_lt hne]
            refine lt_of_le_of_ne hbefore fun heq => hng ?_
            rw [← ahead_next h.shift.hole_lt hne] at heq
            exact eq_of_ahead_eq h.shift.hole_lt (next_lt hj) hg heq

/-- The tablet whose emptied hole the loop ends with. -/
theorem deleted_inv (hw : w.Lawful) (inv : TabletInv w t) {i i' : ℕ} {k : K} {e : K × V}
    {u : Tablet K V} (hi : i < t.cap) (he : t.slots i = some e) (heql : w.eql k e.1 = true)
    (hs : Shifted w t i (u, i')) :
    TabletInv w { u with slots := Function.update u.slots i' none, len := u.len - 1 } ∧
      ∃ e, w.eql k e.1 = true ∧ t.entries.Perm
        (e :: Tablet.entries
          { u with slots := Function.update u.slots i' none, len := u.len - 1 }) := by
  obtain ⟨hcap, hlen, hreach, hcontent⟩ := hs
  simp only at hcap hlen hreach hcontent
  have hperm : t.entries.Perm (e :: Tablet.entries
      { u with slots := Function.update u.slots i' none, len := u.len - 1 }) := by
    apply (entries_empty_slot hi he).trans
    simp only [Tablet.entries, hcap]
    exact (hcontent.symm).cons e
  have hsize := hperm.length_eq
  rw [← inv.len_eq, List.length_cons] at hsize
  have hload := inv.load
  refine ⟨⟨?_, ?_, ?_, ?_, ?_⟩, e, heql, hperm⟩
  · simp only [hcap]
    exact inv.power
  · change u.len - 1 = _
    omega
  · change (u.len - 1) * 4 < u.cap * 3
    omega
  · exact (List.pairwise_cons.mp (inv.distinct.perm hw hperm)).2
  · simp only [Tablet.ideal, Tablet.mask, hcap]
    exact hreach

/-- Deleting a key takes its entry away and nothing else. -/
theorem mapdel_attempt (hw : w.Lawful) (inv : TabletInv w t) (room : ℕ) (k : K) :
    Attempt
      (fun r => match r with
        | none => ∀ e ∈ t.entries, w.eql k e.1 = false
        | some t' => TabletInv w t' ∧ ∃ e, w.eql k e.1 = true ∧ t.entries.Perm (e :: t'.entries))
      (¬ Ample w t.entries k room) (mapdel w room t k) := by
  have hp := mapProbe_probed hw inv room k
  unfold mapdel
  cases hm : mapProbe w room t k with
  | error e =>
      rw [hm] at hp
      cases hp with
      | torn hshort => exact .torn hshort
  | ok r =>
      rw [hm] at hp
      cases hp with
      | gap hi hgap hclear habsent => exact .answer habsent
      | @found i e hi he heql =>
          obtain ⟨g, hg, hgap⟩ := inv.exists_gap
          have hig : i ≠ g := by
            rintro rfl
            simp [he] at hgap
          have hhash := mapdelHashes_attempt (w := w) inv.power hg hgap room
            (Tablet.after_lt inv.power hi) (ahead_lt hg)
          simp only [bind, Except.bind, if_true]
          cases hh : mapdelHashes w room t t.cap (t.after i) with
          | error e =>
              rw [hh] at hhash
              cases hhash with
              | torn hshort => exact .torn fun ha => hshort ha.hashes
          | ok _ =>
              have hstart := Shifting.start inv hi he
              obtain ⟨⟨u, i'⟩, hout, hs⟩ := mapdelShift_shifted t.cap inv.power hg hstart
                hgap (by rw [ahead_self]; exact ahead_pos hi hig) (Nat.le_of_lt (ahead_lt hg))
              simp only [hout, pure, Except.pure]
              apply Attempt.answer
              exact deleted_inv hw inv hi he heql hs

end LoveRuntime
